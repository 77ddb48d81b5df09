import ChainLowering.Proofs.Loops

/-!
# The order of a walk downwards

The walk over all that is below a slot keeps a work list, and yet it comes by
the nodes as a recursion would: by a node first, then by what is below each of
its children from left to right. Lists of children may hold slots that name no
node; the walk passes them by.
-/

namespace ChainLowering

open Relation (ReflTransGen TransGen)

namespace Arena

variable {a : Arena} {c r : Ref} {d k : Nat} {i j : NodeId} {n : Node}

/-- Parents and children name each other, and there are no loops. Slots that name no node may be
listed anywhere. -/
structure Wood (a : Arena) : Prop where
  child : ∀ {i j}, some j ∈ a.children (some i) → j < a.size → a.Owns i j
  parent : ∀ {i j}, a.Owns i j → some j ∈ a.children (some i)
  /-- No node is listed twice. -/
  nodup : ∀ i, ((a.children (some i)).filter fun c => (a.node? c).isSome).Nodup
  acyclic : a.Acyclic

theorem lt_size_of_owns (h : a.Owns i j) : j < a.size := by
  by_contra hj
  rw [Owns, parent_eq_none (Nat.le_of_not_lt hj)] at h
  cases h

theorem lt_size_of_node? (h : a.node? (some i) = some n) : i < a.size :=
  isSome_node?.mp (by rw [h]; rfl)

theorem children_of_node? (h : a.node? r = some n) :
    a.children r = n.children := by rw [children, h]

theorem children_of_none (h : a.node? r = none) : a.children r = [] := by rw [children, h]

/-! ## How deep a tree is -/

/-- What is at a slot goes at most `d` levels down. -/
inductive Within (a : Arena) : Nat → Ref → Prop
  | absent {d : Nat} {r : Ref} (hr : a.node? r = none) : Within a d r
  | node {d : Nat} {i : NodeId} {n : Node} (hn : a.node? (some i) = some n)
      (hs : ∀ c ∈ n.children, Within a d c) :
    Within a (d + 1) (some i)

noncomputable def under (a : Arena) (i : NodeId) : Finset NodeId := by
  classical
  exact (Finset.range a.size).filter (TransGen a.Owns i)

theorem mem_under : j ∈ a.under i ↔ TransGen a.Owns i j := by
  unfold under
  simp only [Finset.mem_filter, Finset.mem_range, and_iff_right_iff_imp]
  intro h
  obtain ⟨k, -, hk⟩ := TransGen.tail'_iff.mp h
  exact lt_size_of_owns hk

theorem Acyclic.card_under_lt (h : a.Acyclic) (hij : a.Owns i j) :
    (a.under j).card < (a.under i).card := by
  apply Finset.card_lt_card
  rw [Finset.ssubset_iff_of_subset]
  · exact ⟨j, mem_under.mpr (.single hij), fun hj => h j (mem_under.mp hj)⟩
  · intro k hk
    exact mem_under.mpr (.head hij (mem_under.mp hk))

theorem Acyclic.card_under_lt_size (h : a.Acyclic) (hi : i < a.size) :
    (a.under i).card < a.size := by
  have hall : a.under i ⊆ (Finset.range a.size).erase i := by
    intro j hj
    obtain ⟨k, -, hk⟩ := TransGen.tail'_iff.mp (mem_under.mp hj)
    refine Finset.mem_erase.mpr ⟨?_, Finset.mem_range.mpr (lt_size_of_owns hk)⟩
    rintro rfl
    exact h j (mem_under.mp hj)
  have hcard := Finset.card_le_card hall
  rw [Finset.card_erase_of_mem (Finset.mem_range.mpr hi), Finset.card_range] at hcard
  exact Nat.lt_of_le_pred (Nat.zero_lt_of_lt hi) hcard

theorem Wood.within (h : a.Wood) (hd : (a.under i).card < d) : a.Within d (some i) := by
  induction d generalizing i with
  | zero => cases hd
  | succ d ih =>
    cases hn : a.node? (some i) with
    | none => exact .absent hn
    | some n =>
      refine .node hn fun c hc => ?_
      cases hm : a.node? c with
      | none => exact .absent hm
      | some m =>
        cases c with
        | none => cases hm
        | some j =>
          rw [← children_of_node? hn] at hc
          have := h.acyclic.card_under_lt (h.child hc (lt_size_of_node? hm))
          exact ih (by omega)

/-- No path is longer than there are nodes. -/
theorem Wood.within_size (h : a.Wood) (r : Ref) : a.Within a.size r := by
  cases hn : a.node? r with
  | none => exact .absent hn
  | some n =>
    cases r with
    | none => cases hn
    | some i => exact h.within (h.acyclic.card_under_lt_size (lt_size_of_node? hn))

/-! ## The recursion -/

/-- A node and then what is below each of its children, `d` levels down. -/
def recite (a : Arena) : Nat → Ref → List NodeId
  | d + 1, some i =>
    match a.node? (some i) with
    | some n => i :: n.children.flatMap (a.recite d)
    | none => []
  | _, _ => []

theorem recite_absent (d : Nat) (h : a.node? r = none) : a.recite d r = [] := by
  cases d <;> cases r <;> simp [recite, h]

theorem recite_node (d : Nat) (h : a.node? (some i) = some n) :
    a.recite (d + 1) (some i) = i :: n.children.flatMap (a.recite d) := by
  rw [recite, h]

theorem Within.recite_add (h : a.Within d r) (k : Nat) : a.recite (d + k) r = a.recite d r := by
  induction h with
  | absent hr => rw [recite_absent _ hr, recite_absent _ hr]
  | @node d i n hn _ ih =>
    rw [Nat.succ_add, recite_node _ hn, recite_node _ hn]
    congr 1
    apply List.flatMap_congr
    exact ih

theorem Within.recite_eq (h : a.Within d r) : a.recite d r = match a.node? r with
    | some n => r.toList ++ n.children.flatMap (a.recite d)
    | none => [] := by
  cases h with
  | absent hr => rw [recite_absent _ hr, hr]
  | node hn hs =>
    rw [recite_node _ hn, hn]
    show _ = _ :: _
    congr 1
    apply List.flatMap_congr
    intro c hc
    exact ((hs c hc).recite_add 1).symm

/-! ## The work list -/

theorem visit_absent (h : a.node? r = none) (k : Nat) (todo : List Ref) :
    a.visit (k + 1) (r :: todo) = a.visit k todo := by
  cases r with
  | none => rfl
  | some i => rw [visit, h]

theorem slotsTo_absent (d : Nat) (h : a.node? r = none) : a.slotsTo d r = 1 := by
  cases d with
  | zero => rfl
  | succ d => rw [slotsTo, children_of_none h]; rfl

/-- The walk has come by all that is below a list of slots when it goes on with what was below them
on the work list. -/
theorem visit_row {cs : List Ref}
    (hcs : ∀ c ∈ cs, ∀ k todo,
      a.visit (a.slotsTo d c + k) (c :: todo) = a.recite d c ++ a.visit k todo) (k : Nat)
        (todo : List Ref) :
    a.visit ((cs.map (a.slotsTo d)).foldr (· + ·) 0 + k) (cs ++ todo) =
      cs.flatMap (a.recite d) ++ a.visit k todo := by
  induction cs with
  | nil => simp
  | cons c cs ih =>
    rw [List.map_cons, List.foldr_cons, Nat.add_assoc, List.cons_append, hcs c List.mem_cons_self,
      ih fun c hc => hcs c (List.mem_cons_of_mem _ hc), List.flatMap_cons, List.append_assoc]

theorem Within.visit (h : a.Within d r) (k : Nat) (todo : List Ref) :
    a.visit (a.slotsTo d r + k) (r :: todo) = a.recite d r ++ a.visit k todo := by
  induction h generalizing k todo with
  | absent hr =>
      rw [slotsTo_absent _ hr, Nat.add_comm, visit_absent hr, recite_absent _ hr, List.nil_append]
  | @node d i n hn _ ih =>
    rw [slotsTo, children_of_node? hn, Nat.add_assoc, Nat.add_comm, Arena.visit, hn]
    simp only
    rw [visit_row ih, recite_node _ hn, List.cons_append]

theorem visits_row {cs : List Ref} {todo : List Ref} {is : List NodeId}
    (hcs : ∀ c ∈ cs, ∀ {todo is}, Visits a todo is → Visits a (c :: todo) (a.recite d c ++ is))
    (h : Visits a todo is) :
    Visits a (cs ++ todo) (cs.flatMap (a.recite d) ++ is) := by
  induction cs with
  | nil => exact h
  | cons c cs ih =>
    rw [List.cons_append, List.flatMap_cons, List.append_assoc]
    exact hcs c List.mem_cons_self (ih fun c hc => hcs c (List.mem_cons_of_mem _ hc))

theorem Within.visits (h : a.Within d r) {todo : List Ref} {is : List NodeId}
    (hs : Visits a todo is) :
    Visits a (r :: todo) (a.recite d r ++ is) := by
  induction h generalizing todo is with
  | absent hr =>
    rw [recite_absent _ hr]
    exact .skip hr hs
  | @node d i n hn _ ih =>
    rw [recite_node _ hn]
    exact .meet hn (visits_row ih hs)

/-! ## What is met -/

theorem Wood.mem_recite (h : a.Wood) (hr : a.Within d r) :
    j ∈ a.recite d r ↔ ∃ i, r = some i ∧ i < a.size ∧ ReflTransGen a.Owns i j := by
  induction hr with
  | @absent d r hr =>
    rw [recite_absent _ hr]
    simp only [List.not_mem_nil, false_iff]
    rintro ⟨i, rfl, hi, -⟩
    rw [← isSome_node?, hr] at hi
    cases hi
  | @node d i n hn _ ih =>
    rw [recite_node _ hn, List.mem_cons, List.mem_flatMap]
    constructor
    · rintro (rfl | ⟨c, hc, hj⟩)
      · exact ⟨j, rfl, lt_size_of_node? hn, .refl⟩
      · obtain ⟨k, rfl, hk, hkj⟩ := (ih c hc).mp hj
        rw [← children_of_node? hn] at hc
        exact ⟨i, rfl, lt_size_of_node? hn, .head (h.child hc hk) hkj⟩
    · rintro ⟨_, e, -, hij⟩
      obtain rfl := Option.some.inj e
      rcases ReflTransGen.cases_head hij with rfl | ⟨k, hik, hkj⟩
      · exact .inl rfl
      · have hmem := h.parent hik
        rw [children_of_node? hn] at hmem
        exact .inr ⟨some k, hmem, (ih _ hmem).mpr ⟨k, rfl, lt_size_of_owns hik, hkj⟩⟩

theorem above_total {l : NodeId} (hi : ReflTransGen a.Owns i l) (hj : ReflTransGen a.Owns j l) :
    ReflTransGen a.Owns i j ∨ ReflTransGen a.Owns j i := by
  have hunique : Relator.RightUnique (Function.swap a.Owns) := by
    intro k m m' hm hm'
    exact Option.some.inj (hm.symm.trans hm')
  rw [← Relation.reflTransGen_swap] at hi hj
  rcases ReflTransGen.total_of_right_unique hunique hi hj with h | h
  · exact .inr (Relation.reflTransGen_swap.mp h)
  · exact .inl (Relation.reflTransGen_swap.mp h)

theorem Wood.apart {k l : NodeId} (h : a.Wood) (hj : a.Owns i j) (hk : a.Owns i k)
    (hjl : ReflTransGen a.Owns j l) (hkl : ReflTransGen a.Owns k l) : j = k := by
  have hside : ∀ {j k}, a.Owns i j → a.Owns i k → ReflTransGen a.Owns j k → j = k := by
    intro j k hj hk hjk
    rcases ReflTransGen.cases_tail hjk with e | ⟨m, hjm, hmk⟩
    · exact e.symm
    · obtain rfl := Option.some.inj (hmk.symm.trans hk)
      exact absurd (TransGen.head' hj hjm) (h.acyclic _)
  rcases above_total hjl hkl with hjk | hkj
  · exact hside hj hk hjk
  · exact (hside hk hj hkj).symm

theorem Wood.nodup_recite (h : a.Wood) (hr : a.Within d r) : (a.recite d r).Nodup := by
  induction hr with
  | absent hr => rw [recite_absent _ hr]; exact List.nodup_nil
  | @node d i n hn hs ih =>
    rw [recite_node _ hn, List.nodup_cons, List.nodup_flatMap]
    have howns : ∀ {c l}, c ∈ n.children → l ∈ a.recite d c → ∃ k, c = some k ∧ a.Owns i k ∧
        ReflTransGen a.Owns k l := by
      intro c l hc hl
      obtain ⟨k, rfl, hk, hkl⟩ := (h.mem_recite (hs c hc)).mp hl
      rw [← children_of_node? hn] at hc
      exact ⟨k, rfl, h.child hc hk, hkl⟩
    refine ⟨?_, ih, ?_⟩
    · intro hi
      obtain ⟨c, hc, hi⟩ := List.mem_flatMap.mp hi
      obtain ⟨k, -, hik, hki⟩ := howns hc hi
      exact h.acyclic i (TransGen.head' hik hki)
    · have hnodup := h.nodup i
      rw [children_of_node? hn, List.nodup_iff_pairwise_ne, List.pairwise_filter] at hnodup
      refine hnodup.imp_of_mem ?_
      intro c c' hc hc' hne l hl hl'
      obtain ⟨k, rfl, hik, hkl⟩ := howns hc hl
      obtain ⟨k', rfl, hik', hkl'⟩ := howns hc' hl'
      refine hne (isSome_node?.mpr (lt_size_of_owns hik))
        (isSome_node?.mpr (lt_size_of_owns hik')) ?_
      rw [h.apart hik hik' hkl hkl']

theorem exists_climb : ReflTransGen a.Owns i j ↔ ∃ k, a.parent^[k] (some j) = some i := by
  constructor
  · intro h
    induction h using ReflTransGen.head_induction_on with
    | refl => exact ⟨0, rfl⟩
    | head hik _ ih =>
      obtain ⟨k, hk⟩ := ih
      exact ⟨k + 1, by rw [Function.iterate_succ_apply', hk, hik]⟩
  · rintro ⟨k, hk⟩
    induction k generalizing i with
    | zero => rw [← Option.some.inj hk]
    | succ k ih =>
      rw [Function.iterate_succ_apply'] at hk
      cases hm : a.parent^[k] (some j) with
      | none => rw [hm] at hk; cases hk
      | some m =>
        rw [hm] at hk
        exact .head hk (ih hm)

/-! ## The walk as a recursion -/

theorem preorder_eq_recite (h : a.Wood) (r : Ref) : a.preorder r = a.recite a.size r := by
  have := (h.within_size r).visit 0 []
  rw [Nat.add_zero] at this
  rw [preorder, this, visit, List.append_nil]

theorem Wood.mem_preorder (h : a.Wood) :
    j ∈ a.preorder r ↔ j < a.size ∧ r ≠ none ∧ ∃ k, a.parent^[k] (some j) = r := by
  rw [preorder_eq_recite h, h.mem_recite (h.within_size r)]
  constructor
  · rintro ⟨i, rfl, hi, hij⟩
    refine ⟨?_, Option.some_ne_none i, exists_climb.mp hij⟩
    rcases ReflTransGen.cases_tail hij with rfl | ⟨k, -, hk⟩
    · exact hi
    · exact lt_size_of_owns hk
  · rintro ⟨hj, hr, k, hk⟩
    obtain ⟨i, rfl⟩ := Option.ne_none_iff_exists'.mp hr
    have hij := exists_climb.mpr ⟨k, hk⟩
    refine ⟨i, rfl, ?_, hij⟩
    rcases ReflTransGen.cases_head hij with rfl | ⟨m, him, -⟩
    · exact hj
    · by_contra hi
      have := h.parent him
      rw [children_eq_nil (Nat.le_of_not_lt hi)] at this
      cases this

/-- The walk over all that is below a slot comes to its end without a bound. It meets the node at
the slot and then, as if each were walked on its own, what is below the children from left to right;
where no node is, it meets nothing. So it meets just those nodes from which parents lead to the
slot, and each once. -/
theorem preorder_recursive (h : a.Wood) (root : Ref) :
    Visits a [root] (a.preorder root) ∧
      a.preorder root = (match a.node? root with
        | some n => root.toList ++ n.children.flatMap a.preorder
        | none => []) ∧
      (a.preorder root).Nodup ∧
      ∀ j, j ∈ a.preorder root ↔ j < a.size ∧ root ≠ none ∧ ∃ k, a.parent^[k] (some j) = root := by
  refine ⟨?_, ?_, ?_, fun j => h.mem_preorder⟩
  · have := (h.within_size root).visits .done
    rwa [List.append_nil, ← preorder_eq_recite h] at this
  · rw [funext (preorder_eq_recite h)]
    exact (h.within_size root).recite_eq
  · rw [preorder_eq_recite h]
    exact h.nodup_recite (h.within_size root)

/-- A node lists slots that name no node among its children, one of them twice. -/
def sampleWood : Arena where
  nodes := #[⟨{ kind := .script }, none, [some 3, some 9, none, some 1, some 9]⟩,
    ⟨{ kind := .exprStmt }, some 0, [some 2]⟩, ⟨{ kind := .nullLit }, some 1, []⟩,
    ⟨{ kind := .block }, some 0, [some 7]⟩]

theorem wood_sample : sampleWood.Wood := by
  have hlt {i j : NodeId} (h : sampleWood.Owns i j) : i < j := by
    have hall : ∀ j < 4, ∀ i ∈ sampleWood.parent (some j), i < j := by decide
    exact hall j (lt_size_of_owns h) i h
  have hlisted {i : NodeId} {r : Ref} (h : r ∈ sampleWood.children (some i)) : i < 4 := by
    by_contra hi
    rw [children_eq_nil (Nat.le_of_not_lt hi)] at h
    cases h
  refine ⟨?_, ?_, ?_, ?_⟩
  · intro i j h hj
    have hall : ∀ i < 4, ∀ j < 4, some j ∈ sampleWood.children (some i) →
        sampleWood.parent (some j) = some i := by decide
    exact hall i (hlisted h) j hj h
  · intro i j h
    have hall : ∀ j < 4, ∀ i ∈ sampleWood.parent (some j),
        some j ∈ sampleWood.children (some i) := by decide
    exact hall j (lt_size_of_owns h) i h
  · intro i
    by_cases hi : i < 4
    · have hall : ∀ i < 4, ((sampleWood.children (some i)).filter fun c =>
          (sampleWood.node? c).isSome).Nodup := by decide
      exact hall i hi
    · rw [children_eq_nil (Nat.le_of_not_lt hi)]
      exact List.nodup_nil
  · intro i hi
    have := TransGen.mono (fun _ _ => hlt) _ _ hi
    rw [Relation.transGen_eq_self] at this
    exact lt_irrefl i this

theorem preorder_recursive_sample : sampleWood.Wood ∧ sampleWood.preorder (some 0) = [0, 3, 1, 2] ∧
    Visits sampleWood [some 0] (sampleWood.preorder (some 0)) ∧
      sampleWood.preorder (some 0) = (match sampleWood.node? (some 0) with
        | some n => Option.toList (some 0) ++ n.children.flatMap sampleWood.preorder
        | none => []) ∧
      (sampleWood.preorder (some 0)).Nodup ∧
      ∀ j, j ∈ sampleWood.preorder (some 0) ↔ j < sampleWood.size ∧ (some 0 : Ref) ≠ none ∧
        ∃ k, sampleWood.parent^[k] (some j) = some 0 :=
  ⟨wood_sample, by decide, preorder_recursive wood_sample (some 0)⟩

end Arena

end ChainLowering
