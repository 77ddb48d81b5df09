import ChainLowering.Proofs.Completeness
import ChainLowering.Proofs.Mentions
import ChainLowering.Proofs.OneChain

/-!
# Temporaries are hygienic

A temporary has a name that nothing else has. It is declared before the
statement that its chain stood in, and kept once and read once inside it, in
the body that the statement belongs to.
-/

namespace ChainLowering

open Grown

namespace Arena

/-- The nodes at and below some slots. -/
def below (a : Arena) (roots : List Ref) : List NodeId := roots.flatMap a.preorder

/-- A way down that enters no function and no block. -/
inductive Inside (a : Arena) : NodeId → NodeId → Prop
  | here (i : NodeId) : Inside a i i
  | under {i j k : NodeId} (inner : (a.kind? (some i)).any Kind.isInner = true)
      (child : some j ∈ a.children (some i)) (rest : Inside a j k) : Inside a i k

/-- `let x;` -/
structure Declares (a : Arena) (x : String) (declaration binding : NodeId) : Prop where
  kind : a.isKind (some declaration) .letDecl = true
  child : a.children (some declaration) = [some binding]
  name : Names.nameAt? a (some binding) = some x
  bare : a.children (some binding) = []

/-- The nodes that have to do with a temporary. -/
structure Site where
  owner : NodeId
  statement : NodeId
  declaration : NodeId
  binding : NodeId
  assignment : NodeId
  target : NodeId
  use : NodeId

/-- How a temporary stands in the scripts. The store before was `b`, and
`drawn` are the names of all temporaries. -/
structure Site.Hosts (s : Site) (b a : Arena) (roots : List Ref) (drawn : List String)
    (x : String) : Prop where
  names : ((a.below roots).filter fun i => Names.nameAt? a (some i) = some x).Perm
    [s.binding, s.target, s.use]
  declares : a.Declares x s.declaration s.binding
  owner : (a.kind? (some s.owner)).any Kind.ownsStatements = true
  row : ∃ before lets after, a.children (some s.owner) =
    before ++ some s.declaration :: (lets ++ some s.statement :: after) ∧ ∀ r ∈ lets, ∃ y ∈ drawn,
    ∃ d n, r = some d ∧ a.Declares y d n
  original : s.statement ∈ b.below roots ∧ b.isStatement (some s.statement) = true ∧
    b.parent (some s.statement) = some s.owner
  assigns : a.isKind (some s.assignment) .assign = true ∧
    a.firstChild (some s.assignment) = some s.target
  only : ∀ i ∈ a.below roots, a.isKind (some i) .assign = true →
    Names.nameAt? a (a.firstChild (some i)) = some x → i = s.assignment
  reads : ∃ p, a.parent (some s.use) = some p ∧
    ((a.kind? (some p)).any Kind.isLink = true ∨ a.isKind (some p) .assign = true ∧
      a.firstChild (some p) ≠ some s.use)
  inside : a.Inside s.statement s.assignment ∧ a.Inside s.statement s.use

variable {a b : Arena} {p : Ref} {t u : Grown} {ts : List Grown} {Q : Kind → Bool}
    {P : Grown → Prop} {i : NodeId} {x : Temp}
  {s : String}

theorem Inside.snoc {j k : NodeId} (h : a.Inside i j)
    (inner : (a.kind? (some j)).any Kind.isInner = true) (child : some k ∈ a.children (some j)) :
    a.Inside i k := by
  induction h with
  | here => exact .under inner child (.here k)
  | under hinner hchild _ ih => exact .under hinner hchild (ih inner child)

/-! ## Nodes of trees that are shown -/

theorem Shows.exists_lodged (h : a.Shows p t) (hl : Lodged Q P t) :
    ∃ s q, P s ∧ a.Shows q s ∧ s.ids.Sublist t.ids ∧ ((∀ k, Q k = true → k.isInner = true) →
      a.Inside t.id s.id) := by
  induction hl generalizing p with
  | here hP => exact ⟨_, p, hP, h, List.Sublist.refl _, fun _ => .here _⟩
  | @under i l t ts hQ ht _ ih =>
    obtain ⟨s, q, hP, hs, hsub, hin⟩ := ih (h.child ht)
    refine ⟨s, q, hP, hs, ?_, fun hinner => .under ?_ ?_ (hin hinner)⟩
    · rw [ids_node]
      obtain ⟨us, vs, rfl⟩ := List.append_of_mem ht
      refine (hsub.trans ?_).cons _
      rw [List.flatMap_append, List.flatMap_cons]
      exact (List.sublist_append_left _ _).trans (List.sublist_append_right _ _)
    · rw [h.kind?]
      exact hinner _ hQ
    · rw [h.children]
      exact mem_slots.mpr ⟨t, ht, rfl⟩

theorem lodged_of_mem_ids (hi : i ∈ t.ids) : Lodged (fun _ => true) (fun s => s.id = i) t := by
  induction t with
  | node j l ts ih =>
    rw [ids_node] at hi
    rcases List.mem_cons.mp hi with rfl | hi
    · exact .here rfl
    · obtain ⟨t, ht, hi⟩ := List.mem_flatMap.mp hi
      exact .under rfl ht (ih t ht hi)

theorem Shows.declares {q : Ref} (h : a.Shows q x.declaration) :
    a.Declares x.name x.declared x.binding where
  kind := h.isKind rfl
  child := h.children
  name := Names.nameAt?_root (h.child (List.mem_singleton_self _))
  bare := (h.child (List.mem_singleton_self _)).children

/-- How the nodes of a temporary are told apart. -/
structure Stands (a : Arena) (x : Temp) : Prop where
  declares : a.Declares x.name x.declared x.binding
  bound : a.parent (some x.binding) = some x.declared
  assigns : a.isKind (some x.assigned) .assign = true ∧
    a.firstChild (some x.assigned) = some x.target
  target : Names.nameAt? a (some x.target) = some x.name
  kept : a.parent (some x.target) = some x.assigned
  use : Names.nameAt? a (some x.used) = some x.name
  reads : ∃ p, a.parent (some x.used) = some p ∧
    ((a.kind? (some p)).any Kind.isLink = true ∨ a.isKind (some p) .assign = true ∧
      a.firstChild (some p) ≠ some x.used)

theorem Shows.keeps {q : Ref} {v : Grown} (h : a.Shows q v) (hx : Keeps x v) :
    v.id = x.assigned ∧ x.target ∈ v.ids ∧ (a.isKind (some x.assigned) .assign = true ∧
      a.firstChild (some x.assigned) = some x.target) ∧
        Names.nameAt? a (some x.target) = some x.name ∧
      a.parent (some x.target) = some x.assigned := by
  obtain ⟨e, rfl⟩ := hx
  have hchild := h.child List.mem_cons_self
  refine ⟨rfl, by simp [Temp.keep], ⟨h.isKind rfl, ?_⟩, Names.nameAt?_root hchild, hchild.parent⟩
  have := h.children
  rw [Arena.firstChild]
  rw [show (x.keep e).id = x.assigned from rfl] at this
  rw [this]
  rfl

theorem Shows.uses {q : Ref} {v : Grown} (h : a.Shows q v) (hn : v.ids.Nodup) (hx : Uses x v) :
    x.used ∈ v.ids ∧ a.parent (some x.used) = some v.id ∧
      Names.nameAt? a (some x.used) = some x.name ∧
      ((a.kind? (some v.id)).any Kind.isLink = true ∨
        a.isKind (some v.id) .assign = true ∧ a.firstChild (some v.id) ≠ some x.used) := by
  rcases hx with ⟨hmem, hl⟩ | ⟨y, rfl⟩
  · obtain ⟨j, l, ts⟩ := v
    have hchild := h.child hmem
    refine ⟨?_, hchild.parent, Names.nameAt?_root hchild, .inl ?_⟩
    · rw [ids_node]
      exact List.mem_cons_of_mem _ (List.mem_flatMap.mpr ⟨_, hmem, List.mem_cons_self⟩)
    · rw [h.kind?]
      exact hl
  · have hchild := h.child (List.mem_cons_of_mem _ List.mem_cons_self)
    refine ⟨by simp [Temp.keep, Temp.use], hchild.parent, Names.nameAt?_root hchild,
      .inr ⟨h.isKind rfl, ?_⟩⟩
    have hne : y.target ≠ x.used := by
      rintro e
      simp [Temp.keep, Temp.use, e] at hn
    rw [Arena.firstChild, h.children]
    simpa [Temp.keep] using hne

theorem inner_of_uses (h : Uses x t) : t.label.kind.isInner = true ∧ x.use ∈ t.children := by
  rcases h with ⟨hmem, hl⟩ | ⟨y, rfl⟩
  · exact ⟨isInner_of_isLink hl, hmem⟩
  · exact ⟨rfl, List.mem_cons_of_mem _ List.mem_cons_self⟩

theorem Shows.row {q : Ref} {R : NodeId → NodeId → Prop} {T : Temp → Prop} {v : Grown}
    (h : a.Shows q v) (hn : v.ids.Nodup) (hx : Row R T x t v) :
    a.Stands x ∧ a.Inside t.id x.assigned ∧ a.Inside t.id x.used ∧
      (x.binding ∈ v.ids ∧ x.target ∈ v.ids ∧ x.used ∈ v.ids) ∧
      ∃ before lets after,
      a.children (some v.id) = before ++ some x.declared :: (lets ++ some t.id :: after) ∧
        ∀ r ∈ lets, ∃ y, T y ∧ ∃ d n, r = some d ∧ a.Declares y.name d n := by
  obtain ⟨-, ⟨before, lets, after, hchildren, hlets⟩, -, hkept, hread⟩ := hx
  obtain ⟨j, l, ts⟩ := v
  obtain rfl : ts = _ := hchildren
  have ht := h.child (t := t) (by simp)
  have hd := h.child (t := x.declaration) (by simp)
  -- below the statement every node occurs once, since it does in the row
  have hsub :
      t.ids.Sublist (node j l
        (before ++ x.declaration :: (lets.map Temp.declaration ++ t :: after))).ids := by
    simp only [ids_node, List.flatMap_append, List.flatMap_cons]
    refine ((List.Sublist.trans ?_ (List.sublist_append_right _ _)).trans
      (List.sublist_append_right _ _)).cons _
    exact (List.sublist_append_left _ _).trans (List.sublist_append_right _ _)
  obtain ⟨k, qk, hk, hks, hksub, hkin⟩ := ht.exists_lodged hkept
  obtain ⟨w, qw, hw, hws, hwsub, hwin⟩ := ht.exists_lodged hread
  obtain ⟨hkid, hkmem, hassigns, htarget, hparent⟩ := hks.keeps hk
  obtain ⟨hwmem, hwparent, huse, hreads⟩ := hws.uses (hn.sublist (hwsub.trans hsub)) hw
  refine ⟨⟨hd.declares, (hd.child (List.mem_singleton_self _)).parent, hassigns, htarget, hparent,
    huse, w.id, hwparent, hreads⟩, hkid ▸ hkin fun _ h => h, ?_,
      ⟨?_, hsub.subset (hksub.subset hkmem), hsub.subset (hwsub.subset hwmem)⟩, ?_⟩
  · obtain ⟨hinner, huse⟩ := inner_of_uses hw
    refine (hwin fun _ h => h).snoc ?_ ?_
    · rw [hws.kind?]
      exact hinner
    · rw [hws.children]
      exact mem_slots.mpr ⟨x.use, huse, rfl⟩
  · simp [Temp.declaration]
  · refine ⟨slots before, slots (lets.map Temp.declaration), slots after, ?_, ?_⟩
    · rw [h.children]
      simp [Temp.declaration]
    · intro r hr
      obtain ⟨d, hd, rfl⟩ := mem_slots.mp hr
      obtain ⟨y, hy, rfl⟩ := List.mem_map.mp hd
      refine ⟨y, hlets y hy, _, _, rfl, (h.child ?_).declares⟩
      exact List.mem_append_right _ (List.mem_cons_of_mem _ (List.mem_append_left _ hd))

theorem Stands.nodup (h : a.Stands x) : [x.binding, x.target, x.used].Nodup := by
  obtain ⟨p, hp, hreads⟩ := h.reads
  -- the parents of the three nodes tell them apart
  have hkind : ∀ {i j : NodeId} {k : Kind}, a.isKind (some i) k = true →
      a.isKind (some j) .letDecl = true → k ≠ .letDecl → i ≠ j := by
    rintro i j k hi hj hk rfl
    simp only [Arena.isKind, decide_eq_true_eq] at hi hj
    exact hk (Option.some.inj (hi.symm.trans hj))
  have hbt : x.binding ≠ x.target := by
    intro e
    have := h.kept
    rw [← e, h.bound] at this
    exact hkind h.assigns.1 h.declares.kind Kind.noConfusion (Option.some.inj this).symm
  have hbu : x.binding ≠ x.used := by
    intro e
    rw [← e, h.bound] at hp
    obtain rfl := Option.some.inj hp
    have hd := h.declares.kind
    rcases hreads with hl | ⟨ha, -⟩
    · simp only [Arena.isKind, decide_eq_true_eq] at hd
      rw [hd] at hl
      cases hl
    · exact hkind ha hd Kind.noConfusion rfl
  have htu : x.target ≠ x.used := by
    intro e
    rw [← e, h.kept] at hp
    obtain rfl := Option.some.inj hp
    rcases hreads with hl | ⟨-, ha⟩
    · have hd := h.assigns.1
      simp only [Arena.isKind, decide_eq_true_eq] at hd
      rw [hd] at hl
      cases hl
    · exact ha (h.assigns.2.trans (congrArg some e))
  simp [hbt, hbu, htu]

theorem below_slots {R : Entries} (h : a.Holds (entriesAll none ts + R)) :
    a.below (slots ts) = ts.flatMap ids := by
  rw [below, slots, List.flatMap_map]
  refine List.flatMap_congr fun t ht => ?_
  obtain ⟨S, hS⟩ := holds_of_mem ht h
  exact preorder_tree hS

theorem names_below {R : Entries} (h : a.Holds (entriesAll none ts + R)) :
    (a.below (slots ts)).filterMap (fun i : NodeId => Names.nameAt? a i) = ts.flatMap names := by
  rw [below_slots h, List.filterMap_flatMap]
  refine List.flatMap_congr fun t ht => ?_
  obtain ⟨S, hS⟩ := holds_of_mem ht h
  exact Names.filterMap_nameAt? hS.shows

theorem length_filter_name {R : Entries} (h : a.Holds (entriesAll none ts + R)) :
    ((a.below (slots ts)).filter fun i => Names.nameAt? a (some i) = some s).length =
      mentionsAll s ts := by
  rw [mentionsAll, ← names_below h, List.count, List.countP_filterMap,
    ← List.countP_eq_length_filter]
  refine List.countP_congr fun i _ => ?_
  cases Names.nameAt? a (some i) <;> simp

theorem Stands.perm {R : Entries} (h : a.Stands x) (ha : a.Holds (entriesAll none ts + R))
    (hmem : ∀ i ∈ [x.binding, x.target, x.used], i ∈ a.below (slots ts))
    (hn : mentionsAll x.name ts = 3) :
    ((a.below (slots ts)).filter fun i => Names.nameAt? a (some i) = some x.name).Perm [x.binding,
      x.target, x.used] := by
  refine (List.Subperm.perm_of_length_le (List.subperm_of_subset h.nodup fun i hi => ?_) ?_).symm
  · refine List.mem_filter.mpr ⟨hmem i hi, ?_⟩
    simp only [List.mem_cons, List.not_mem_nil, or_false] at hi
    rcases hi with rfl | rfl | rfl
    · exact decide_eq_true h.declares.name
    · exact decide_eq_true h.target
    · exact decide_eq_true h.use
  · exact (length_filter_name ha).le.trans hn.le

theorem parent_of_firstChild {R : Entries} {j : NodeId} (ha : a.Holds (entriesAll none ts + R))
    (hi : i ∈ a.below (slots ts)) (hj : a.firstChild (some i) = some j) :
    j ∈ a.below (slots ts) ∧ a.parent (some j) = some i := by
  rw [below_slots ha] at hi ⊢
  obtain ⟨t, ht, hi⟩ := List.mem_flatMap.mp hi
  obtain ⟨S, hS⟩ := holds_of_mem ht ha
  obtain ⟨v, q, rfl, hv, hsub, -⟩ := hS.shows.exists_lodged (lodged_of_mem_ids hi)
  rw [firstChild, hv.children] at hj
  obtain ⟨k, l, _ | ⟨u, us⟩⟩ := v
  · cases hj
  · obtain rfl : u.id = j := Option.some.inj hj
    refine ⟨List.mem_flatMap.mpr ⟨t, ht, hsub.subset ?_⟩, (hv.child List.mem_cons_self).parent⟩
    simp [u.id_mem_ids]

theorem Stands.only {R : Entries} (h : a.Stands x) (ha : a.Holds (entriesAll none ts + R))
    (hp : ((a.below (slots ts)).filter fun i => Names.nameAt? a (some i) = some x.name).Perm
      [x.binding, x.target, x.used])
    (hi : i ∈ a.below (slots ts)) (hk : a.isKind (some i) .assign = true)
    (hname : Names.nameAt? a (a.firstChild (some i)) = some x.name) : i = x.assigned := by
  obtain ⟨j, hj⟩ : ∃ j, a.firstChild (some i) = some j := by
    cases hc : a.firstChild (some i) with
    | none => rw [hc] at hname; cases hname
    | some j => exact ⟨j, rfl⟩
  obtain ⟨hjmem, hjp⟩ := parent_of_firstChild ha hi hj
  rw [hj] at hname
  have hmem := hp.mem_iff.mp (List.mem_filter.mpr ⟨hjmem, decide_eq_true hname⟩)
  simp only [List.mem_cons, List.not_mem_nil, or_false] at hmem
  simp only [Arena.isKind, decide_eq_true_eq] at hk
  rcases hmem with rfl | rfl | rfl
  · rw [h.bound] at hjp
    have hd := h.declares.kind
    simp only [Arena.isKind, decide_eq_true_eq] at hd
    rw [← Option.some.inj hjp, hd] at hk
    cases hk
  · exact (Option.some.inj (h.kept.symm.trans hjp)).symm
  · obtain ⟨p, hpp, hreads⟩ := h.reads
    obtain rfl := Option.some.inj (hpp.symm.trans hjp)
    rcases hreads with hl | ⟨-, hne⟩
    · rw [hk] at hl
      cases hl
    · exact absurd hj hne

theorem statement_of_owns {R : Entries} {o c : NodeId} (ha : a.Holds (entriesAll none ts + R))
    (ht : t ∈ ts) (h : t.Owns o c) :
    c ∈ a.below (slots ts) ∧ a.isStatement (some c) = true ∧ a.parent (some c) = some o := by
  obtain ⟨S, hS⟩ := holds_of_mem ht ha
  obtain ⟨⟨k, l, us⟩, q, ⟨rfl, ho, hc⟩, hv, hsub, -⟩ := hS.shows.exists_lodged h
  obtain ⟨w, hw, e⟩ := mem_slots.mp hc
  obtain rfl := Option.some.inj e
  have hp : a.parent (some w.id) = some k := (hv.child hw).parent
  refine ⟨?_, ?_, hp⟩
  · rw [below_slots ha]
    refine List.mem_flatMap.mpr ⟨t, ht, hsub.subset ?_⟩
    rw [ids_node]
    exact List.mem_cons_of_mem _ (List.mem_flatMap.mpr ⟨w, hw, w.id_mem_ids⟩)
  · rw [Arena.isStatement, hp]
    exact (congrArg (Option.any Kind.ownsStatements) hv.kind?).trans ho

end Arena

/-! ## Scripts that are lowered -/

namespace Grown

variable {t u : Grown} {ts us : List Grown} {cs : List NodeId} {xs : List Temp}
    {x : Temp} {s : String}

theorem LowersAll.row (h : LowersAll t cs xs u) (hn : (t.endSet false).Nodup) (ht : t.Is .script)
    (hx : x ∈ xs) :
    Lodged (fun _ => true) (fun v => ∃ w, Row t.Owns (· ∈ xs) x w v) u := by
  obtain ⟨choice, rfl, hperm⟩ := h.exists_whole hn
  have hT : ∀ d ∈ (peel cs choice t).dues, d.temp ∈ xs :=
    fun d hd => hperm.mem_iff.mp (List.mem_map_of_mem (mem_dues_close hd))
  have hplaced := (placed_peel ht (fun _ _ h => h) hT).close choice (linked_peel t)
  obtain ⟨d, hd, rfl⟩ := List.mem_map.mp (hperm.mem_iff.mpr hx)
  have hpending : d.pending = false := by
    obtain ⟨i, l, ts⟩ := t
    have hl : l.kind = .script := ht.label_kind rfl
    rw [whole_owner i ts (by rw [hl]; rfl)] at hd
    obtain ⟨e, -, rfl⟩ := List.mem_map.mp hd
    rfl
  have := (hplaced d hd).2
  rwa [Due.Placed, if_neg (by simp [hpending])] at this

end Grown

namespace Lower

variable {ts us : List Grown} {xs : List Temp} {x : Temp} {s : String}

theorem LowersScripts.mentions (h : LowersScripts ts xs us) :
    mentionsAll s us = mentionsAll s ts + 3 * namesakes s xs := by
  induction h with
  | nil => rfl
  | cons first _ ih =>
    rw [mentionsAll_cons, mentionsAll_cons, ih, first.mentions, namesakes_append]
    omega

theorem LowersScripts.exists_script (h : LowersScripts ts xs us) (hx : x ∈ xs) :
    ∃ t ∈ ts, ∃ u ∈ us, ∃ ys : List Temp, ys ⊆ xs ∧ x ∈ ys ∧ LowersAll t (t.ends false) ys u := by
  induction h with
  | nil => cases hx
  | @cons t u ts us ys zs first _ ih =>
    rcases List.mem_append.mp hx with hx | hx
    · exact ⟨t, List.mem_cons_self, u, List.mem_cons_self, ys,
        List.subset_append_left _ _, hx, first⟩
    · obtain ⟨t, ht, u, hu, ws, hsub, hx, h⟩ := ih hx
      exact ⟨t, List.mem_cons_of_mem _ ht, u, List.mem_cons_of_mem _ hu, ws,
        List.Subset.trans hsub (List.subset_append_right _ _), hx, h⟩

theorem LowersScripts.exists_source (h : LowersScripts ts xs us) (hu : u ∈ us) :
    ∃ t ∈ ts, ∃ ys : List Temp, ys ⊆ xs ∧ LowersAll t (t.ends false) ys u := by
  induction h with
  | nil => cases hu
  | @cons t v ts us ys zs first _ ih =>
    rcases List.mem_cons.mp hu with rfl | hu
    · exact ⟨t, List.mem_cons_self, ys, List.subset_append_left _ _, first⟩
    · obtain ⟨t, ht, ws, hsub, h⟩ := ih hu
      exact ⟨t, List.mem_cons_of_mem _ ht, ws,
        List.Subset.trans hsub (List.subset_append_right _ _), h⟩

theorem reserveAll_eq (a : Arena) (roots : List Ref) (g : Names) : reserveAll a roots g =
    ((a.below roots).filterMap fun i : NodeId => Names.nameAt? a i).foldl Names.reserve g := by
  induction roots generalizing g with
  | nil => rfl
  | cons r rs ih =>
    have hfirst : g.reserveIn a r = ((a.preorder r).filterMap fun i : NodeId =>
        Names.nameAt? a i).foldl Names.reserve g := by
      rw [Names.reserveIn, List.foldl_filterMap]
      congr 1
      funext g i
      cases Names.nameAt? a (some i) <;> rfl
    rw [Arena.below, List.flatMap_cons, List.filterMap_append, List.foldl_append, ← hfirst]
    exact ih _

end Lower

namespace Arena

open Lower NameSource

section
variable {a b : Arena} {ts us : List Grown} {xs : List Temp} {x : Temp} {R S : Entries}

theorem nodup_eraseDups (rs : List Ref) : rs.eraseDups.Nodup := by
  induction hn : rs.length using Nat.strong_induction_on generalizing rs with
  | _ n ih =>
    cases rs with
    | nil => simp
    | cons r rs =>
      have hlt : (rs.filter fun s => !s == r).length < n := by
        rw [← hn, List.length_cons]
        exact Nat.lt_succ_of_le (List.length_filter_le _ _)
      rw [List.eraseDups_cons, List.nodup_cons]
      exact ⟨by simp, ih _ hlt _ rfl⟩

theorem exists_listed {rs : List Ref} (hn : rs.Nodup) (hrs : ∀ r ∈ rs, r ∈ slots ts) :
    ∃ us vs, slots us = rs ∧ ts.Perm (us ++ vs) := by
  induction rs generalizing ts with
  | nil => exact ⟨[], ts, rfl, List.Perm.refl _⟩
  | cons r rs ih =>
    obtain ⟨hr, hmem⟩ := List.forall_mem_cons.mp hrs
    obtain ⟨hnot, hnodup⟩ := List.nodup_cons.mp hn
    obtain ⟨t, ht, rfl⟩ := mem_slots.mp hr
    obtain ⟨left, right, rfl⟩ := List.append_of_mem ht
    have hrest : ∀ r ∈ rs, r ∈ slots (left ++ right) := by
      intro r hr
      have hne : r ≠ some t.id := fun e => hnot (e ▸ hr)
      have hslot := hmem r hr
      simp only [slots_append, slots_cons, List.mem_append, List.mem_cons] at hslot ⊢
      tauto
    obtain ⟨us, vs, rfl, hperm⟩ := ih hnodup hrest
    exact ⟨t :: us, vs, rfl, List.perm_middle.trans (hperm.cons t)⟩

theorem mem_below_eraseDups {a : Arena} {rs : List Ref} {i : NodeId} : i ∈ a.below rs.eraseDups ↔
    i ∈ a.below rs := by
  simp [below]

theorem exists_site (hus : LowersScripts ts xs us) (hts : ∀ t ∈ ts, t.Is .script)
    (hold : b.Holds (entriesAll none ts + R)) (h : a.Holds (entriesAll none us + S))
    (hnodup : (xs.map Temp.name).Nodup) (hx : x ∈ xs) (hnew : x.name ∉ ts.flatMap names) :
    ∃ s : Site, s.Hosts b a (slots ts) (xs.map Temp.name).reverse x.name ∧
      s.declaration = x.declared := by
  -- the name is counted three times
  have hcount : mentionsAll x.name us = 3 := by
    have h0 : mentionsAll x.name ts = 0 := List.count_eq_zero_of_not_mem hnew
    have h1 : namesakes x.name xs = 1 := List.count_eq_one_of_mem hnodup (List.mem_map_of_mem hx)
    rw [hus.mentions, h0, h1]
  obtain ⟨t, ht, u, hu, ys, hsub, hxy, hlow⟩ := hus.exists_script hx
  obtain ⟨S, hS⟩ := holds_of_mem hu h
  obtain ⟨T, hT⟩ := holds_of_mem ht hold
  have hrow := hlow.row (nodup_endSet hT) (hts t ht) hxy
  obtain ⟨v, q, ⟨c, hc⟩, hv, hvsub, -⟩ := hS.shows.exists_lodged hrow
  obtain ⟨hstands, hin, hin', hmem, before, lets, after, hchildren, hlets⟩ :=
    hv.row ((nodup_ids_of_holds hS).sublist hvsub) hc
  have hbelow : ∀ i ∈ [x.binding, x.target, x.used], i ∈ a.below (slots us) := by
    rw [below_slots h]
    simp only [List.mem_cons, List.not_mem_nil, or_false]
    rintro i (rfl | rfl | rfl)
    · exact List.mem_flatMap.mpr ⟨u, hu, hvsub.subset hmem.1⟩
    · exact List.mem_flatMap.mpr ⟨u, hu, hvsub.subset hmem.2.1⟩
    · exact List.mem_flatMap.mpr ⟨u, hu, hvsub.subset hmem.2.2⟩
  have hperm := hstands.perm h hbelow hcount
  have honly := fun i => hstands.only (i := i) h hperm
  rw [hus.slots_eq] at hperm honly
  refine ⟨⟨v.id, c.id, x.declared, x.binding, x.assigned, x.target, x.used⟩,
    ⟨hperm, hstands.declares, hv.kind? ▸ hc.owner, ⟨before, lets, after, hchildren, fun r hr => ?_⟩,
      ?_, hstands.assigns, honly, hstands.reads,
    hin, hin'⟩, rfl⟩
  · obtain ⟨y, hy, d, n, rfl, hd⟩ := hlets r hr
    exact ⟨y.name, List.mem_reverse.mpr (List.mem_map_of_mem (hsub hy)), d, n, rfl, hd⟩
  · exact statement_of_owns hold ht hc.original

theorem exists_declared (hus : LowersScripts ts xs us) (hold : b.Holds (entriesAll none ts + R))
    (h : a.Holds (entriesAll none us + S)) {i : NodeId} (hi : i ∈ a.below (slots us))
    (hnew : b.size ≤ i) (hkind : a.isKind (some i) .letDecl = true) : ∃ x ∈ xs, x.declared = i := by
  rw [below_slots h] at hi
  obtain ⟨u, hu, hi⟩ := List.mem_flatMap.mp hi
  obtain ⟨t, ht, ys, hsub, hlow⟩ := hus.exists_source hu
  obtain ⟨S, hS⟩ := holds_of_mem hu h
  obtain ⟨T, hT⟩ := holds_of_mem ht hold
  obtain ⟨l, hl⟩ := exists_label hi
  obtain ⟨n, hn, rfl⟩ := (mem_nodes none).mp hl
  have hlet : n.kind = .letDecl := by
    have hnode : a.node? (some i) = some n := hS.shows _ hn
    simpa [isKind, kind?, hnode] using hkind
  rcases hlow.declared _ hl hlet with hold' | ⟨x, hx, hid⟩
  · have hlt : i < b.size := hT.lt_size (by simp [keys_entries, mem_ids_of_mem_nodes hold'])
    exact absurd hlt (Nat.not_lt.mpr hnew)
  · exact ⟨x, hsub hx, hid⟩

end

variable {a b : Arena} {sources : List String} {scripts roots : List Ref}

/-- The names that are handed out are new, and each of them is declared, kept and read where it
should be and stands nowhere else. Whatever is declared anew is one of them. -/
theorem temporaries_hygienic (names : Names) (options : Options)
    (hr : a.readAll sources = some (scripts, b)) (hroots : ∀ r ∈ roots, r ∈ scripts)
    (ht : options.target.level < Target.es2020.level) :
    ∃ report w, b.lower names options roots = (.ok report, w) ∧
      ∃ drawn, w.names.generated = drawn ++ names.generated ∧ drawn.Nodup ∧
        (∀ x ∈ drawn, names.isReserved x = false ∧
          (∀ i ∈ b.below roots, Names.nameAt? b (some i) ≠ some x) ∧
          ∃ s : Site, s.Hosts b w.arena roots.eraseDups drawn x) ∧
        ∀ i ∈ w.arena.below roots, b.size ≤ i → w.arena.isKind (some i) .letDecl = true →
          ∃ x ∈ drawn, ∃ j, w.arena.Declares x i j := by
  have hn : options.needsLowering .optionalChaining = true :=
    congrArg not (decide_eq_false (not_le.mpr ht))
  obtain ⟨us, R, rfl, hus, hall⟩ := readAll_is hr
  obtain ⟨ts, vs, hts, hperm⟩ :=
    exists_listed (nodup_eraseDups roots) fun r hr => hroots r (List.mem_eraseDups.mp hr)
  have hscripts : ∀ t ∈ ts, t.Is .script :=
    fun t ht => hus t (hperm.mem_iff.mpr (List.mem_append_left _ ht))
  have hold : b.Holds (entriesAll none ts + (entriesAll none vs + R)) := by
    rwa [entriesAll_perm hperm, entriesAll_append, add_assoc] at hall
  obtain ⟨report, w, hrun, -, xs, us, hus, ⟨ps, h⟩, hnames, hrest⟩ :=
    Lower.scripts_sound (w := { arena := b, names := names }) hn
      (fun t ht => ⟨(hscripts t ht).sound, kind_of_script (hscripts t ht)⟩) hts.symm hold
  dsimp only at hnames hrest
  rw [reserveAll_eq] at hnames hrest
  obtain ⟨hnodup, hfresh⟩ := Names.drawn_fresh xs.length
    (((b.below roots).filterMap fun i : NodeId => Names.nameAt? b i).foldl Names.reserve names)
  rw [← hnames] at hnodup hfresh
  have hsite : ∀ x ∈ xs, ∃ s : Site,
    s.Hosts b w.arena roots.eraseDups (xs.map Temp.name).reverse x.name ∧
      s.declaration = x.declared := by
    intro x hx
    have hnew := hfresh _ (List.mem_map_of_mem hx)
    rw [Names.isReserved_foldl_reserve] at hnew
    rw [← hts]
    refine exists_site hus hscripts hold h hnodup hx fun hname => hnew.1 ?_
    rw [← names_below hold, hts] at hname
    obtain ⟨i, hi, hname⟩ := List.mem_filterMap.mp hname
    exact List.mem_filterMap.mpr ⟨i, mem_below_eraseDups.mp hi, hname⟩
  refine ⟨report, w, hrun, (xs.map Temp.name).reverse, ?_, List.nodup_reverse.mpr hnodup,
    fun s hs => ?_, fun i hi hnew hlet => ?_⟩
  · rw [hrest, Names.generated_after, Names.generated_foldl_reserve, hnames]
  · obtain ⟨x, hx, rfl⟩ := List.mem_map.mp (List.mem_reverse.mp hs)
    have hnew := hfresh _ (List.mem_map_of_mem hx)
    rw [Names.isReserved_foldl_reserve] at hnew
    refine ⟨hnew.2, fun i hi hname => hnew.1 (List.mem_filterMap.mpr ⟨i, hi, hname⟩), ?_⟩
    exact (hsite x hx).imp fun s hs => hs.1
  · rw [← mem_below_eraseDups, ← hts, ← hus.slots_eq] at hi
    obtain ⟨x, hx, rfl⟩ := exists_declared hus hold h hi hnew hlet
    obtain ⟨s, hs, hid⟩ := hsite x hx
    exact ⟨x.name, List.mem_reverse.mpr (List.mem_map_of_mem hx), s.binding, hid ▸ hs.declares⟩

/-- One of two scripts is lowered, and listed twice. A name that stands in the other one may be
taken. -/
theorem temporaries_hygienic_sample :
    ∃ r s b report w, ({} : Arena).readAll ["o.m?.(_c);", "_d;"] = some ([r, s], b) ∧
    (∀ t ∈ [r, r], t ∈ [r, s]) ∧ Target.es5.level < Target.es2020.level ∧
    b.lower { reserved := ["_a"], generated := ["_b"] } { target := .es5 } [r, r] =
      (.ok report, w) ∧
    w.names.generated = ["_e", "_d"] ++ ["_b"] ∧
    (∀ x ∈ ["_e", "_d"],
      ({ reserved := ["_a"], generated := ["_b"] } : Names).isReserved x = false ∧
      (∀ i ∈ b.below [r, r], Names.nameAt? b (some i) ≠ some x) ∧
      ∃ s : Site, s.Hosts b w.arena [r] ["_e", "_d"] x) ∧
    ∀ i ∈ w.arena.below [r, r], b.size ≤ i → w.arena.isKind (some i) .letDecl = true →
      ∃ x ∈ ["_e", "_d"], ∃ j, w.arena.Declares x i j := by
  have hread : ∃ scripts b, ({} : Arena).readAll ["o.m?.(_c);", "_d;"] = some (scripts, b) ∧
      scripts = [some 5, some 8] ∧
      (b.lower ({ reserved := ["_a"], generated := ["_b"] } : Names) { target := .es5 }
        [some 5, some 5]).2.names.generated = ["_e", "_d"] ++ ["_b"] :=
    exists_of_readAll (by decide +kernel)
  obtain ⟨_, b, hr, rfl, hnames⟩ := hread
  have hroots : ∀ t ∈ [some 5, some 5], t ∈ [some 5, some 8] := by simp
  obtain ⟨report, w, hrun, drawn, hdrawn, -, h⟩ :=
    temporaries_hygienic { reserved := ["_a"], generated := ["_b"] } { target := .es5 }
      hr hroots (by decide)
  rw [hrun] at hnames
  obtain rfl : drawn = ["_e", "_d"] := List.append_cancel_right (hdrawn.symm.trans hnames)
  exact ⟨some 5, some 8, b, report, w, hr, hroots, by decide, hrun, hnames, h⟩

end Arena

end ChainLowering
