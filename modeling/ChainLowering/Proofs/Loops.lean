import ChainLowering.Proofs.Descent
import ChainLowering.Proofs.Edits
import ChainLowering.Proofs.Forest

/-!
# Loops

A root counts as detached, so an edit may put it below itself, and then walks
upwards have no end. Where no edit does that, a store that began empty is a
forest at all times, and the walks end.
-/

namespace ChainLowering

open Grown
open Relation (ReflTransGen TransGen)

/-- The call does not put a node below itself or a node that is below it. -/
def Edit.isApart (e : Edit) (a : Arena) : Bool :=
  match e.insertion? a with
  | some (c, p) => decide (c ∉ a.ancestors p)
  | none => true

namespace Arena

variable {a b m : Arena} {c d i j p : NodeId} {cs is : List NodeId} {K : Context}
    {t : Grown} {R : Entries}

/-! ## Links without loops -/

/-- The node `i` is the parent of the node `j`. -/
def Owns (a : Arena) (i j : NodeId) : Prop := a.parent (some j) = some i

/-- No node is below itself. -/
def Acyclic (a : Arena) : Prop := ∀ i, ¬ TransGen a.Owns i i

theorem lists_iff_mem : a.Lists i j ↔ some j ∈ a.children (some i) := by
  rw [Lists, children]
  cases a.node? (some i) <;> simp

theorem parent_eq_some : a.parent (some j) = some i ↔
    ∃ m, a.node? (some j) = some m ∧ m.parent = some i :=
  Option.bind_eq_some_iff

theorem Consistent.forest (h : Consistent a) (hacyclic : Acyclic a) : Forest a where
  child {i n c} hn hc := by
    have hmem : c ∈ a.children (some i) := by rwa [children, hn]
    obtain ⟨j, rfl, hj⟩ := h.child hmem
    obtain ⟨m, hm, hp⟩ := parent_eq_some.mp hj
    exact ⟨j, m, rfl, hm, hp⟩
  parent hm hp := lists_iff_mem.mpr (h.parent (parent_eq_some.mpr ⟨_, hm, hp⟩))
  nodup {i n} hn := by
    have := h.nodup i
    rwa [children, hn] at this
  acyclic i hi := by
    refine hacyclic i (TransGen.mono (fun j k hjk => ?_) _ _ hi)
    obtain ⟨-, -, hk⟩ := h.child (lists_iff_mem.mp hjk)
    exact hk

theorem Acyclic.mono (h : Acyclic a) (hb : ∀ {i j}, b.Owns i j → a.Owns i j) : Acyclic b :=
  fun i hi => h i (TransGen.mono (fun _ _ => hb) _ _ hi)

theorem owns_of_parts (h : Parts a b c) (hb : b.Owns i j) : a.Owns i j := by
  rw [Owns, h.parent] at hb
  split_ifs at hb
  exact hb

theorem Acyclic.adopts (h : Acyclic a) (ha : Consistent a) (hb : Adopts a b cs) : Acyclic b := by
  have hnew : ∀ {i}, ¬ a.Owns a.size i := by
    intro i hi
    exact lt_irrefl _ (lt_size_of_parent ha hi)
  have hroot : ∀ {i}, ¬ b.Owns i a.size := by
    intro i hi
    rw [Owns, hb.parent, parent_eq_none (Nat.le_refl _)] at hi
    split_ifs at hi with hmem
    exact lt_irrefl _ (hb.lt_size _ hmem)
  have hedge : ∀ {i j}, b.Owns i j → i = a.size ∨ a.Owns i j := by
    intro i j hij
    rw [Owns, hb.parent] at hij
    split_ifs at hij
    · exact .inl (Option.some.inj hij).symm
    · exact .inr hij
  have hpath : ∀ {i j}, TransGen b.Owns i j → i = a.size ∨ TransGen a.Owns i j := by
    intro i j hij
    induction hij with
    | single hj => exact (hedge hj).imp_right .single
    | tail hij hk ih =>
      rcases hedge hk with rfl | hk
      · obtain ⟨k, -, hk⟩ := TransGen.tail'_iff.mp hij
        exact absurd hk hroot
      · exact ih.imp_right (·.tail hk)
  intro i hi
  rcases hpath hi with rfl | hi'
  · obtain ⟨k, -, hk⟩ := TransGen.tail'_iff.mp hi
    exact hroot hk
  · exact h i hi'

theorem Acyclic.joins (h : Acyclic a) (hb : Joins a b p c) (hcp : ¬ ReflTransGen a.Owns c p) :
    Acyclic b := by
  have hpath : ∀ {i j}, TransGen b.Owns i j → TransGen a.Owns i j ∨ ReflTransGen a.Owns i p ∧
      ReflTransGen a.Owns c j := by
    intro i j hij
    have hedge : ∀ {i j}, b.Owns i j → a.Owns i j ∨ i = p ∧ j = c := by
      intro i j hij
      rw [Owns, hb.parent] at hij
      split_ifs at hij with hj
      · exact .inr ⟨(Option.some.inj hij).symm, hj⟩
      · exact .inl hij
    induction hij with
    | single hj =>
      rcases hedge hj with hj | ⟨rfl, rfl⟩
      · exact .inl (.single hj)
      · exact .inr ⟨.refl, .refl⟩
    | tail _ hk ih =>
      rcases hedge hk with hk | ⟨rfl, rfl⟩
      · exact ih.imp (·.tail hk) fun hij => ⟨hij.1, hij.2.tail hk⟩
      · exact .inr ⟨ih.elim TransGen.to_reflTransGen And.left, .refl⟩
  intro i hi
  rcases hpath hi with hi | ⟨hip, hci⟩
  · exact h i hi
  · exact hcp (hci.trans hip)

theorem Acyclic.changes (h : Acyclic a) (ha : Consistent a) (hb : ReflTransGen Change a b) :
    Acyclic b := by
  induction hb with
  | refl => exact h
  | tail hm hb ih =>
    cases hb with
    | same hb => exact ih.mono fun hij => by rwa [Owns, hb.parent] at hij
    | adopts hb => exact ih.adopts (ha.changes hm) hb
    | parts hb => exact ih.mono (owns_of_parts hb)

/-! ## What edits keep -/

theorem mem_ancestors_self : i ∈ a.ancestors (some i) := by
  simp [ancestors, ancestorsTo]

theorem mem_ancestors (h : Forest a) (hij : ReflTransGen a.Owns i j) :
    i ∈ a.ancestors (some j) := by
  induction hij with
  | refl => exact mem_ancestors_self
  | tail _ hk ih =>
    -- the walk from the parent ends before its bound, so one step less is enough for it
    obtain ⟨m, hm, hp⟩ := parent_eq_some.mp hk
    obtain ⟨n, hn, -⟩ := h.parent hm hp
    obtain ⟨K, u, R, rfl, hR⟩ := h.exists_hole hn
    rw [ancestors_hole hR, ← ancestorsTo_hole a.size hR.length_le hR] at ih
    rw [ancestors, ancestorsTo, hk]
    exact List.mem_cons_of_mem _ ih

theorem Acyclic.call {e : Edit} (h : Acyclic a) (ha : Consistent a) (he : e.isApart a = true)
    (hb : e.call? a = some b) :
    Acyclic b := by
  obtain ⟨hops, hb⟩ := Edit.call?_eq_some.mp hb
  cases hi : e.insertion? a with
  | none => exact h.changes ha (apply_changes ha hops hi hb)
  | some x =>
    obtain ⟨c, r⟩ := x
    obtain ⟨m, p, rfl, hm, hjoins⟩ := apply_joins ha hops hi hb
    have hcp : ¬ ReflTransGen a.Owns c p := by
      rw [Edit.isApart, hi] at he
      exact fun hcp => of_decide_eq_true he (mem_ancestors (ha.forest h) hcp)
    rcases hm with rfl | ⟨d, hparts⟩
    · exact h.joins hjoins hcp
    · refine (h.mono (owns_of_parts hparts)).joins hjoins fun hmp => hcp ?_
      exact ReflTransGen.mono (fun _ _ => owns_of_parts hparts) _ _ hmp

theorem forest_run {es : List Edit} (h : Edit.run? Edit.isApart es {} = some a) : Forest a := by
  have hboth : Consistent a ∧ Acyclic a := by
    refine Edit.run?_keeps (P := fun a => Consistent a ∧ Acyclic a) ?_ ⟨.empty, ?_⟩ h
    · exact fun ha he hb => ⟨ha.1.call hb, ha.2.call ha.1 he hb⟩
    · intro i hi
      obtain ⟨k, -, hk⟩ := TransGen.tail'_iff.mp hi
      cases hk
  exact hboth.1.forest hboth.2

/-! ## Walks that no bound cuts off -/

/-- A walk upwards that comes to an end, with the nodes on it. -/
inductive Climbs (a : Arena) : Ref → List NodeId → Prop
  | top : Climbs a none []
  | up {i : NodeId} {is : List NodeId} (h : Climbs a (a.parent (some i)) is) :
      Climbs a (some i) (i :: is)

/-- A walk over all that is below the slots of a work list that comes to an end, with the nodes it
meets. -/
inductive Visits (a : Arena) : List Ref → List NodeId → Prop
  | done : Visits a [] []
  | skip {r : Ref} {todo : List Ref} {is : List NodeId} (hr : a.node? r = none)
      (h : Visits a todo is) : Visits a (r :: todo) is
  | meet {i : NodeId} {n : Node} {todo : List Ref} {is : List NodeId}
      (hn : a.node? (some i) = some n) (h : Visits a (n.children ++ todo) is) :
      Visits a (some i :: todo) (i :: is)

theorem Climbs.reaches_root (h : Climbs a (some i) is) :
    ∃ n j, a.parent^[n] (some i) = some j ∧ a.parent (some j) = none := by
  generalize hr : some i = r at h
  induction h generalizing i with
  | top => cases hr
  | up h ih =>
    obtain rfl := Option.some.inj hr
    cases hp : a.parent (some i) with
    | none => exact ⟨0, i, rfl, hp⟩
    | some j =>
      obtain ⟨n, k, hk, hroot⟩ := ih hp.symm
      exact ⟨n + 1, k, by rw [Function.iterate_succ_apply, hk], hroot⟩

theorem climbs_hole (h : a.Holds ((plug K t).entries none + R)) :
    Climbs a (some t.id) (t.id :: K.map Frame.id) := by
  induction K generalizing t with
  | nil =>
    have hp : a.parent (some t.id) = none := h.parent_hole
    exact .up (hp ▸ .top)
  | cons f K ih =>
    have hp : a.parent (some t.id) = some f.id := h.parent_hole
    exact .up (hp ▸ ih (t := f.fill t) h)

theorem visits_slots {ts : List Grown}
    (ht : ∀ t ∈ ts, ∀ todo is, Visits a todo is → Visits a (some t.id :: todo) (t.ids ++ is))
    {todo : List Ref} (h : Visits a todo is) :
    Visits a (slots ts ++ todo) (ts.flatMap ids ++ is) := by
  induction ts with
  | nil => exact h
  | cons t ts ih =>
    rw [slots_cons, List.cons_append, List.flatMap_cons, List.append_assoc]
    exact ht t List.mem_cons_self _ _ (ih fun u hu => ht u (List.mem_cons_of_mem _ hu))

theorem visits_tree {r : Ref} (ht : Shows a r t) {todo : List Ref} (h : Visits a todo is) :
    Visits a (some t.id :: todo) (t.ids ++ is) := by
  induction t generalizing r todo is with
  | node i l ts ih =>
    rw [ids_node, List.cons_append]
    exact .meet ht.root (visits_slots (fun u hu _ _ => ih u hu (ht.child hu)) h)

theorem Forest.walks (h : Forest a) (hi : i < a.size) :
    Climbs a (some i) (a.ancestors (some i)) ∧ Visits a [some i] (a.preorder (some i)) := by
  obtain ⟨n, hn⟩ := Option.isSome_iff_exists.mp (isSome_node?.mpr hi)
  obtain ⟨K, u, R, rfl, hR⟩ := h.exists_hole hn
  have hu : a.Holds (u.entries (owner K) + (contextEntries K u.id + R)) := by
    refine hR.of_eq ?_
    rw [entries_plug]
    abel
  rw [ancestors_hole hR, preorder_tree hu]
  refine ⟨climbs_hole hR, ?_⟩
  simpa using visits_tree hu.shows .done

/-- Where no call puts a node below itself, parents lead from any node to a root, and the walks end
that look for what encloses a node and for what is below it. -/
theorem walks_end {es : List Edit} (h : Edit.run? Edit.isApart es {} = some a) (hi : i < a.size) :
    (∃ n j, a.parent^[n] (some i) = some j ∧ a.parent (some j) = none) ∧
      (∃ is, Climbs a (some i) is ∧
        a.enclosingStatement? (some i) = is.find? (fun j : NodeId => a.isStatement j) ∧
        a.enclosingScript? (some i) = is.find? (fun j : NodeId => a.isKind j .script) ∧
        a.enclosingScope? (some i) = is.find? fun j : NodeId => (a.kind? j).any Kind.isScope) ∧
      Visits a [some i] (a.preorder (some i)) := by
  obtain ⟨hup, hdown⟩ := (forest_run h).walks hi
  exact ⟨hup.reaches_root, ⟨_, hup, rfl, rfl, rfl⟩, hdown⟩

theorem walks_end_sample : ∃ a, Edit.run? Edit.isApart sampleEdits {} = some a ∧ 0 < a.size ∧
    (∃ n j, a.parent^[n] (some 0) = some j ∧ a.parent (some j) = none) ∧
      (∃ is, Climbs a (some 0) is ∧
        a.enclosingStatement? (some 0) = is.find? (fun j : NodeId => a.isStatement j) ∧
        a.enclosingScript? (some 0) = is.find? (fun j : NodeId => a.isKind j .script) ∧
        a.enclosingScope? (some 0) = is.find? fun j : NodeId => (a.kind? j).any Kind.isScope) ∧
      Visits a [some 0] (a.preorder (some 0)) := by
  obtain ⟨a, ha⟩ : ∃ a, Edit.run? Edit.isApart sampleEdits {} = some a :=
    Option.isSome_iff_exists.mp (by decide +kernel)
  have hsize : 0 < a.size := by
    have : (Edit.run? Edit.isApart sampleEdits {}).map size = some 12 := by decide +kernel
    rw [ha] at this
    exact Option.some.inj this ▸ by decide
  exact ⟨a, ha, hsize, walks_end ha hsize⟩

/-- A root may be put below itself, and no walk upwards from it has an end. -/
theorem not_reaches_root : ¬ ∀ es a, Edit.run? Edit.free es {} = some a → ∀ i < a.size,
    ∃ n j, a.parent^[n] (some i) = some j ∧ a.parent (some j) = none := by
  intro hall
  obtain ⟨a, ha⟩ : ∃ a, Edit.run? Edit.free [.addNode { kind := .block } [], .addToBack 0 0] {} =
      some a := ⟨_, rfl⟩
  obtain rfl := Option.some.inj ha
  obtain ⟨n, j, hj, hroot⟩ := hall _ _ ha 0 (by decide)
  rw [Function.iterate_fixed rfl] at hj
  cases hj
  cases hroot

end Arena

end ChainLowering
