import Mathlib.Data.List.Nodup
import Mathlib.Data.Option.Basic
import Mathlib.Logic.Relation
import Mathlib.Order.Basic
import ChainLowering.Proofs.EditSound

/-!
# Links of a store that is edited

Whatever is called on a store that began empty, parents and children name each
other, as long as no call faults. An edit changes the links of few nodes: it
takes one out of its place, puts a detached one into a place, or adds a node
that owns detached ones.
-/

namespace ChainLowering

namespace Arena

/-- Parents and children name each other. -/
structure Consistent (a : Arena) : Prop where
  /-- What a node lists is a node that has it as parent. -/
  child : ∀ {p r}, r ∈ a.children (some p) → ∃ c, r = some c ∧ a.parent r = some p
  parent : ∀ {c p}, a.parent (some c) = some p → some c ∈ a.children (some p)
  nodup : ∀ p, (a.children (some p)).Nodup

/-! ## Changes of links -/

structure SameLinks (a b : Arena) : Prop where
  parent : ∀ r, b.parent r = a.parent r
  children : ∀ r, b.children r = a.children r

/-- A node is taken out of its place. -/
structure Parts (a b : Arena) (c : NodeId) : Prop where
  parent : ∀ j, b.parent (some j) = if j = c then none else a.parent (some j)
  children : ∀ p, b.children (some p) = (a.children (some p)).erase (some c)

/-- A detached node is put among the children of a node. -/
structure Joins (a b : Arena) (p c : NodeId) : Prop where
  loose : a.parent (some c) = none
  parent : ∀ j, b.parent (some j) = if j = c then some p else a.parent (some j)
  place : ∃ l r, a.children (some p) = l ++ r ∧ b.children (some p) = l ++ some c :: r
  children : ∀ q ≠ p, b.children (some q) = a.children (some q)

/-- A node is added and owns detached ones. -/
structure Adopts (a b : Arena) (cs : List NodeId) : Prop where
  lt_size : ∀ c ∈ cs, c < a.size
  loose : ∀ c ∈ cs, a.parent (some c) = none
  nodup : cs.Nodup
  parent : ∀ j, b.parent (some j) = if j ∈ cs then some a.size else a.parent (some j)
  children : ∀ p, b.children (some p) = if p = a.size then cs.map some else a.children (some p)

variable {a b m : Arena} {c p i : NodeId} {cs : List NodeId} {r : Ref}

theorem node?_eq_none (h : a.size ≤ i) : a.node? (some i) = none := Array.getElem?_eq_none h

theorem isSome_node? : (a.node? (some i)).isSome = true ↔ i < a.size := by
  simp [node?, size, Array.getElem?_eq_some_iff, Option.isSome_iff_exists]

theorem children_eq_nil (h : a.size ≤ i) : a.children (some i) = [] := by
  rw [children, node?_eq_none h]

theorem parent_eq_none (h : a.size ≤ i) : a.parent (some i) = none := by
  rw [parent, node?_eq_none h]
  rfl

namespace Consistent

theorem empty : Consistent {} where
  child h := by cases h
  parent h := by cases h
  nodup _ := List.nodup_nil

theorem sameLinks (h : Consistent a) (hb : SameLinks a b) : Consistent b where
  child hr := by
    rw [hb.children] at hr
    rw [hb.parent]
    exact h.child hr
  parent hc := by
    rw [hb.parent] at hc
    rw [hb.children]
    exact h.parent hc
  nodup p := hb.children _ ▸ h.nodup p

theorem parts (h : Consistent a) (hb : Parts a b c) : Consistent b where
  child {p r} hr := by
    rw [hb.children] at hr
    obtain ⟨j, rfl, hj⟩ := h.child (List.mem_of_mem_erase hr)
    have hne : j ≠ c := by
      rintro rfl
      exact (h.nodup p).not_mem_erase hr
    exact ⟨j, rfl, by rw [hb.parent, if_neg hne, hj]⟩
  parent {j p} hj := by
    rw [hb.parent] at hj
    split_ifs at hj with hne
    rw [hb.children]
    exact (List.mem_erase_of_ne fun e => hne (Option.some.inj e)).mpr (h.parent hj)
  nodup p := hb.children p ▸ (h.nodup p).erase _

theorem joins (h : Consistent a) (hb : Joins a b p c) : Consistent b := by
  obtain ⟨l, r, ha, hplace⟩ := hb.place
  -- a node without a parent is not listed anywhere yet
  have hnot : ∀ q, some c ∉ a.children (some q) := by
    intro q hq
    obtain ⟨-, -, hc⟩ := h.child hq
    rw [hb.loose] at hc
    cases hc
  refine ⟨?_, ?_, ?_⟩
  · intro q s hs
    by_cases hsc : s = some c
    · subst hsc
      refine ⟨c, rfl, ?_⟩
      rw [hb.parent, if_pos rfl]
      by_contra hq
      rw [hb.children q fun e => hq (congrArg some e.symm)] at hs
      exact hnot q hs
    · have hold : s ∈ a.children (some q) := by
        by_cases hq : q = p
        · subst hq
          rw [hplace, List.mem_append, List.mem_cons] at hs
          rw [ha, List.mem_append]
          exact hs.imp_right fun hs => hs.resolve_left hsc
        · rwa [hb.children q hq] at hs
      obtain ⟨j, rfl, hj⟩ := h.child hold
      exact ⟨j, rfl, by rw [hb.parent, if_neg fun e => hsc (congrArg some e), hj]⟩
  · intro j q hj
    rw [hb.parent] at hj
    split_ifs at hj with hjc
    · obtain rfl := Option.some.inj hj
      rw [hplace, hjc]
      simp
    · have hold := h.parent hj
      by_cases hq : q = p
      · subst hq
        rw [ha, List.mem_append] at hold
        rw [hplace, List.mem_append, List.mem_cons]
        exact hold.imp_right .inr
      · rwa [hb.children q hq]
  · intro q
    by_cases hq : q = p
    · subst hq
      rw [hplace, List.nodup_middle, List.nodup_cons, ← ha]
      exact ⟨hnot q, h.nodup q⟩
    · rw [hb.children q hq]
      exact h.nodup q

theorem adopts (h : Consistent a) (hb : Adopts a b cs) : Consistent b where
  child {p r} hr := by
    rw [hb.children] at hr
    split_ifs at hr with hp
    · obtain ⟨c, hc, rfl⟩ := List.mem_map.mp hr
      exact ⟨c, rfl, by rw [hb.parent, if_pos hc, hp]⟩
    · obtain ⟨j, rfl, hj⟩ := h.child hr
      refine ⟨j, rfl, ?_⟩
      rw [hb.parent, if_neg, hj]
      intro hmem
      rw [hb.loose j hmem] at hj
      cases hj
  parent {j p} hj := by
    rw [hb.parent] at hj
    rw [hb.children]
    split_ifs at hj with hmem
    · obtain rfl := Option.some.inj hj
      rw [if_pos rfl]
      exact List.mem_map_of_mem hmem
    · have hold := h.parent hj
      rw [if_neg]
      · exact hold
      · rintro rfl
        rw [children_eq_nil (Nat.le_refl _)] at hold
        cases hold
  nodup p := by
    rw [hb.children]
    split_ifs
    · exact hb.nodup.map (Option.some_injective _)
    · exact h.nodup p

end Consistent

/-! ## What the edits change -/

theorem node?_modify (a : Arena) (r : Ref) (f : Node → Node) (q : Ref) :
    (a.modify r f).node? q = if q = r then (a.node? q).map f else a.node? q := by
  cases r with
  | none => cases q <;> simp [modify, node?]
  | some i =>
    cases q with
    | none => simp [modify, node?]
    | some j =>
      simp only [modify, node?, Option.bind_some, Array.getElem?_modify, Option.some.injEq,
        eq_comm (a := j)]

@[simp] theorem size_modify (a : Arena) (r : Ref) (f : Node → Node) :
    (a.modify r f).size = a.size := by
  cases r <;> simp [modify, size]

@[simp] theorem parent_modify_children (a : Arena) (r : Ref) (g : List Ref → List Ref) (q : Ref) :
    (a.modify r fun n => { n with children := g n.children }).parent q = a.parent q := by
  rw [parent, parent, node?_modify]
  split_ifs
  · cases a.node? q <;> rfl
  · rfl

@[simp] theorem children_modify_parent (a : Arena) (r v q : Ref) :
    (a.modify r fun n => { n with parent := v }).children q = a.children q := by
  rw [children, children, node?_modify]
  split_ifs
  · cases a.node? q <;> rfl
  · rfl

theorem parent_modify_parent (hi : i < a.size) (v q : Ref) :
    (a.modify (some i) fun n => { n with parent := v }).parent q =
      if q = some i then v else a.parent q := by
  rw [parent, parent, node?_modify]
  split_ifs with hq
  · obtain ⟨n, hn⟩ := Option.isSome_iff_exists.mp (isSome_node?.mpr hi)
    rw [hq, hn]
    rfl
  · rfl

theorem children_modify_children (hi : i < a.size) (g : List Ref → List Ref) (q : Ref) :
    (a.modify (some i) fun n => { n with children := g n.children }).children q =
      if q = some i then g (a.children (some i)) else a.children q := by
  rw [children, children, children, node?_modify]
  split_ifs with hq
  · obtain ⟨n, hn⟩ := Option.isSome_iff_exists.mp (isSome_node?.mpr hi)
    rw [hq, hn]
    rfl
  · rfl

theorem sameLinks_modify (a : Arena) (r : Ref) (f : Node → Node) (hp : ∀ n, (f n).parent = n.parent)
    (hc : ∀ n, (f n).children = n.children) : SameLinks a (a.modify r f) := by
  constructor
  · intro q
    rw [parent, parent, node?_modify]
    split_ifs
    · cases a.node? q <;> simp [hp]
    · rfl
  · intro q
    rw [children, children, node?_modify]
    split_ifs
    · cases a.node? q <;> simp [hc]
    · rfl

theorem setParent_ok {v : Ref} (hi : i < a.size) (h : a.setParent (some i) v = .ok b) :
    b = a.modify (some i) (fun n => { n with parent := v }) ∧
      (a.parent (some i) = none ∨ v = none) := by
  obtain ⟨n, hn⟩ := Option.isSome_iff_exists.mp (isSome_node?.mpr hi)
  rw [setParent, hn] at h
  dsimp only at h
  split_ifs at h with hp
  refine ⟨(Except.ok.inj h).symm, ?_⟩
  rw [parent, hn]
  cases hnp : n.parent <;> cases v <;> simp_all

theorem size_setParent {r v : Ref} (h : a.setParent r v = .ok b) : b.size = a.size := by
  rw [setParent] at h
  split at h
  · rw [← Except.ok.inj h]
  · split_ifs at h
    rw [← Except.ok.inj h, size_modify]

theorem size_replaceWith {old new : Ref} (h : a.replaceWith old new = .ok b) : b.size = a.size := by
  rw [replaceWith] at h
  split_ifs at h
  rw [size_setParent h, size_modify, size_modify]

theorem lt_size_of_parent (h : Consistent a) (hp : a.parent (some c) = some p) : p < a.size := by
  rcases Nat.lt_or_ge p a.size with hlt | hge
  · exact hlt
  · have := h.parent hp
    rw [children_eq_nil hge] at this
    cases this

theorem detach_parts (h : Consistent a) (hc : c < a.size) : Parts a (a.detach (some c)) c := by
  constructor
  · intro j
    rw [detach, parent_modify_parent (by rwa [size_modify])]
    rw [parent_modify_children a _ (·.erase (some c))]
    simp only [Option.some.injEq]
  · intro q
    rw [detach, children_modify_parent]
    -- in no other list than that of its parent the node can stand
    have hnot : a.parent (some c) ≠ some q →
        (a.children (some q)).erase (some c) = a.children (some q) := by
      intro hq
      refine List.erase_of_not_mem fun hmem => hq ?_
      obtain ⟨-, -, hp⟩ := h.child hmem
      exact hp
    cases hp : a.parent (some c) with
    | none => exact (hnot (by rw [hp]; exact (Option.some_ne_none q).symm)).symm
    | some p =>
      rw [children_modify_children (lt_size_of_parent h hp) (·.erase (some c))]
      by_cases hq : q = p
      · subst hq
        rw [if_pos rfl]
      · rw [if_neg fun e => hq (Option.some.inj e), hnot]
        rw [hp]
        exact fun e => hq (Option.some.inj e).symm

theorem replaceWith_joins {old new : NodeId} (h : Consistent a) (hold : old < a.size)
    (hnew : new < a.size) (hb : a.replaceWith (some old) (some new) = .ok b) :
    ∃ p, a.parent (some old) = some p ∧ Parts a (a.detach (some old)) old ∧
      Joins (a.detach (some old)) b p new := by
  rw [replaceWith] at hb
  dsimp only at hb
  split_ifs at hb with hdet hmem
  rw [isDetached, Option.not_isNone, Bool.not_eq_true, Option.isSome_eq_false_iff,
    Option.isNone_iff_eq_none] at hdet
  cases hp : a.parent (some old) with
  | none =>
    -- where there is no parent, the node cannot be among its children
    rw [hp] at hmem
    exact absurd hmem (by simp [children, node?])
  | some p =>
    rw [hp] at hmem
    rw [hp] at hb
    have hps := lt_size_of_parent h hp
    have hparts := detach_parts h hold
    have hne : new ≠ old := by
      rintro rfl
      rw [hdet] at hp
      cases hp
    obtain ⟨rfl, -⟩ := setParent_ok (by rwa [size_modify, size_modify]) hb
    refine ⟨p, rfl, hparts, ?_, ?_, ?_, ?_⟩
    · rw [hparts.parent, if_neg hne, hdet]
    · intro j
      rw [parent_modify_parent (by rwa [size_modify, size_modify]),
        parent_modify_parent (by rwa [size_modify]),
        parent_modify_children a _ (·.replace (some old) (some new)), hparts.parent]
      simp only [Option.some.injEq]
    · obtain ⟨l, r, hl, hnot⟩ := List.eq_append_cons_of_mem hmem
      refine ⟨l, r, ?_, ?_⟩
      · rw [hparts.children, hl, List.erase_append_right _ hnot, List.erase_cons_head]
      · rw [children_modify_parent, children_modify_parent,
          children_modify_children hps (·.replace (some old) (some new)), if_pos rfl, hl,
          List.replace_append_right hnot, List.replace_cons_self]
    · intro q hq
      rw [children_modify_parent, children_modify_parent,
        children_modify_children hps (·.replace (some old) (some new)), if_neg fun e =>
        hq (Option.some.inj e), hparts.children, List.erase_of_not_mem]
      intro hmem
      obtain ⟨-, -, hpq⟩ := h.child hmem
      rw [hp] at hpq
      exact hq (Option.some.inj hpq).symm

theorem joins_of_setParent {g : List Ref → List Ref} (hps : p < a.size) (hc : c < a.size)
    (hdet : a.parent (some c) = none)
    (hg : ∃ l r, a.children (some p) = l ++ r ∧ g (a.children (some p)) = l ++ some c :: r)
    (hb : (a.modify (some p) fun n => { n with children := g n.children }).setParent (some c)
      (some p) = .ok b) :
    Joins a b p c := by
  obtain ⟨rfl, -⟩ := setParent_ok (by rwa [size_modify]) hb
  refine ⟨hdet, ?_, ?_, ?_⟩
  · intro j
    rw [parent_modify_parent (by rwa [size_modify]), parent_modify_children a _ g]
    simp only [Option.some.injEq]
  · obtain ⟨l, r, hl, hr⟩ := hg
    refine ⟨l, r, hl, ?_⟩
    rw [children_modify_parent, children_modify_children hps g, if_pos rfl, hr]
  · intro q hq
    rw [children_modify_parent, children_modify_children hps g,
      if_neg fun e => hq (Option.some.inj e)]

theorem addToFront_joins (hp : p < a.size) (hc : c < a.size)
    (hb : a.addToFront (some p) (some c) = .ok b) :
    Joins a b p c := by
  rw [addToFront] at hb
  split_ifs at hb with hdet hnode
  · rw [← Option.not_isSome, isSome_node?.mpr hp] at hnode
    exact absurd hnode (by simp)
  · exact joins_of_setParent (g := fun cs => some c :: cs) hp hc (by simpa [isDetached] using hdet)
      ⟨[], _, rfl, rfl⟩ hb

theorem addToBack_joins (hp : p < a.size) (hc : c < a.size)
    (hb : a.addToBack (some p) (some c) = .ok b) :
    Joins a b p c := by
  rw [addToBack] at hb
  split_ifs at hb with hdet hnode
  · rw [← Option.not_isSome, isSome_node?.mpr hp] at hnode
    exact absurd hnode (by simp)
  · exact joins_of_setParent (g := fun cs => cs ++ [some c])
      hp hc (by simpa [isDetached] using hdet)
      ⟨_, [], (List.append_nil _).symm, rfl⟩ hb

theorem addBefore_joins {new old : NodeId} (h : Consistent a) (hnew : new < a.size)
    (hb : a.addBefore (some new) (some old) = .ok b) :
    ∃ p, a.parent (some old) = some p ∧ Joins a b p new := by
  rw [addBefore] at hb
  split_ifs at hb with hdet hmem
  cases hp : a.parent (some old) with
  | none =>
    rw [hp] at hmem
    exact absurd hmem (by simp [children, node?])
  | some p =>
    rw [hp] at hmem hb
    refine ⟨p, rfl,
      joins_of_setParent (g := fun cs => cs.insertIdx (cs.idxOf (some old)) (some new))
        (lt_size_of_parent h hp)
      hnew (by simpa [isDetached] using hdet) ?_ hb⟩
    obtain ⟨l, r, hl, hnot⟩ := List.eq_append_cons_of_mem hmem
    exact ⟨l, some old :: r, hl, by rw [hl]; exact insertIdx_idxOf hnot⟩

theorem setParents_ok (hcs : ∀ c ∈ cs, c < a.size)
    (h : ((cs.map some).foldlM (fun a c => a.setParent c (some i)) a : Edited Arena) = .ok b) :
    (∀ c ∈ cs, a.parent (some c) = none) ∧ cs.Nodup ∧
      (∀ j, b.parent (some j) = if j ∈ cs then some i else a.parent (some j)) ∧
      (∀ r, b.children r = a.children r) ∧ b.size = a.size := by
  induction cs generalizing a with
  | nil =>
    obtain rfl : a = b := Except.ok.inj h
    simp
  | cons c cs ih =>
    obtain ⟨hc, hcs⟩ := List.forall_mem_cons.mp hcs
    rw [List.map_cons, List.foldlM_cons] at h
    cases hm : a.setParent (some c) (some i) with
    | error e => rw [hm] at h; cases h
    | ok m =>
      obtain ⟨rfl, hloose⟩ := setParent_ok hc hm
      replace hloose : a.parent (some c) = none := hloose.resolve_right fun e => nomatch e
      rw [hm] at h
      obtain ⟨hrest, hnodup, hpar, hchild, hsize⟩ :=
        ih (fun d hd => by rw [size_modify]; exact hcs d hd) h
      simp only [parent_modify_parent hc, Option.some.injEq] at hrest hpar
      simp only [children_modify_parent] at hchild
      -- were it listed again, it would have a parent by then
      have hnot : c ∉ cs := by
        intro hmem
        have := hrest c hmem
        rw [if_pos rfl] at this
        cases this
      refine ⟨List.forall_mem_cons.mpr ⟨hloose, fun d hd => ?_⟩, List.nodup_cons.mpr ⟨hnot, hnodup⟩,
        fun j => ?_, hchild,
        by rw [hsize, size_modify]⟩
      · have := hrest d hd
        split_ifs at this
        exact this
      · simp only [hpar, List.mem_cons]
        by_cases hj : j = c <;> simp [hj]

/-- An edit adds a node, which owns detached ones. -/
structure Founds (a : Arena) (i : NodeId) (b : Arena) (cs : List NodeId) : Prop where
  index : i = a.size
  size : b.size = a.size + 1
  adopts : Adopts a b cs

theorem addNode_founds {l : Label} (cs : List NodeId) (hcs : ∀ c ∈ cs, c < a.size)
    (h : a.addNode l (cs.map some) = .ok (i, b)) :
    Founds a i b cs := by
  let n : Node := { toLabel := l, children := cs.map some }
  let pushed : Arena := { a with nodes := a.nodes.push n }
  have hsize : pushed.size = a.size + 1 := Array.size_push ..
  have hnode : ∀ j, pushed.node? (some j) = if j = a.size then some n else a.node? (some j) := by
    intro j
    simp only [pushed, node?, Option.bind_some, Array.getElem?_push]
    rfl
  have hparent : ∀ j, pushed.parent (some j) = a.parent (some j) := by
    intro j
    rw [parent, parent, hnode]
    split_ifs with hj
    · rw [hj, node?_eq_none (Nat.le_refl _)]
      rfl
    · rfl
  have hchildren : ∀ j, pushed.children (some j) =
      if j = a.size then cs.map some else a.children (some j) := by
    intro j
    rw [children, children, hnode]
    split_ifs <;> rfl
  cases hb : ((cs.map some).foldlM (fun m c => m.setParent c (some a.size)) pushed : Edited Arena)
    with
  | error e => rw [addNode, hb] at h; cases h
  | ok m =>
    rw [addNode, hb] at h
    obtain ⟨rfl, rfl⟩ := Prod.mk.inj (Except.ok.inj h)
    obtain ⟨hloose, hnodup, hpar, hchild, hms⟩ :=
      setParents_ok (fun c hc => hsize ▸ Nat.lt_succ_of_lt (hcs c hc)) hb
    refine ⟨rfl, hms.trans hsize, hcs, fun c hc => ?_, hnodup, fun j => ?_, fun p => ?_⟩
    · rw [← hparent]
      exact hloose c hc
    · rw [hpar, hparent]
    · rw [hchild, hchildren]

/-! ## Builders -/

theorem cloneNode_founds {r : Ref} (hi : i < a.size) (h : a.cloneNode (some i) = .ok (r, b)) :
    ∃ j, r = some j ∧ Founds a j b [] := by
  obtain ⟨n, hn⟩ := Option.isSome_iff_exists.mp (isSome_node?.mpr hi)
  rw [cloneNode, hn] at h
  dsimp only at h
  cases hb : a.addNode n.toLabel [] with
  | error e => rw [hb] at h; cases h
  | ok x =>
    obtain ⟨j, m⟩ := x
    rw [hb] at h
    obtain ⟨rfl, rfl⟩ := Prod.mk.inj (Except.ok.inj h)
    exact ⟨j, rfl, addNode_founds [] (by simp) hb⟩

theorem synthesize_founds {k : Kind} {text : Option String} {src : Ref} (hcs : ∀ c ∈ cs, c < a.size)
    (h : a.synthesize k text (cs.map some) src = .ok (i, b)) : Founds a i b cs := by
  rw [synthesize] at h
  split at h <;> exact addNode_founds cs hcs h

end Arena

end ChainLowering
