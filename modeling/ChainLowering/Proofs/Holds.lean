import ChainLowering.Arena.Build
import ChainLowering.Proofs.Grown

/-!
# What a store holds

A store holds a multiset of entries when these are its nodes, all of them and
each once. Two trees side by side are a sum of entries, so what an edit leaves
alone is a summand that its rule carries along.
-/

namespace ChainLowering

open Grown

namespace Arena

/-- The entries are the nodes of the store. -/
structure Holds (a : Arena) (E : Entries) : Prop where
  keys : E.map Prod.fst = Multiset.range a.size
  nodes : ∀ e ∈ E, a.nodes[e.1]? = some e.2

namespace Holds

variable {a : Arena} {E F : Entries} {i j : NodeId} {n m : Node}

theorem of_eq (h : a.Holds E) (e : E = F) : a.Holds F := e ▸ h

theorem nodup (h : a.Holds E) : (E.map Prod.fst).Nodup := by
  rw [h.keys]; exact Multiset.nodup_range _

theorem get (h : a.Holds E) (he : (i, n) ∈ E) : a.node? (some i) = some n := h.nodes _ he

theorem head (h : a.Holds ((i, n) ::ₘ E)) : a.node? (some i) = some n :=
  h.get (Multiset.mem_cons_self _ _)

theorem lt_size (h : a.Holds E) (he : i ∈ E.map Prod.fst) : i < a.size := by
  rwa [h.keys, Multiset.mem_range] at he

theorem exists_of_lt (h : a.Holds E) (hi : i < a.size) : ∃ n, (i, n) ∈ E := by
  rw [← Multiset.mem_range, ← h.keys, Multiset.mem_map] at hi
  obtain ⟨⟨j, n⟩, hm, rfl⟩ := hi
  exact ⟨n, hm⟩

theorem mem_of_node? (h : a.Holds E) (hn : a.node? (some i) = some n) : (i, n) ∈ E := by
  obtain ⟨hi, -⟩ := Array.getElem?_eq_some_iff.mp (hn : a.nodes[i]? = some n)
  obtain ⟨m, hm⟩ := h.exists_of_lt hi
  rw [h.get hm] at hn
  obtain rfl := Option.some.inj hn
  exact hm

theorem notMem_tail (h : a.Holds ((i, n) ::ₘ E)) : i ∉ E.map Prod.fst := by
  have := h.nodup
  rw [Multiset.map_cons, Multiset.nodup_cons] at this
  exact this.1

theorem modify (h : a.Holds ((i, n) ::ₘ E)) (f : Node → Node) (hf : f n = m) :
    (a.modify (some i) f).Holds ((i, m) ::ₘ E) where
  keys := by
    have := h.keys
    simpa [Arena.modify, Arena.size] using this
  nodes e he := by
    rcases Multiset.mem_cons.mp he with rfl | he
    · have := h.nodes (i, n) (Multiset.mem_cons_self _ _)
      simp only at this
      simp [Arena.modify, Array.getElem?_modify, this, hf]
    · have hne : i ≠ e.1 := fun hi => h.notMem_tail (hi ▸ Multiset.mem_map_of_mem _ he)
      rw [← h.nodes e (Multiset.mem_cons_of_mem he)]
      simp [Arena.modify, Array.getElem?_modify, hne]

theorem push (h : a.Holds E) (n : Node) :
    ({ a with nodes := a.nodes.push n } : Arena).Holds ((a.size, n) ::ₘ E) where
  keys := by
    rw [Multiset.map_cons, h.keys, ← Multiset.range_succ]
    simp [Arena.size]
  nodes e he := by
    rcases Multiset.mem_cons.mp he with rfl | he
    · simp [Arena.size]
    · have := h.lt_size (Multiset.mem_map_of_mem _ he)
      rw [← h.nodes e he]
      exact Array.getElem?_push_lt this ▸ (Array.getElem?_eq_getElem this).symm

/-! ## Trees that are held -/

variable {p : Ref} {t u : Grown} {R : Entries}

theorem node?_root (h : a.Holds (t.entries p + R)) :
    a.node? (some t.id) = some ⟨t.label, p, slots t.children⟩ :=
  h.get (Multiset.mem_add.mpr (.inl (entries_eq p t ▸ Multiset.mem_cons_self _ _)))

theorem notMem_slots {ts : List Grown} (h : a.Holds ((i, n) ::ₘ (entriesAll p ts + R))) :
    some i ∉ slots ts := by
  intro hi
  obtain ⟨t, ht, he⟩ := mem_slots.mp hi
  refine h.notMem_tail ?_
  rw [Multiset.map_add, Multiset.mem_add, keys_entriesAll]
  exact .inl (List.mem_flatMap.mpr ⟨t, ht, Option.some.inj he ▸ t.id_mem_ids⟩)

end Holds

/-! ## Trees that are shown -/

/-- The entries of a tree are nodes of the store. -/
def Shows (a : Arena) (p : Ref) (t : Grown) : Prop := ∀ e ∈ t.entries p, a.nodes[e.1]? = some e.2

theorem Shows.root {a : Arena} {p : Ref} {t : Grown} (h : Shows a p t) :
    a.node? (some t.id) = some ⟨t.label, p, slots t.children⟩ :=
  h (t.id, ⟨t.label, p, slots t.children⟩) (entries_eq p t ▸ Multiset.mem_cons_self _ _)

section

variable {a : Arena} {p : Ref} {t : Grown}

theorem Shows.kind? (h : Shows a p t) : a.kind? (some t.id) = some t.label.kind := by
  rw [Arena.kind?, h.root]
  rfl

theorem Shows.isKind (h : Shows a p t) {k : Kind} (hk : t.label.kind = k) :
    a.isKind (some t.id) k = true := by
  rw [Arena.isKind, h.kind?, hk]
  exact decide_eq_true rfl

theorem Shows.children (h : Shows a p t) : a.children (some t.id) = slots t.children := by
  rw [Arena.children, h.root]

theorem Shows.parent (h : Shows a p t) : a.parent (some t.id) = p := by
  rw [Arena.parent, h.root]
  rfl

end

theorem Shows.child {a : Arena} {p : Ref} {i : NodeId} {l : Label} {ts : List Grown}
    (h : Shows a p (.node i l ts)) {t : Grown} (ht : t ∈ ts) : Shows a (some i) t := by
  intro e he
  refine h e ?_
  rw [entries_node]
  exact Multiset.mem_cons_of_mem (mem_entriesAll.mpr ⟨t, ht, he⟩)

theorem Holds.shows {a : Arena} {p : Ref} {t : Grown} {R : Entries}
    (h : a.Holds (t.entries p + R)) : Shows a p t :=
  fun e he => h.nodes e (Multiset.mem_add.mpr (.inl he))

/-! ## Edits -/

/-- An edit that goes through and leaves behind a store that holds `E`; features are kept. -/
def Edited.Leaves (x : Edited Arena) (a : Arena) (E : Entries) : Prop :=
  ∃ b, x = .ok b ∧ b.Holds E ∧ b.features = a.features

/-- An edit that goes through, adds a node and leaves behind a store that holds it with `E`. -/
def Edited.Adds (x : Edited (NodeId × Arena)) (a : Arena) (E : Entries) : Prop :=
  ∃ b, x = .ok (a.size, b) ∧ b.Holds E ∧ b.features = a.features

section
variable {a : Arena} {E R : Entries} {i : NodeId} {n : Node} {p : Ref}

@[simp] theorem features_modify (a : Arena) (r : Ref) (f : Node → Node) :
    (a.modify r f).features = a.features := by
  cases r <;> rfl

theorem setParent_leaves (h : a.Holds ((i, n) ::ₘ E)) (hp : n.parent = none ∨ p = none) :
    (a.setParent (some i) p).Leaves a ((i, { n with parent := p }) ::ₘ E) := by
  have hn : (n.parent.isSome && p.isSome) = false := by
    rcases hp with hp | hp <;> simp [hp]
  refine ⟨a.modify (some i) fun n => { n with parent := p }, ?_, h.modify _ rfl, features_modify ..⟩
  simp [setParent, h.head, hn]

theorem setParents_leaves (ts : List Grown) :
    ∀ {a : Arena} {R : Entries}, a.Holds (entriesAll none ts + R) →
      ((slots ts).foldlM (fun a c => a.setParent c (some i)) a : Edited Arena).Leaves a (entriesAll
      (some i) ts + R) := by
  induction ts with
  | nil => intro a R h; exact ⟨a, rfl, h, rfl⟩
  | cons t ts ih =>
    intro a R h
    have h' : a.Holds ((t.id, ⟨t.label, none, slots t.children⟩) ::ₘ
        (t.inner + (entriesAll none ts + R))) := by
      rw [entriesAll_cons, entries_eq, add_assoc, Multiset.cons_add] at h
      exact h
    obtain ⟨b, hb, hold, hf⟩ := setParent_leaves (p := some i) h' (.inl rfl)
    obtain ⟨c, hc, hold, hf'⟩ := ih (R := t.entries (some i) + R) (a := b) <| hold.of_eq <| by
      rw [entries_eq]
      simp only [Multiset.cons_add, Multiset.add_cons]
      congr 1
      abel
    refine ⟨c, ?_, hold.of_eq (by rw [entriesAll_cons]; abel), hf'.trans hf⟩
    rw [slots_cons, List.foldlM_cons, hb]
    exact hc

theorem addNode_adds (ts : List Grown) (l : Label) (h : a.Holds (entriesAll none ts + R)) :
    (a.addNode l (slots ts)).Adds a ((Grown.node a.size l ts).entries none + R) := by
  have h' := h.push { toLabel := l, children := slots ts }
  rw [← Multiset.add_cons] at h'
  obtain ⟨b, hb, hold, hf⟩ := setParents_leaves (i := a.size) ts h'
  refine ⟨b, ?_, hold.of_eq ?_, hf⟩
  · simp only [addNode, hb]; rfl
  · rw [entries_node, Multiset.add_cons, Multiset.cons_add]

theorem cloneNode_adds (h : a.Holds ((i, n) ::ₘ E)) :
    ∃ b, a.cloneNode (some i) = .ok (some a.size, b) ∧
      b.Holds ((Grown.node a.size n.toLabel []).entries none + ((i, n) ::ₘ E)) ∧
      b.features = a.features := by
  obtain ⟨b, hb, hold, hf⟩ := addNode_adds [] n.toLabel (R := (i, n) ::ₘ E) (by simpa using h)
  refine ⟨b, ?_, hold, hf⟩
  rw [slots_nil] at hb
  simp only [cloneNode, h.head, hb]
  rfl

end

end Arena

end ChainLowering
