import ChainLowering.Proofs.Desugar
import ChainLowering.Proofs.Holds

/-!
# Edits of trees

Each edit detaches, inserts or exchanges whole trees. Its rule names the tree
it works in by a context, and the frame of the node that it changes. Each
builder puts a new root on trees that stand alone.
-/

namespace ChainLowering

open Grown

namespace Grown

/-- What stands beside and above the children of a frame. -/
def Frame.around (f : Frame) (K : Context) : Entries :=
  entriesAll (some f.id) f.left + entriesAll (some f.id) f.right + contextEntries K f.id

/-- The entries of the owner of a hole, of the root in the hole, and of all else. -/
theorem entries_plug_cons (f : Frame) (K : Context) (t : Grown) :
    (plug (f :: K) t).entries none =
      (f.id, ⟨f.label, owner K, slots f.left ++ some t.id :: slots f.right⟩) ::ₘ
        (t.id, ⟨t.label, some f.id, slots t.children⟩) ::ₘ (f.around K + t.inner) := by
  rw [entries_plug, contextEntries, entries_eq, owner_cons, Multiset.cons_add, Multiset.add_cons]
  rfl

end Grown

theorem insertIdx_idxOf {l r : List Ref} {x y : Ref} (hx : x ∉ l) :
    (l ++ x :: r).insertIdx ((l ++ x :: r).idxOf x) y = l ++ y :: x :: r := by
  induction l with
  | nil => simp
  | cons z l ih =>
    rw [List.mem_cons, not_or] at hx
    obtain ⟨hz, hl⟩ := hx
    rw [List.cons_append, List.idxOf_cons_ne _ (Ne.symm hz), List.insertIdx_succ_cons, ih hl]
    rfl

namespace Arena

variable {a : Arena} {f : Frame} {K : Context} {t u : Grown} {R : Entries}

theorem Holds.notMem_left (h : a.Holds ((plug (f :: K) t).entries none + R)) :
    some t.id ∉ slots f.left := by
  refine notMem_slots (a := a) (n := ⟨t.label, some f.id, slots t.children⟩) (p := some f.id)
    (R := (f.id, ⟨f.label, owner K, slots f.left ++ some t.id :: slots f.right⟩) ::ₘ
      (entriesAll (some f.id) f.right + contextEntries K f.id + t.inner + R)) ?_
  refine h.of_eq ?_
  rw [entries_plug_cons, Frame.around]
  simp only [Multiset.cons_add, Multiset.add_cons]
  rw [Multiset.cons_swap]
  congr 2
  abel

theorem Holds.parent_hole (h : a.Holds ((plug K t).entries none + R)) :
    a.parent (some t.id) = owner K := by
  rw [entries_plug, add_right_comm, add_comm, ← add_assoc] at h
  have := (h.of_eq (F := t.entries (owner K) + (contextEntries K t.id + R)) (by abel)).node?_root
  rw [parent, this]
  rfl

theorem Holds.node?_hole (h : a.Holds ((plug K t).entries none + R)) :
    a.node? (some t.id) = some ⟨t.label, owner K, slots t.children⟩ := by
  rw [entries_plug] at h
  exact (h.of_eq (F := t.entries (owner K) + (contextEntries K t.id + R)) (by abel)).node?_root

theorem Holds.node?_owner (h : a.Holds ((plug (f :: K) t).entries none + R)) :
    a.node? (some f.id) = some ⟨f.label, owner K, slots f.left ++ some t.id :: slots f.right⟩ := by
  rw [entries_plug_cons, Multiset.cons_add] at h
  exact h.head

theorem Holds.isDetached_beside {S : Entries} (h : a.Holds (S + (u.entries none + R))) :
    a.isDetached (some u.id) = true := by
  rw [add_left_comm] at h
  rw [isDetached, parent, h.node?_root]
  rfl

theorem replaceWith_leaves (h : a.Holds ((plug (f :: K) t).entries none + (u.entries none + R))) :
    (a.replaceWith (some t.id) (some u.id)).Leaves a
      ((plug (f :: K) u).entries none + (t.entries none + R)) := by
  have hl := h.notMem_left
  have hpar : a.parent (some t.id) = some f.id := h.parent_hole
  have hf := h.node?_owner
  have hu : a.isDetached (some u.id) = true := h.isDetached_beside
  have hmem : some t.id ∈ a.children (some f.id) := by
    rw [children, hf]; simp
  have h₁ : a.Holds ((f.id, ⟨f.label, owner K, slots f.left ++ some t.id :: slots f.right⟩) ::ₘ
      (t.id, ⟨t.label, some f.id, slots t.children⟩) ::ₘ (u.id, ⟨u.label, none, slots u.children⟩)
        ::ₘ
        (f.around K + t.inner + u.inner + R)) := by
    refine h.of_eq ?_
    rw [entries_plug_cons, entries_eq none u]
    simp only [← Multiset.singleton_add]
    abel
  have h₂ := h₁.modify (m := ⟨f.label, owner K, slots f.left ++ some u.id :: slots f.right⟩)
    (fun p => { p with children := p.children.replace (some t.id) (some u.id) })
    (by simp [List.replace_append_right hl])
  rw [Multiset.cons_swap] at h₂
  have h₃ := h₂.modify (m := ⟨t.label, none, slots t.children⟩) (fun n =>
      { n with parent := none }) rfl
  rw [Multiset.cons_swap (f.id, _), Multiset.cons_swap (t.id, _)] at h₃
  obtain ⟨b, hb, hold, hfe⟩ := setParent_leaves (p := some f.id) h₃ (.inl rfl)
  refine ⟨b, ?_, hold.of_eq ?_, by simpa using hfe⟩
  · simp only [replaceWith, hpar, hu]
    simpa [hmem] using hb
  · rw [entries_plug_cons, entries_eq none t]
    simp only [← Multiset.singleton_add]
    abel

theorem detach_holds (h : a.Holds ((plug (f :: K) t).entries none + R)) :
    (a.detach (some t.id)).Holds
      ((plug K (Grown.node f.id f.label (f.left ++ f.right))).entries none +
        (t.entries none + R)) := by
  have hl := h.notMem_left
  have hpar : a.parent (some t.id) = some f.id := h.parent_hole
  have h₁ : a.Holds ((f.id, ⟨f.label, owner K, slots f.left ++ some t.id :: slots f.right⟩) ::ₘ
      (t.id, ⟨t.label, some f.id, slots t.children⟩) ::ₘ (f.around K + t.inner + R)) := by
    refine h.of_eq ?_
    rw [entries_plug_cons]
    simp only [← Multiset.singleton_add]
    abel
  have h₂ := h₁.modify (m := ⟨f.label, owner K, slots f.left ++ slots f.right⟩)
    (fun p => { p with children := p.children.erase (some t.id) })
    (by simp [List.erase_append_right _ hl])
  rw [Multiset.cons_swap] at h₂
  have h₃ := h₂.modify (m := ⟨t.label, none, slots t.children⟩) (fun n =>
      { n with parent := none }) rfl
  rw [detach, hpar]
  refine h₃.of_eq ?_
  rw [entries_plug, entries_node, entries_eq none t, Frame.around, entriesAll_append,
    slots_append, id_node]
  simp only [← Multiset.singleton_add]
  abel

theorem addToFront_leaves {i : NodeId} {l : Label} {ts : List Grown}
    (h : a.Holds ((plug K (.node i l ts)).entries none + (u.entries none + R))) :
    (a.addToFront (some i) (some u.id)).Leaves a ((plug K (.node i l (u :: ts))).entries
      none + R) := by
  have hi : a.node? (some i) = some ⟨l, owner K, slots ts⟩ := h.node?_hole
  have hu : a.isDetached (some u.id) = true := h.isDetached_beside
  have h₁ : a.Holds ((i, ⟨l, owner K, slots ts⟩) ::ₘ (u.id, ⟨u.label, none, slots u.children⟩) ::ₘ
      (contextEntries K i + entriesAll (some i) ts + u.inner + R)) := by
    refine h.of_eq ?_
    rw [entries_plug, entries_node, entries_eq none u, id_node]
    simp only [← Multiset.singleton_add]
    abel
  have h₂ := h₁.modify (m := ⟨l, owner K, some u.id :: slots ts⟩)
    (fun p => { p with children := some u.id :: p.children }) rfl
  rw [Multiset.cons_swap] at h₂
  obtain ⟨b, hb, hold, hfe⟩ := setParent_leaves (p := some i) h₂ (.inl rfl)
  refine ⟨b, ?_, hold.of_eq ?_, by simpa using hfe⟩
  · simpa [addToFront, hu, hi] using hb
  · rw [entries_plug, entries_node, entriesAll_cons, entries_eq _ u, id_node, slots_cons]
    simp only [← Multiset.singleton_add]
    abel

theorem addBefore_leaves (h : a.Holds ((plug (f :: K) t).entries none + (u.entries none + R))) :
    (a.addBefore (some u.id) (some t.id)).Leaves a
      ((plug ({ f with left := f.left ++ [u] } :: K) t).entries none + R) := by
  have hl := h.notMem_left
  have hpar : a.parent (some t.id) = some f.id := h.parent_hole
  have hf := h.node?_owner
  have hu : a.isDetached (some u.id) = true := h.isDetached_beside
  have hmem : some t.id ∈ a.children (some f.id) := by
    rw [children, hf]; simp
  have h₁ : a.Holds ((f.id, ⟨f.label, owner K, slots f.left ++ some t.id :: slots f.right⟩) ::ₘ
      (u.id, ⟨u.label, none, slots u.children⟩) ::ₘ
        (f.around K + t.entries (some f.id) + u.inner + R)) := by
    refine h.of_eq ?_
    rw [entries_plug_cons, entries_eq none u, entries_eq (some f.id) t]
    simp only [← Multiset.singleton_add]
    abel
  have h₂ := h₁.modify (m :=
    ⟨f.label, owner K, slots f.left ++ some u.id :: some t.id :: slots f.right⟩)
    (fun p =>
      { p with children := p.children.insertIdx (p.children.idxOf (some t.id)) (some u.id) })
    (by simp only [insertIdx_idxOf hl])
  rw [Multiset.cons_swap] at h₂
  obtain ⟨b, hb, hold, hfe⟩ := setParent_leaves (p := some f.id) h₂ (.inl rfl)
  refine ⟨b, ?_, hold.of_eq ?_, by simpa using hfe⟩
  · simp only [addBefore, hpar, hu]
    simpa [hmem] using hb
  · rw [entries_plug_cons, entries_eq _ t, Frame.around, Frame.around]
    simp only [entriesAll_append, entriesAll_cons, entriesAll_nil, slots_append,
      slots_cons, slots_nil, List.append_assoc, List.cons_append, List.nil_append]
    rw [entries_eq _ u]
    simp only [← Multiset.singleton_add]
    abel

theorem setPlain_holds {i : NodeId} {l : Label} {ts : List Grown} (k : Kind)
    (h : a.Holds ((plug K (.node i l ts)).entries none + R)) :
    ((a.setMarked (some i) false).setKind (some i) k).Holds
      ((plug K (.node i { l with chainStart := false, kind := k } ts)).entries none + R) := by
  have h₁ : a.Holds ((i, ⟨l, owner K, slots ts⟩) ::ₘ
      (contextEntries K i + entriesAll (some i) ts + R)) := by
    refine h.of_eq ?_
    rw [entries_plug, entries_node, id_node]
    simp only [← Multiset.singleton_add]
    abel
  have h₂ := h₁.modify (m := ⟨{ l with chainStart := false }, owner K, slots ts⟩)
    (fun n => { n with chainStart := false }) rfl
  have h₃ := h₂.modify (m := ⟨{ l with chainStart := false, kind := k }, owner K, slots ts⟩)
    (fun n => { n with kind := k }) rfl
  refine h₃.of_eq ?_
  rw [entries_plug, entries_node, id_node]
  simp only [← Multiset.singleton_add]
  abel

/-! ## Builders -/

/-- The node at an index, as far as it does not depend on where it stands. -/
def Labels (E : Entries) (i : NodeId) (l : Label) : Prop := ∃ n : Node, (i, n) ∈ E ∧ n.toLabel = l

theorem Labels.add_left {E F : Entries} {i : NodeId} {l : Label} (h : Labels E i l) :
    Labels (F + E) i l := by
  obtain ⟨n, hn, hl⟩ := h
  exact ⟨n, Multiset.mem_add.mpr (.inr hn), hl⟩

theorem Labels.add_right {E F : Entries} {i : NodeId} {l : Label} (h : Labels E i l) :
    Labels (E + F) i l := by
  obtain ⟨n, hn, hl⟩ := h
  exact ⟨n, Multiset.mem_add.mpr (.inl hn), hl⟩

theorem labels_root (p : Ref) (t : Grown) : Labels (t.entries p) t.id t.label :=
  ⟨_, entries_eq p t ▸ Multiset.mem_cons_self _ _, rfl⟩

theorem labels_hole (K : Context) (t : Grown) : Labels ((plug K t).entries none) t.id t.label := by
  rw [entries_plug]
  exact (labels_root _ t).add_left

/-- A builder goes through and adds a tree that stands alone. -/
def Edited.Builds (x : Edited (NodeId × Arena)) (a : Arena) (t : Grown) (R : Entries) : Prop :=
  ∃ b, x = .ok (t.id, b) ∧ b.Holds (t.entries none + R) ∧ b.features = a.features

section
variable {src : NodeId} {s : Label} {ts : List Grown}

theorem synthesize_builds (ts : List Grown) (k : Kind) (text : Option String)
    (h : a.Holds (entriesAll none ts + R)) (hs : Labels (entriesAll none ts + R) src s) :
    (a.synthesize k text (slots ts) (some src)).Builds a (.node a.size (.made k text s) ts) R := by
  obtain ⟨n, hn, hl⟩ := hs
  have hsrc := h.get hn
  obtain ⟨b, hb, hold, hf⟩ := addNode_adds _ (.made k text s) h
  refine ⟨b, ?_, hold, hf⟩
  rw [id_node, ← hb, ← hl]
  simp only [synthesize, hsrc]
  rfl

theorem newEmpty_builds (h : a.Holds R) :
    a.newEmpty.Builds a (.node a.size { kind := .empty, synthesized := true } []) R := by
  obtain ⟨b, hb, hold, hf⟩ :=
    addNode_adds [] { kind := .empty, synthesized := true } (R := R) (by simpa using h)
  exact ⟨b, hb, hold, hf⟩

theorem newName_builds (name : String) (h : a.Holds R) (hs : Labels R src s) :
    (a.newName name (some src)).Builds a (.node a.size (.made .name (some name) s) []) R :=
  synthesize_builds [] _ _ (by simpa using h) (by simpa using hs)

theorem newNull_builds (h : a.Holds R) (hs : Labels R src s) :
    (a.newNull (some src)).Builds a (.node a.size (.made .nullLit none s) []) R :=
  synthesize_builds [] _ _ (by simpa using h) (by simpa using hs)

theorem newUndefined_builds (h : a.Holds R) (hs : Labels R src s) :
    ∃ i j, (a.newUndefined (some src)).Builds a (.node i (.made .void none s)
      [.node j (.made .numberLit (some "0") s) []]) R := by
  obtain ⟨b, hb, hold, hf⟩ := synthesize_builds [] .numberLit (some "0") (by simpa using h)
    (by simpa using hs)
  obtain ⟨c, hc, hold, hf'⟩ := synthesize_builds [.node a.size (.made .numberLit (some "0") s) []]
    .void none (by simpa using hold) (by simpa using hs.add_left)
  refine ⟨_, _, c, ?_, hold, hf'.trans hf⟩
  rw [slots_nil] at hb
  simp only [newUndefined, newNumber, hb]
  exact hc

theorem newGetProp_builds (name : String) (h : a.Holds (t.entries none + R))
    (hs : Labels (t.entries none + R) src s) :
    (a.newGetProp (some t.id) name (some src)).Builds a
      (.node a.size (.made .getProp (some name) s) [t]) R :=
  synthesize_builds [t] _ _ (by simpa using h) (by simpa using hs)

theorem newEq_builds (h : a.Holds (t.entries none + (u.entries none + R)))
    (hs : Labels (t.entries none + (u.entries none + R)) src s) :
    (a.newEq (some t.id) (some u.id) (some src)).Builds a (.node a.size (.made .eq none s) [t, u])
      R :=
  synthesize_builds [t, u] _ _ (by simpa [add_assoc] using h) (by simpa [add_assoc] using hs)

theorem newHook_builds {v : Grown}
    (h : a.Holds (t.entries none + (u.entries none + (v.entries none + R))))
    (hs : Labels (t.entries none + (u.entries none + (v.entries none + R))) src s) :
    (a.newHook (some t.id) (some u.id) (some v.id) (some src)).Builds a
      (.node a.size (.made .hook none s) [t, u, v]) R :=
  synthesize_builds [t, u, v] _ _ (by simpa [add_assoc] using h) (by simpa [add_assoc] using hs)

theorem newAssign_builds (name : String) (h : a.Holds (t.entries none + R))
    (hs : Labels (t.entries none + R) src s) :
    ∃ i j, (a.newAssign name (some t.id) (some src)).Builds a
      (.node i (.made .assign none s) [.node j (.made .name (some name) s) [], t]) R := by
  obtain ⟨b, hb, hold, hf⟩ := newName_builds name h hs
  obtain ⟨c, hc, hold, hf'⟩ := synthesize_builds [.node a.size (.made .name (some name) s) [], t]
    .assign none (by simpa [add_assoc] using hold) (by simpa [add_assoc] using hs.add_left)
  refine ⟨_, _, c, ?_, hold, hf'.trans hf⟩
  simp only [newAssign, hb]
  exact hc

theorem newLet_builds (name : String) (h : a.Holds R) (hs : Labels R src s) :
    ∃ i j, (a.newLet name (some src)).Builds a
      (.node i (.made .letDecl none s) [.node j (.made .name (some name) s) []]) R := by
  obtain ⟨b, hb, hold, hf⟩ := newName_builds name h hs
  obtain ⟨c, hc, hold, hf'⟩ := synthesize_builds [.node a.size (.made .name (some name) s) []]
    .letDecl none (by simpa using hold) (by simpa using hs.add_left)
  refine ⟨_, _, c, ?_, hold, hf'.trans hf⟩
  simp only [newLet, hb]
  exact hc

end

end Arena

end ChainLowering
