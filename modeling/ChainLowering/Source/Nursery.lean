import ChainLowering.Arena.Edit

/-! # A store that is read into

While a text is read, the nodes that were added and have no parent yet are
kept on a stack. They differ, so a node can be put above the topmost ones. -/

namespace ChainLowering

namespace Arena

def Edited.result {α : Type} : (x : Edited α) → (∃ v, x = .ok v) → α
  | .ok v, _ => v
  | .error _, h => absurd h nofun

theorem Edited.result_eq {α : Type} {x : Edited α} {v : α} (h : x = .ok v) (h' : ∃ v, x = .ok v) :
    x.result h' = v := by
  subst h
  rfl

variable {a : Arena}

theorem node?_modify_of_ne (a : Arena) (f : Node → Node) {i j : NodeId} (h : j ≠ i) :
    (a.modify (some i) f).node? (some j) = a.node? (some j) := by
  simp [modify, node?, Array.getElem?_modify, h.symm]

theorem setParent_of_isDetached {i : NodeId} (h : a.isDetached (some i) = true) (p : Ref) :
    ∃ b, a.setParent (some i) p = .ok b ∧ b.size = a.size ∧ ∀ j ≠ i,
      b.node? (some j) = a.node? (some j) := by
  unfold setParent
  cases hn : a.node? (some i) with
  | none => exact ⟨a, rfl, rfl, fun _ _ => rfl⟩
  | some n =>
    have hp : n.parent = none := by simpa [isDetached, parent, hn] using h
    refine ⟨a.modify (some i) fun n => { n with parent := p }, by simp [hp], ?_,
      fun j => node?_modify_of_ne a _⟩
    simp [size, modify]

theorem setParents_of_isDetached {is : List NodeId} (hn : is.Nodup)
    (h : ∀ i ∈ is, a.isDetached (some i) = true) (p : Ref) :
    ∃ b, ((is.map some).foldlM (fun a c => a.setParent c p) a : Edited Arena) = .ok b ∧
      b.size = a.size ∧ ∀ j ∉ is, b.node? (some j) = a.node? (some j) := by
  induction is generalizing a with
  | nil => exact ⟨a, rfl, rfl, fun _ _ => rfl⟩
  | cons i is ih =>
    obtain ⟨hi, hn⟩ := List.nodup_cons.mp hn
    obtain ⟨b, hb, hsize, hkept⟩ := setParent_of_isDetached (h i List.mem_cons_self) p
    have hrest : ∀ j ∈ is, b.isDetached (some j) = true := by
      intro j hj
      have hne : j ≠ i := fun e => hi (e ▸ hj)
      rw [isDetached, parent, hkept j hne]
      exact h j (List.mem_cons_of_mem _ hj)
    obtain ⟨c, hc, hsize', hkept'⟩ := ih hn hrest
    refine ⟨c, ?_, hsize'.trans hsize, fun j hj => ?_⟩
    · rw [List.map_cons, List.foldlM_cons, hb]
      exact hc
    · rw [List.mem_cons, not_or] at hj
      rw [hkept' j hj.2, hkept j hj.1]

theorem addNode_of_isDetached (l : Label) {is : List NodeId} (hn : is.Nodup)
    (h : ∀ i ∈ is, i < a.size ∧ a.isDetached (some i) = true) :
    ∃ b, a.addNode l (is.map some) = .ok (a.size, b) ∧ b.size = a.size + 1 ∧
      b.isDetached (some a.size) = true ∧
      ∀ j < a.size, j ∉ is → b.isDetached (some j) = a.isDetached (some j) := by
  let pushed : Arena := { a with nodes := a.nodes.push { toLabel := l, children := is.map some } }
  have hold : ∀ j < a.size, pushed.node? (some j) = a.node? (some j) := by
    intro j hj
    simp [pushed, node?, Array.getElem?_push, Nat.ne_of_lt (show j < a.nodes.size from hj)]
  have hnew : pushed.isDetached (some a.size) = true := by
    simp [pushed, isDetached, parent, node?, size]
  have hready : ∀ i ∈ is, pushed.isDetached (some i) = true := by
    intro i hi
    rw [isDetached, parent, hold i (h i hi).1]
    exact (h i hi).2
  obtain ⟨b, hb, hsize, hkept⟩ := setParents_of_isDetached hn hready (some a.size)
  refine ⟨b, ?_, ?_, ?_, fun j hj hmem => ?_⟩
  · unfold addNode
    dsimp only
    rw [hb]
    rfl
  · rw [hsize]
    simp [pushed, size]
  · have hout : a.size ∉ is := fun hi => Nat.lt_irrefl _ (h _ hi).1
    rw [isDetached, parent, hkept _ hout]
    exact hnew
  · rw [isDetached, parent, hkept j hmem, hold j hj]
    rfl

end Arena

structure Nursery where
  arena : Arena
  /-- Nodes without a parent, the newest first. -/
  roots : List NodeId := []
  nodup : roots.Nodup := by simp
  detached : ∀ i ∈ roots, i < arena.size ∧ arena.isDetached (some i) = true := by simp

namespace Nursery

theorem exists_built (s : Nursery) (l : Label) (n : Nat) : ∃ b,
    s.arena.addNode l ((s.roots.take n).reverse.map some) = .ok (s.arena.size, b) ∧
    b.size = s.arena.size + 1 ∧ (s.arena.size :: s.roots.drop n).Nodup ∧
      ∀ i ∈ s.arena.size :: s.roots.drop n, i < b.size ∧ b.isDetached (some i) = true := by
  have htake : ∀ i ∈ (s.roots.take n).reverse, i < s.arena.size ∧
      s.arena.isDetached (some i) = true :=
    fun i hi => s.detached i (List.mem_of_mem_take (List.mem_reverse.mp hi))
  have hdrop : ∀ i ∈ s.roots.drop n, i < s.arena.size ∧ s.arena.isDetached (some i) = true :=
    fun i hi => s.detached i (List.mem_of_mem_drop hi)
  have hnodup : (s.roots.take n ++ s.roots.drop n).Nodup := by
    rw [List.take_append_drop]
    exact s.nodup
  obtain ⟨htn, hdn, hdisjoint⟩ := List.nodup_append.mp hnodup
  obtain ⟨b, hb, hsize, hnew, hkept⟩ :=
    Arena.addNode_of_isDetached l ((List.reverse_perm _).nodup_iff.mpr htn) htake
  refine ⟨b, hb, hsize, List.nodup_cons.mpr ⟨fun hi => Nat.lt_irrefl _ (hdrop _ hi).1, hdn⟩,
    fun i hi => ?_⟩
  rw [hsize]
  obtain rfl | hi := List.mem_cons.mp hi
  · exact ⟨Nat.lt_succ_self _, hnew⟩
  · obtain ⟨hlt, hdetached⟩ := hdrop i hi
    have hmem : i ∉ (s.roots.take n).reverse :=
      fun h => hdisjoint i (List.mem_reverse.mp h) i hi rfl
    exact ⟨Nat.lt_succ_of_lt hlt, (hkept i hlt hmem).trans hdetached⟩

theorem exists_added (s : Nursery) (l : Label) (n : Nat) :
    ∃ p, s.arena.addNode l ((s.roots.take n).reverse.map some) = .ok p :=
  (s.exists_built l n).elim fun _ h => ⟨_, h.1⟩

/-- Adds a node above the topmost `n` roots. -/
def build (l : Label) (n : Nat) (s : Nursery) : Nursery :=
  let added := (s.arena.addNode l ((s.roots.take n).reverse.map some)).result (s.exists_added l n)
  { arena := added.2
    roots := added.1 :: s.roots.drop n
    nodup := by
      obtain ⟨b, hb, -, hnodup, -⟩ := s.exists_built l n
      rw [show added = (s.arena.size, b) from Arena.Edited.result_eq hb _]
      exact hnodup
    detached := by
      obtain ⟨b, hb, -, -, hdetached⟩ := s.exists_built l n
      rw [show added = (s.arena.size, b) from Arena.Edited.result_eq hb _]
      exact hdetached }

theorem build_eq (s : Nursery) (l : Label) (n : Nat) : ∃ b,
    s.arena.addNode l ((s.roots.take n).reverse.map some) = .ok (s.arena.size, b) ∧
    b.size = s.arena.size + 1 ∧
      (s.build l n).arena = b ∧ (s.build l n).roots = s.arena.size :: s.roots.drop n := by
  obtain ⟨b, hb, hsize, -⟩ := s.exists_built l n
  have hadded := Arena.Edited.result_eq hb (s.exists_added l n)
  exact ⟨b, hb, hsize, congrArg Prod.snd hadded,
    congrArg (fun p : NodeId × Arena => p.1 :: s.roots.drop n) hadded⟩

end Nursery

end ChainLowering
