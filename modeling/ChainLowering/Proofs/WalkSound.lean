import ChainLowering.Arena.Chain
import ChainLowering.Proofs.EditSound

/-!
# Walks upwards from a hole

The nodes above a tree are the frames of its context, so a walk up a store
is a walk along a list. No context is longer than the store, which is why
the bounds of the walks are never met.
-/

namespace ChainLowering

open Grown

namespace Grown

/-- A link whose first child is in the hole goes on with a chain that is in it. -/
def Frame.continues (f : Frame) : Bool := f.label.kind.isChain && f.left.isEmpty

/-- A chain in the hole ends there. -/
def endsChain : Context → Bool
  | [] => true
  | f :: _ => !f.continues

theorem length_le_card_contextEntries (K : Context) (i : NodeId) :
    K.length ≤ (contextEntries K i).card := by
  induction K generalizing i with
  | nil => simp
  | cons f K ih =>
    have := ih f.id
    simp only [contextEntries, List.length_cons, Multiset.card_cons, Multiset.card_add]
    omega

theorem labels_frame {K : Context} {f : Frame} (hf : f ∈ K) (t : Grown) :
    Arena.Labels ((plug K t).entries none) f.id f.label := by
  induction K generalizing t with
  | nil => cases hf
  | cons g K ih =>
    rcases List.mem_cons.mp hf with rfl | hf
    · exact Arena.labels_hole K _
    · exact ih hf _

theorem id_plug {K : Context} (hK : K ≠ []) (t u : Grown) : (plug K t).id = (plug K u).id := by
  induction K generalizing t u with
  | nil => exact absurd rfl hK
  | cons f K ih =>
    cases K with
    | nil => rfl
    | cons g K => exact ih (by simp) _ _

end Grown

namespace Arena

variable {a : Arena} {f : Frame} {K : Context} {t : Grown} {R : Entries}

theorem Holds.card (h : a.Holds R) : R.card = a.size := by
  have := congrArg Multiset.card h.keys
  simpa using this

theorem Holds.length_le (h : a.Holds ((plug K t).entries none + R)) : K.length < a.size := by
  have := length_le_card_contextEntries K t.id
  rw [← h.card, entries_plug, entries_eq]
  simp only [Multiset.card_add, Multiset.card_cons]
  omega

theorem ancestorsTo_hole (n : Nat) (hn : K.length < n) (h : a.Holds ((plug K t).entries none + R)) :
    a.ancestorsTo n (some t.id) = t.id :: K.map Frame.id := by
  induction K generalizing n t with
  | nil =>
    obtain ⟨n, rfl⟩ : ∃ m, n = m + 1 := ⟨n - 1, by simp at hn; omega⟩
    have hp : a.parent (some t.id) = none := h.parent_hole
    rw [ancestorsTo, hp]
    cases n <;> rfl
  | cons f K ih =>
    obtain ⟨n, rfl⟩ : ∃ m, n = m + 1 := ⟨n - 1, by simp at hn; omega⟩
    have hp : a.parent (some t.id) = some f.id := h.parent_hole
    rw [ancestorsTo, hp, List.map_cons]
    exact congrArg _ (ih (t := f.fill t) n (by simpa using hn) h)

theorem ancestors_hole (h : a.Holds ((plug K t).entries none + R)) :
    a.ancestors (some t.id) = t.id :: K.map Frame.id :=
  ancestorsTo_hole _ (by have := h.length_le; omega) h

theorem kind?_hole (h : a.Holds ((plug K t).entries none + R)) :
    a.kind? (some t.id) = some t.label.kind := by
  rw [kind?, h.node?_hole]; rfl

theorem kind?_owner (h : a.Holds ((plug (f :: K) t).entries none + R)) :
    a.kind? (some f.id) = some f.label.kind := by
  rw [kind?, h.node?_owner]; rfl

theorem isChain_hole (h : a.Holds ((plug K t).entries none + R)) :
    a.isChain (some t.id) = t.label.kind.isChain := by
  rw [isChain, kind?_hole h]; rfl

theorem isMarked_hole (h : a.Holds ((plug K t).entries none + R)) :
    a.isMarked (some t.id) = t.label.chainStart := by
  rw [isMarked, h.node?_hole]; rfl

theorem isGet_hole (h : a.Holds ((plug K t).entries none + R)) :
    a.isGet (some t.id) = t.label.kind.isGet := by
  rw [isGet, kind?_hole h]; rfl

theorem firstChild_hole (h : a.Holds ((plug K t).entries none + R)) :
    a.firstChild (some t.id) = (slots t.children).head?.join := by
  rw [firstChild, children, h.node?_hole]

theorem firstChild_owner (h : a.Holds ((plug (f :: K) t).entries none + R)) (hf : f.left = []) :
    a.firstChild (some f.id) = some t.id := by
  rw [firstChild, children, h.node?_owner, hf]; rfl

theorem isFirstChild_hole (h : a.Holds ((plug (f :: K) t).entries none + R)) :
    a.isFirstChild (some t.id) (some f.id) = f.left.isEmpty := by
  have hp : a.parent (some t.id) = some f.id := h.parent_hole
  cases hf : f.left with
  | nil => simp [isFirstChild, hp, firstChild_owner h hf]
  | cons u us =>
    have hne : u.id ≠ t.id := by
      have := h.notMem_left
      rw [hf, slots_cons, List.mem_cons, not_or] at this
      exact fun e => this.1 (by rw [e])
    have hc : a.firstChild (some f.id) = some u.id := by
      rw [firstChild, children, h.node?_owner, hf]; rfl
    simp [isFirstChild, hp, hc, hne]

theorem isChainEnd_hole (h : a.Holds ((plug K t).entries none + R)) :
    a.isChainEnd (some t.id) = (t.label.kind.isChain && endsChain K) := by
  rw [isChainEnd, isChain_hole h, h.parent_hole]
  cases K with
  | nil => simp [isChain, kind?, node?, endsChain]
  | cons f K =>
    have hp : a.isChain (some f.id) = f.label.kind.isChain := by
      rw [isChain, kind?_owner h]; rfl
    rw [owner_cons, isFirstChild_hole h, hp]
    rfl

/-! ## What encloses a hole -/

theorem isStatement_hole (h : a.Holds ((plug (f :: K) t).entries none + R)) :
    a.isStatement (some t.id) = f.label.kind.ownsStatements := by
  have hp : a.parent (some t.id) = some f.id := h.parent_hole
  rw [isStatement, hp, kind?_owner h]
  rfl

theorem enclosingStatement?_hole {L : Context} (hL : ∀ g ∈ L, g.label.kind.ownsStatements = false)
    (hf : f.label.kind.ownsStatements = true)
    (h : a.Holds ((plug (L ++ f :: K) t).entries none + R)) :
    a.enclosingStatement? (some t.id) = some (plug L t).id := by
  rw [enclosingStatement?, ancestors_hole h]
  induction L generalizing t with
  | nil => simp [isStatement_hole h, hf]
  | cons g L ih =>
    have hg : a.isStatement (some t.id) = false := by
      rw [isStatement_hole (by exact h), hL g List.mem_cons_self]
    rw [List.find?_cons_of_neg (by simp [hg])]
    exact ih (t := g.fill t) (fun g' hg' => hL g' (List.mem_cons_of_mem _ hg')) h

theorem exists_of_enclosingStatement? {s : NodeId} (h : a.Holds ((plug K t).entries none + R))
    (hs : a.enclosingStatement? (some t.id) = some s) : ∃ L f M, K = L ++ f :: M ∧
      (∀ g ∈ L, g.label.kind.ownsStatements = false) ∧ f.label.kind.ownsStatements = true ∧
      (plug L t).id = s := by
  rw [enclosingStatement?, ancestors_hole h] at hs
  induction K generalizing t with
  | nil =>
    have hp : a.parent (some t.id) = none := h.parent_hole
    simp [isStatement, hp, kind?, node?] at hs
  | cons f K ih =>
    cases hf : f.label.kind.ownsStatements with
    | true =>
      rw [List.find?_cons_of_pos (by rw [isStatement_hole h, hf])] at hs
      exact ⟨[], f, K, rfl, by simp, hf, Option.some.inj hs⟩
    | false =>
      rw [List.find?_cons_of_neg (by simp [isStatement_hole h, hf])] at hs
      obtain ⟨L, g, M, rfl, hL, hg, hs⟩ := ih (t := f.fill t) h hs
      refine ⟨f :: L, g, M, rfl, ?_, hg, hs⟩
      intro g' hg'
      rcases List.mem_cons.mp hg' with rfl | hg'
      · exact hf
      · exact hL g' hg'

end Arena

end ChainLowering
