import ChainLowering.Proofs.ChainSound
import ChainLowering.Proofs.NurserySound
import ChainLowering.Proofs.Trees

/-!
# Lowering in place

In any store that is a forest, a complete chain inside its statement is
lowered to the reference, and nothing else in the store is touched.
-/

namespace ChainLowering

open Grown Arena

namespace Arena

def spineTo (a : Arena) : Nat → Ref → List NodeId
  | n + 1, some i => if a.isChain i then i :: a.spineTo n (a.firstChild i) else []
  | _, _ => []

def spine (a : Arena) (r : Ref) : List NodeId := a.spineTo (a.size + 1) r

/-- A chain that ends here and lacks nothing. -/
structure Complete (a : Arena) (c : NodeId) : Prop where
  ends : a.isChainEnd (some c) = true
  /-- The lowest link is written `?.`. -/
  marked : ∀ i ∈ (a.spine (some c)).getLast?, a.isMarked (some i) = true
  /-- There is something before every link. -/
  child : ∀ i ∈ a.spine (some c), (a.firstChild (some i)).isSome = true
  /-- So there is before an access that the lowest link is put on. -/
  access : ∀ i ∈ (a.spine (some c)).getLast?, a.isGet (a.firstChild (some i)) = true →
    (a.firstChild (a.firstChild (some i))).isSome = true

instance (a : Arena) (c : NodeId) : Decidable (a.Complete c) :=
  decidable_of_iff (a.isChainEnd (some c) = true ∧
    (∀ i ∈ (a.spine (some c)).getLast?, a.isMarked (some i) = true) ∧
    (∀ i ∈ a.spine (some c), (a.firstChild (some i)).isSome = true) ∧
    ∀ i ∈ (a.spine (some c)).getLast?, a.isGet (a.firstChild (some i)) = true →
      (a.firstChild (a.firstChild (some i))).isSome = true)
    ⟨fun ⟨h₁, h₂, h₃, h₄⟩ => ⟨h₁, h₂, h₃, h₄⟩, fun h => ⟨h.ends, h.marked, h.child, h.access⟩⟩

variable {a : Arena} {K : Context} {x : Grown} {ks : List Link} {R : Entries} {c : NodeId}

theorem spineTo_tower (hc : Linked ks) (n : Nat) (hn : ks.length < n)
    (h : a.Holds ((plug K (tower x ks)).entries none + R)) :
    a.spineTo n (some (tower x ks).id) =
      (ks.map Link.id).reverse ++ a.spineTo (n - ks.length) (some x.id) := by
  induction ks using List.reverseRecOn generalizing K n with
  | nil => simp
  | append_singleton ks k ih =>
    obtain ⟨n, rfl⟩ : ∃ m, n = m + 1 := ⟨n - 1, by omega⟩
    have hfirst := firstChild_link ks k h
    rw [tower_snoc] at h ⊢
    have hch : a.isChain (some k.id) = true := (isChain_hole h).trans (hc k (by simp))
    rw [id_node, spineTo, hfirst]
    simp only [hch, ite_true]
    rw [ih (K := k.frame :: K) (fun j hj => hc j (List.mem_append_left _ hj)) n
      (by simpa using hn) h]
    simp

theorem Complete.exists_tower {u : Grown} (hu : a.Complete u.id)
    (h : a.Holds ((plug K u).entries none + R)) :
    ∃ x ks, u = tower x ks ∧ ks ≠ [] ∧ Linked ks ∧ Flagged ks ∧ Receivable x ∧
      endsChain K = true := by
  obtain ⟨x, ks, rfl, hc, hx⟩ := Grown.exists_tower u
  have hsp := spineTo_tower hc _ (length_lt_size h) h
  have hhole : a.Holds ((plug (ks.map Link.frame ++ K) x).entries none + R) := by
    rw [← plug_tower]; exact h
  obtain ⟨n, hn⟩ : ∃ n, a.size + 1 - ks.length = n + 1 :=
    ⟨a.size - ks.length, by have := length_lt_size h; omega⟩
  -- a link without children would be on the way down as well, where every node has a first child
  have hxc : x.label.kind.isChain = false := by
    by_contra hch
    rw [Bool.not_eq_false] at hch
    have hfirst := firstChild_hole hhole
    rw [hx hch, slots_nil] at hfirst
    have hmem : x.id ∈ a.spine (some (tower x ks).id) := by
      rw [spine, hsp, hn, spineTo]
      simp [(isChain_hole hhole).trans hch]
    have := hu.child _ hmem
    rw [hfirst] at this
    exact absurd this (by simp)
  have hspine : a.spine (some (tower x ks).id) = (ks.map Link.id).reverse := by
    rw [spine, hsp, hn, spineTo]
    simp [(isChain_hole hhole).trans hxc]
  have hend := hu.ends
  rw [isChainEnd_hole h, Bool.and_eq_true] at hend
  have hne : ks ≠ [] := by
    rintro rfl
    rw [tower_nil, hxc] at hend
    exact absurd hend.1 (by simp)
  obtain ⟨k, ks, rfl⟩ := List.exists_cons_of_ne_nil hne
  have hlast : k.id ∈ (a.spine (some (tower x (k :: ks)).id)).getLast? := by
    rw [hspine]
    simp
  have hk : a.Holds ((plug (k.frame :: (ks.map Link.frame ++ K)) x).entries none + R) := hhole
  have hfirst : a.firstChild (some k.id) = some x.id := firstChild_owner hk rfl
  refine ⟨x, k :: ks, rfl, hne, hc, ?_, ⟨hxc, ?_⟩, hend.2⟩
  · intro j hj
    obtain rfl : k = j := by simpa using hj
    have hm := hu.marked _ hlast
    rwa [isMarked, show (a.node? (some k.id)) = _ from hk.node?_owner] at hm
  · intro hget hnil
    have := hu.access _ hlast
    rw [hfirst, isGet_hole hhole, firstChild_hole hhole, hnil] at this
    exact absurd (this hget) (by simp)

end Arena

namespace Lower

variable {σ : Type} [NameSource σ] {w : Work σ}

/-- Where a complete chain stands, read off the store. -/
structure Standing (a : Arena) (c s : NodeId) (x : Grown) (ks : List Link) (K : Context)
    (g f : Frame) (M : Context) (R : Entries) : Prop where
  holds : a.Holds ((plug (g :: K ++ f :: M) (tower x ks)).entries none + R)
  chain : (tower x ks).id = c
  statement : (plug (g :: K) (tower x ks)).id = s
  links : Linked ks
  marked : Flagged ks
  receiver : x.label.kind.isChain = false
  owner : f.label.kind.ownsStatements = true

theorem guardChain_lowers {c s script : NodeId} (hforest : w.arena.Forest) (hc : w.arena.Complete c)
    (hs : w.arena.enclosingStatement? (some c) = some s) (hsc : s ≠ c)
    (hscript : w.arena.enclosingScript? (some s) = some script) :
    ∃ x ks K g f M R, Standing w.arena c s x ks K g f M R ∧
      Does (guardChain (some c)) w (Guarded w K g f M R x ks script) := by
  have hch := hc.ends
  rw [isChainEnd, Bool.and_eq_true] at hch
  obtain ⟨n, hn⟩ : ∃ n, w.arena.node? (some c) = some n := by
    have := hch.1
    rw [isChain, kind?] at this
    cases hn : w.arena.node? (some c) with
    | none => rw [hn] at this; cases this
    | some n => exact ⟨n, rfl⟩
  obtain ⟨K, u, R, rfl, h⟩ := hforest.exists_hole hn
  obtain ⟨x, ks, rfl, hne, hl, hf, hx, hend⟩ := hc.exists_tower h
  obtain ⟨L, f, M, rfl, hL, hown, rfl⟩ := exists_of_enclosingStatement? h hs
  cases L with
  | nil => exact absurd rfl hsc
  | cons g K =>
    exact ⟨x, ks, K, g, f, M, R, ⟨h, rfl, rfl, hl, hf, hx.1, hown⟩,
      guardChain_does hx hne hl hf hend hL hown h hscript⟩

/-- A chain of two segments, in which an optional member is called and which is called itself. -/
theorem guardChain_lowers_sample :
    ∃ r b, ({} : Arena).read "(a?.m?.(x).n)(y);" = (.ok r, b) ∧ b.Forest ∧ b.Complete 4 ∧
    b.spine (some 4) = [4, 3, 1] ∧
    [4, 3, 1].map (fun i => b.isMarked (some i)) = [false, true, true] ∧
    b.isKind (b.firstChild (some 3)) .chainProp = true ∧
    b.isKind (b.parent (some 4)) .call = true ∧
    b.enclosingStatement? (some 4) = some 7 ∧ b.enclosingScript? (some 7) = some 8 ∧
    ∃ x ks K g f M R, Standing b 4 7 x ks K g f M R ∧
      Does (guardChain (some 4)) (⟨b, {}, {}⟩ : Work Names)
        (Guarded ⟨b, {}, {}⟩ K g f M R x ks 8) := by
  have hread : ∃ r b, ({} : Arena).read "(a?.m?.(x).n)(y);" = (.ok r, b) ∧ b.Complete 4 ∧
      b.spine (some 4) = [4, 3, 1] ∧
      [4, 3, 1].map (fun i => b.isMarked (some i)) = [false, true, true] ∧
      b.isKind (b.firstChild (some 3)) .chainProp = true ∧
      b.isKind (b.parent (some 4)) .call = true ∧
      b.enclosingStatement? (some 4) = some 7 ∧ b.enclosingScript? (some 7) = some 8 :=
    exists_of_read (by decide +kernel)
  obtain ⟨r, b, hr, hcomplete, hspine, hmarks, hmember, hcall, hs, hscript⟩ := hread
  have hempty : ({} : Arena).Holds 0 := ⟨rfl, by simp⟩
  obtain ⟨t, -, -, -, hold, -⟩ := read_holds hempty hr
  have htrees : b.Holds (entriesAll none [t]) := by simpa using hold
  have hforest : b.Forest := forest_of_trees htrees
  exact ⟨r, b, hr, hforest, hcomplete, hspine, hmarks, hmember, hcall, hs, hscript,
    guardChain_lowers (w := (⟨b, {}, {}⟩ : Work Names)) hforest hcomplete hs (by decide) hscript⟩

end Lower

end ChainLowering
