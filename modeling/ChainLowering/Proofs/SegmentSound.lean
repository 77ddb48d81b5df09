import Mathlib.Data.List.Induction
import ChainLowering.Proofs.LowerRules
import ChainLowering.Proofs.WalkSound

/-!
# The segments of a tower

Each walk along a chain goes along the links of its tower, downwards to the
marked link that begins a segment or upwards to the link that ends it.
-/

namespace ChainLowering

open Grown Arena

namespace Grown

def Linked (ks : List Link) : Prop := ∀ k ∈ ks, k.label.kind.isChain = true

/-- Links of a chain that begin no segment. -/
def Unmarked (ks : List Link) : Prop := ∀ k ∈ ks, k.label.chainStart = false

/-- The lowest link begins a segment. -/
def Flagged (ks : List Link) : Prop := ∀ k ∈ ks.head?, k.label.chainStart = true

/-- The links that begin a segment, the lowest first. -/
def starts (ks : List Link) : List NodeId := (ks.filter fun k => k.label.chainStart).map Link.id

/-- A segment that reaches up to the hole ends there. -/
def endsSegment (K : Context) : Bool := endsChain K || K.head?.any fun f => f.label.chainStart

/-- The link after its lowering, when nothing below it is cut off. -/
def Link.plain (k : Link) : Link := { k with label := k.label.plain }

@[simp] theorem tower_nil (x : Grown) : tower x [] = x := rfl

@[simp] theorem tower_cons (x : Grown) (k : Link) (ks : List Link) :
    tower x (k :: ks) = tower (.node k.id k.label (x :: k.args)) ks := rfl

theorem tower_append (x : Grown) (ks ls : List Link) :
    tower x (ks ++ ls) = tower (tower x ks) ls := by
  rw [tower, List.map_append, plug_append]; rfl

theorem tower_snoc (x : Grown) (ks : List Link) (k : Link) :
    tower x (ks ++ [k]) = .node k.id k.label (tower x ks :: k.args) := by
  rw [tower_append]; rfl

theorem plug_tower (K : Context) (x : Grown) (ks : List Link) :
    plug K (tower x ks) = plug (ks.map Link.frame ++ K) x := by
  rw [plug_append]; rfl

theorem plain?_of_isChain {l : Label} (h : l.kind.isChain = true) :
    l.kind.plain? = some l.plain.kind := by
  rw [← Kind.isSome_plain?] at h
  obtain ⟨p, hp⟩ := Option.isSome_iff_exists.mp h
  simp [Label.plain, hp]

/-- A link that has no link as its first child, or no child at all. -/
structure Lowest (t : Grown) : Prop where
  isChain : t.label.kind.isChain = true
  below : ∀ x ∈ t.children.head?, x.label.kind.isChain = false

theorem lowest_link {x : Grown} {k : Link} (hk : k.label.kind.isChain = true)
    (hx : x.label.kind.isChain = false) :
    Lowest (.node k.id k.label (x :: k.args)) where
  isChain := hk
  below y hy := by
    obtain rfl := Option.some.inj hy
    exact hx

theorem unmarked_or_last_marked (ks : List Link) :
    Unmarked ks ∨ ∃ ls s us, ks = ls ++ s :: us ∧ s.label.chainStart = true ∧ Unmarked us := by
  induction ks using List.reverseRecOn with
  | nil => exact .inl fun _ h => nomatch h
  | append_singleton ks k ih =>
    have hsnoc : ∀ {us : List Link}, Unmarked us → k.label.chainStart = false →
        Unmarked (us ++ [k]) := by
      intro us hu hk u hu'
      rcases List.mem_append.mp hu' with hu' | hu'
      · exact hu u hu'
      · rw [List.mem_singleton.mp hu']; exact hk
    cases hk : k.label.chainStart with
    | true => exact .inr ⟨ks, k, [], by simp, hk, fun _ h => nomatch h⟩
    | false =>
      rcases ih with hu | ⟨ls, s, us, rfl, hs, hu⟩
      · exact .inl (hsnoc hu hk)
      · exact .inr ⟨ls, s, us ++ [k], by simp, hs, hsnoc hu hk⟩

theorem starts_append (ks ls : List Link) : starts (ks ++ ls) = starts ks ++ starts ls := by
  simp [starts]

theorem starts_of_unmarked {us : List Link} (h : Unmarked us) : starts us = [] := by
  simp only [starts, List.map_eq_nil_iff, List.filter_eq_nil_iff, Bool.not_eq_true]
  exact h

theorem starts_segment {s : Link} {us : List Link} (hs : s.label.chainStart = true)
    (hu : Unmarked us) :
    starts (s :: us) = [s.id] := by
  have := starts_of_unmarked hu
  rw [starts, List.filter_cons_of_pos (by exact hs), List.map_cons]
  exact congrArg _ this

end Grown

namespace Arena

variable {a : Arena} {K : Context} {x t : Grown} {R : Entries} {s : Link} {us ks : List Link}

theorem firstChild_link (ks : List Link) (k : Link)
    (h : a.Holds ((plug K (tower x (ks ++ [k]))).entries none + R)) :
    a.firstChild (some k.id) = some (tower x ks).id := by
  rw [plug_tower, List.map_append, List.append_assoc, ← plug_tower] at h
  exact firstChild_owner (f := k.frame) h rfl

/-- The bounds of the walks are never met. -/
theorem length_lt_size {ks : List Link} (h : a.Holds ((plug K (tower x ks)).entries none + R)) :
    ks.length < a.size + 1 := by
  rw [plug_tower] at h
  have := h.length_le
  simp only [List.length_append, List.length_map] at this
  omega

theorem segmentStartTo_tower (ht : t.label.kind.isChain = true) (hm : t.label.chainStart = true)
    (hc : Linked us) (hu : Unmarked us) (n : Nat) (hn : us.length < n)
    (h : a.Holds ((plug K (tower t us)).entries none + R)) :
    a.segmentStartTo n (some (tower t us).id) = some t.id := by
  obtain ⟨n, rfl⟩ : ∃ m, n = m + 1 := ⟨n - 1, by omega⟩
  induction us using List.reverseRecOn generalizing K n with
  | nil =>
    have hch : a.isChain (some t.id) = true := (isChain_hole h).trans ht
    have hm : a.isMarked (some t.id) = true := (isMarked_hole h).trans hm
    simp only [tower_nil, segmentStartTo, hch, hm]
    rfl
  | append_singleton us u ih =>
    have hfirst := firstChild_link us u h
    rw [tower_snoc] at h ⊢
    have hch : a.isChain (some u.id) = true := (isChain_hole h).trans (hc u (by simp))
    have hm : a.isMarked (some u.id) = false := (isMarked_hole h).trans (hu u (by simp))
    obtain ⟨n, rfl⟩ : ∃ m, n = m + 1 := ⟨n - 1, by simp at hn; omega⟩
    rw [id_node, segmentStartTo, hfirst]
    simp only [hch, hm, Bool.not_true, Bool.false_eq_true, ite_false]
    exact ih (K := u.frame :: K) (fun k hk => hc k (List.mem_append_left _ hk))
      (fun k hk => hu k (List.mem_append_left _ hk)) h n (by simpa using hn)

/-! ## The first child of the lowest link -/

theorem isChain_below (ht : Lowest t) (h : a.Holds ((plug K t).entries none + R)) :
    a.isChain (a.firstChild (some t.id)) = false := by
  obtain ⟨i, l, ts⟩ := t
  rw [firstChild_hole h]
  cases ts with
  | nil => rfl
  | cons x ts => exact (isChain_hole (K := ⟨i, l, [], ts⟩ :: K) h).trans (ht.below x rfl)

theorem segmentStartTo_unmarked (ht : Lowest t) (hm : t.label.chainStart = false) (hc : Linked us)
    (hu : Unmarked us) (n : Nat) (h : a.Holds ((plug K (tower t us)).entries none + R)) :
    a.segmentStartTo n (some (tower t us).id) = none := by
  induction us using List.reverseRecOn generalizing K n with
  | nil =>
    have hm : a.isMarked (some t.id) = false := (isMarked_hole h).trans hm
    have hbelow := isChain_below ht h
    obtain _ | n := n
    · rfl
    · simp only [tower_nil, segmentStartTo, hm, Bool.false_eq_true, ite_false, ite_eq_left_iff]
      intro
      obtain _ | n := n
      · rfl
      · cases hx : a.firstChild (some t.id) with
        | none => rfl
        | some x =>
          rw [hx] at hbelow
          simp [segmentStartTo, hbelow]
  | append_singleton us u ih =>
    have hfirst := firstChild_link us u h
    rw [tower_snoc] at h ⊢
    have hm : a.isMarked (some u.id) = false := (isMarked_hole h).trans (hu u (by simp))
    obtain _ | n := n
    · rfl
    · rw [id_node, segmentStartTo, hfirst]
      simp only [hm, Bool.false_eq_true, ite_false, ite_eq_left_iff]
      intro
      exact ih (K := u.frame :: K) (fun k hk => hc k (List.mem_append_left _ hk))
        (fun k hk => hu k (List.mem_append_left _ hk)) n h

theorem chainExitTo_tower (ht : Lowest t) (hc : Linked us) (n : Nat) (hn : us.length < n)
    (h : a.Holds ((plug K (tower t us)).entries none + R)) :
    a.chainExitTo n (some (tower t us).id) = a.firstChild (some t.id) := by
  obtain ⟨n, rfl⟩ : ∃ m, n = m + 1 := ⟨n - 1, by omega⟩
  induction us using List.reverseRecOn generalizing K n with
  | nil =>
    have hch : a.isChain (some t.id) = true := (isChain_hole h).trans ht.isChain
    have hbelow := isChain_below ht h
    rw [tower_nil, chainExitTo, if_pos hch]
    cases hx : a.firstChild (some t.id) with
    | none => cases n <;> rfl
    | some x =>
      rw [hx] at hbelow
      cases n <;> simp [chainExitTo, hbelow]
  | append_singleton us u ih =>
    have hfirst := firstChild_link us u h
    rw [tower_snoc] at h ⊢
    have hch : a.isChain (some u.id) = true := (isChain_hole h).trans (hc u (by simp))
    obtain ⟨n, rfl⟩ : ∃ m, n = m + 1 := ⟨n - 1, by simp at hn; omega⟩
    rw [id_node, chainExitTo, if_pos hch, hfirst]
    exact ih (K := u.frame :: K) (fun k hk => hc k (List.mem_append_left _ hk))
      h n (by simpa using hn)

theorem isChain_top (ht : t.label.kind.isChain = true) (hc : Linked ks)
    (h : a.Holds ((plug K (tower t ks)).entries none + R)) :
    a.isChain (some (tower t ks).id) = true := by
  rw [isChain_hole h]
  rcases List.eq_nil_or_concat ks with rfl | ⟨ls, k, rfl⟩
  · exact ht
  · rw [List.concat_eq_append, tower_snoc]
    exact hc k (by simp)

/-- Where the lowest link of a chain is marked its segments are found, and elsewhere an error at
what is below that link. -/
theorem segmentStartsTo_tower (ht : Lowest t) (n : Nat) :
    ∀ (ks : List Link) (K : Context) (found : List NodeId), Linked ks → ks.length < n →
      n ≤ a.size + 1 → a.Holds ((plug K (tower t ks)).entries none + R) →
      a.segmentStartsTo n (some (tower t ks).id) found =
        if t.label.chainStart then .ok (t.id :: starts ks ++ found)
        else .error ⟨.inconsistentSegment, .of a (a.firstChild (some t.id))⟩ := by
  induction n with
  | zero => intro ks K found _ hn; exact absurd hn (Nat.not_lt_zero _)
  | succ n ih =>
    intro ks K found hc hn hsz h
    have hch := isChain_top ht.isChain hc h
    have hlen := length_lt_size h
    rw [segmentStartsTo, if_pos hch]
    -- the search goes on below the topmost marked link, if there is one above the lowest
    rcases unmarked_or_last_marked ks with hu | ⟨ls, s, us, rfl, hs, hu⟩
    · cases hm : t.label.chainStart with
      | true =>
        have hstart : a.segmentStart? (some (tower t ks).id) = some t.id :=
          segmentStartTo_tower ht.isChain hm hc hu _ hlen h
        have hbelow :=
          isChain_below (K := ks.map Link.frame ++ K) (R := R) ht (by rw [← plug_tower]; exact h)
        have hdone : a.segmentStartsTo n (a.firstChild (some t.id)) (t.id :: found) =
            .ok (t.id :: found) := by
          cases n <;> simp [segmentStartsTo, hbelow]
        simp only [hstart, hdone, starts_of_unmarked hu]
        rfl
      | false =>
        have hstart : a.segmentStart? (some (tower t ks).id) = none :=
          segmentStartTo_unmarked ht hm hc hu _ h
        simp only [hstart, inconsistentSegment, chainExit, chainExitTo_tower ht hc _ hlen h]
        rfl
    · have h' : a.Holds ((plug (us.map Link.frame ++ K) (tower t (ls ++ [s]))).entries
          none + R) := by
        rw [← plug_tower, ← tower_append]
        simpa using h
      have hstart : a.segmentStart? (some (tower t (ls ++ s :: us)).id) = some s.id := by
        rw [tower_append] at h ⊢
        refine segmentStartTo_tower (t := .node s.id s.label (tower t ls :: s.args))
          (hc s (by simp)) hs
          (fun k hk => hc k (by simp [hk])) hu _ ?_ h
        rw [List.length_append, List.length_cons] at hlen
        omega
      simp only [hstart, firstChild_link ls s h']
      rw [ih ls (s.frame :: (us.map Link.frame ++ K)) (s.id :: found)
        (fun k hk => hc k (List.mem_append_left _ hk))
        (by simp at hn; omega) (by omega) (by rw [tower_snoc] at h'; exact h')]
      simp [starts_append, starts_segment hs hu]

theorem segmentStarts_tower (ht : Lowest t) (hc : Linked ks)
    (h : a.Holds ((plug K (tower t ks)).entries none + R)) :
    a.segmentStarts (some (tower t ks).id) = if t.label.chainStart then .ok (t.id :: starts ks)
      else .error ⟨.inconsistentSegment, .of a (a.firstChild (some t.id))⟩ := by
  rw [segmentStarts, segmentStartsTo_tower ht _ ks K [] hc (length_lt_size h) le_rfl h,
    List.append_nil]

/-! ## Upwards -/

theorem isSegmentEnd_hole (h : a.Holds ((plug K t).entries none + R))
    (ht : t.label.kind.isChain = true) :
    a.isSegmentEnd (some t.id) = endsSegment K := by
  rw [isSegmentEnd, isChainEnd_hole h, isChain_hole h, h.parent_hole, ht, endsSegment]
  cases K with
  | nil => simp [isMarked, node?]
  | cons f K =>
    have hm : a.isMarked (some f.id) = f.label.chainStart := by
      rw [isMarked, h.node?_owner]; rfl
    rw [owner_cons, hm]
    simp

theorem segmentEndTo_tower (ht : t.label.kind.isChain = true) (hc : Linked us) (hu : Unmarked us)
    (hK : endsSegment K = true) (n : Nat) (hn : us.length < n)
    (h : a.Holds ((plug K (tower t us)).entries none + R)) :
    a.segmentEndTo n (some t.id) = some (tower t us).id := by
  induction us generalizing t n with
  | nil =>
    obtain ⟨n, rfl⟩ : ∃ m, n = m + 1 := ⟨n - 1, by simp at hn; omega⟩
    have hch : a.isChain (some t.id) = true := (isChain_hole h).trans ht
    have he : a.isSegmentEnd (some t.id) = true := (isSegmentEnd_hole h ht).trans hK
    simp only [segmentEndTo, hch, he]
    rfl
  | cons u us ih =>
    obtain ⟨n, rfl⟩ : ∃ m, n = m + 1 := ⟨n - 1, by omega⟩
    have h' : a.Holds ((plug (u.frame :: (us.map Link.frame ++ K)) t).entries none + R) := by
      rw [plug_tower] at h; exact h
    have huc : u.label.kind.isChain = true := hc u List.mem_cons_self
    have hch : a.isChain (some t.id) = true := (isChain_hole h').trans ht
    have he : a.isSegmentEnd (some t.id) = false := by
      rw [isSegmentEnd_hole h' ht]
      simp [endsSegment, endsChain, Frame.continues, Link.frame, huc, hu u List.mem_cons_self]
    have hp : a.parent (some t.id) = some u.id := h'.parent_hole
    rw [segmentEndTo, hp]
    simp only [hch, he, Bool.not_true, Bool.false_eq_true, ite_false]
    exact ih (t := .node u.id u.label (t :: u.args))
      huc (fun k hk => hc k (List.mem_cons_of_mem _ hk))
      (fun k hk => hu k (List.mem_cons_of_mem _ hk)) n (by simpa using hn) h

theorem segmentEnd?_tower (hs : Linked (s :: us)) (hu : Unmarked us) (hK : endsSegment K = true)
    (h : a.Holds ((plug K (tower x (s :: us))).entries none + R)) :
    a.segmentEnd? (some s.id) = some (tower x (s :: us)).id := by
  have hn := length_lt_size h
  refine segmentEndTo_tower (t := .node s.id s.label (x :: s.args)) (hs s List.mem_cons_self)
    (fun k hk => hs k (List.mem_cons_of_mem _ hk)) hu hK _ ?_ h
  simp only [List.length_cons] at hn
  omega

/-! ## The links of a segment -/

/-- What the links of a segment turn into, the last first. -/
def plainKinds (ks : List Link) : List (Ref × Kind) :=
  (ks.map fun k => (some k.id, k.label.plain.kind)).reverse

theorem plainKinds_snoc (ks : List Link) (k : Link) :
    plainKinds (ks ++ [k]) = (some k.id, k.label.plain.kind) :: plainKinds ks := by
  simp [plainKinds]

theorem plainKinds_cons (k : Link) (ks : List Link) :
    plainKinds (k :: ks) = plainKinds ks ++ [(some k.id, k.label.plain.kind)] := by
  simp [plainKinds]

theorem segmentLinksTo_tower (ht : t.label.kind.isChain = true) (hm : t.label.chainStart = true)
    (hc : Linked us) (hu : Unmarked us) (n : Nat) (hn : us.length < n)
    (h : a.Holds ((plug K (tower t us)).entries none + R)) :
    a.segmentLinksTo n (some (tower t us).id) =
      .ok (plainKinds us ++ [(some t.id, t.label.plain.kind)]) := by
  obtain ⟨n, rfl⟩ : ∃ m, n = m + 1 := ⟨n - 1, by omega⟩
  induction us using List.reverseRecOn generalizing K n with
  | nil =>
    have hk : a.kind? (some t.id) = some t.label.kind := kind?_hole h
    have hm : a.isMarked (some t.id) = true := (isMarked_hole h).trans hm
    simp only [tower_nil, segmentLinksTo, hk, hm, Option.bind_some, plain?_of_isChain ht]
    rfl
  | append_singleton us u ih =>
    have hfirst := firstChild_link us u h
    rw [tower_snoc] at h ⊢
    have hk : a.kind? (some u.id) = some u.label.kind := kind?_hole h
    have hm : a.isMarked (some u.id) = false := (isMarked_hole h).trans (hu u (by simp))
    obtain ⟨n, rfl⟩ : ∃ m, n = m + 1 := ⟨n - 1, by simp at hn; omega⟩
    rw [id_node, segmentLinksTo, hfirst]
    simp only [hk, hm, plain?_of_isChain (hc u (by simp)), Option.bind_some,
      Bool.false_eq_true, ite_false]
    rw [ih (K := u.frame :: K) (fun k hk => hc k (List.mem_append_left _ hk))
      (fun k hk => hu k (List.mem_append_left _ hk)) h n
      (by simpa using hn), plainKinds_snoc]
    rfl

theorem segmentLinks_tower (ht : t.label.kind.isChain = true) (hm : t.label.chainStart = true)
    (hc : Linked us) (hu : Unmarked us) (h : a.Holds ((plug K (tower t us)).entries none + R)) :
    a.segmentLinks (some (tower t us).id) =
      .ok (plainKinds us ++ [(some t.id, t.label.plain.kind)]) :=
  segmentLinksTo_tower ht hm hc hu _ (length_lt_size h) h

end Arena

namespace Lower

variable {σ : Type} {w : Work σ} {K : Context} {x : Grown} {R : Entries} {s : Link}
    {us ks : List Link}

theorem makePlain_links {Q : Unit → Work σ → Prop}
    (h : w.arena.Holds ((plug K (tower x ks)).entries none + R))
    (hQ : ∀ a : Arena, a.Holds ((plug K (tower x (ks.map Link.plain))).entries none + R) →
      a.features = w.arena.features → Q () { w with arena := a }) :
    Does ((plainKinds ks).forM fun (r, k) => edit fun a =>
      .ok ((a.setMarked r false).setKind r k)) w Q := by
  induction ks using List.reverseRecOn generalizing K w with
  | nil => exact does_pure (hQ _ h rfl)
  | append_singleton ks k ih =>
    rw [plainKinds_snoc, List.forM_eq_forM, List.forM_cons]
    rw [tower_snoc] at h
    refine .bind (does_edit rfl ?_)
    refine ih (K := k.plain.frame :: K) (w := { w with arena := _ }) (setPlain_holds _ h) ?_
    intro b hb hf
    refine hQ b ?_ (hf.trans (by simp [setKind, setMarked]))
    rw [List.map_append, List.map_singleton, tower_snoc]
    exact hb

theorem makePlain_segment (hs : s.label.chainStart = true) (hc : Linked (s :: us))
    (hu : Unmarked us) {Q : Unit → Work σ → Prop}
    (h : w.arena.Holds ((plug K (tower x (s :: us))).entries none + R))
    (hQ : ∀ a : Arena, a.Holds ((plug K (tower x ((s :: us).map Link.plain))).entries none + R) →
      a.features = w.arena.features → Q () { w with arena := a }) :
    Does (makePlain (some (tower x (s :: us)).id)) w Q := by
  refine .bind (does_arena (.bind ?_))
  have hlinks : w.arena.segmentLinks (some (tower x (s :: us)).id) =
      .ok (plainKinds (s :: us)) := by
    rw [plainKinds_cons]
    exact segmentLinks_tower (t := .node s.id s.label (x :: s.args)) (hc s List.mem_cons_self)
      hs (fun k hk => hc k (List.mem_cons_of_mem _ hk)) hu h
  rw [hlinks]
  exact does_checked (makePlain_links h hQ)

end Lower

end ChainLowering
