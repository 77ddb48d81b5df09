import Mathlib.Data.List.Chain
import ChainLowering.Proofs.Rejection

/-!
# Segments partition a chain

The links of a chain are a list, its end first and each followed by its first
child. A walk down goes along this list and a walk up against it, so both
meet at the same borders: a segment begins at a marked link and goes up to
the link that the next marked one is put on.
-/

namespace ChainLowering

open Grown

namespace Arena

/-- The links of a chain, its end first and each followed by its first child. -/
structure IsSpine (a : Arena) (e : NodeId) (l : List NodeId) : Prop where
  head : l.head? = some e
  isChain : ∀ i ∈ l, a.isChain (some i) = true
  steps : l.IsChain fun i j => a.firstChild (some i) = some j
  /-- No more links follow. -/
  stops : ∀ i ∈ l.getLast?, a.isChain (a.firstChild (some i)) = false

/-- The links that begin a segment, in the order of the list. -/
def markedOf (a : Arena) (l : List NodeId) : List NodeId := l.filter fun i => a.isMarked (some i)

/-- The links from `x` upwards, where `us` are those above it, up to the next marked one. -/
def unmarkedAbove (a : Arena) (x : NodeId) (us : List NodeId) : List NodeId :=
  x :: us.reverse.takeWhile fun i => !a.isMarked (some i)

/-- What is found of a chain that ends at `e` and has the links `l`. -/
structure Partitions (a : Arena) (e : NodeId) (l : List NodeId) : Prop where
  starts : a.checkedSegmentStarts (some e) = .ok (a.markedOf l).reverse
  nonempty : a.markedOf l ≠ []
  /-- Downwards the nearest marked link is found. -/
  down : ∀ us x ds, l = us ++ x :: ds →
    ∃ s, (x :: ds).find? (fun i => a.isMarked (some i)) = some s ∧ a.segmentStart? (some x) = some s
  /-- Upwards the last link before a marked one is found. -/
  up : ∀ us x ds, l = us ++ x :: ds → a.segmentEnd? (some x) = (a.unmarkedAbove x us).getLast?
  /-- A segment ends where the next one, which is above it, begins. -/
  border : ∀ us i j ds, (a.markedOf l).reverse = us ++ i :: j :: ds →
    a.segmentEnd? (some i) = a.firstChild (some j)
  last : ∀ i ∈ (a.markedOf l).reverse.getLast?, a.segmentEnd? (some i) = some e

variable {a : Arena} {e i j x : NodeId} {l us ds : List NodeId} {t : Grown} {ks : List Link}
    {K : Context} {R : Entries}

namespace IsSpine

theorem singleton (he : a.isChain (some e) = true) (hs : a.isChain (a.firstChild (some e)) =
    false) : a.IsSpine e [e] :=
  ⟨rfl, by simpa using he, .singleton _, by simpa using hs⟩

theorem cons (he : a.isChain (some e) = true) (hj : a.firstChild (some e) = some j)
    (h : a.IsSpine j l) :
    a.IsSpine e (e :: l) := by
  obtain ⟨k, l, rfl⟩ : ∃ k l', l = k :: l' :=
    List.exists_cons_of_ne_nil (by rintro rfl; cases h.head)
  obtain rfl := Option.some.inj h.head
  exact ⟨rfl, List.forall_mem_cons.mpr ⟨he, h.isChain⟩,
    .cons_cons hj h.steps, by simpa using h.stops⟩

theorem from_link (h : a.IsSpine e (us ++ x :: ds)) : a.IsSpine x (x :: ds) where
  head := rfl
  isChain i hi := h.isChain i (List.mem_append_right _ hi)
  steps := h.steps.right_of_append
  stops i hi := h.stops i (by rwa [List.getLast?_append_of_ne_nil _ (List.cons_ne_nil _ _)])

theorem next (h : a.IsSpine e (us ++ x :: j :: ds)) : a.firstChild (some x) = some j :=
  (List.isChain_cons_cons.mp h.from_link.steps).1

theorem below (h : a.IsSpine e (us ++ [x])) : a.isChain (a.firstChild (some x)) = false :=
  h.stops x (by simp)

end IsSpine

/-! ## Downwards -/

theorem isSpine_spineTo (n : Nat) (he : a.isChain (some e) = true)
    (hn : (a.spineTo n (some e)).length < n) :
    a.IsSpine e (a.spineTo n (some e)) := by
  induction n generalizing e with
  | zero => exact absurd hn (Nat.not_lt_zero _)
  | succ n ih =>
    rw [spineTo, if_pos he] at hn ⊢
    rw [List.length_cons, Nat.add_lt_add_iff_right] at hn
    cases hx : a.firstChild (some e) with
    | none =>
      rw [show a.spineTo n none = [] by cases n <;> rfl]
      exact .singleton he (by rw [hx]; rfl)
    | some j =>
      rw [hx] at hn
      cases hj : a.isChain (some j) with
      | true => exact .cons he hx (ih hj hn)
      | false =>
        rw [show a.spineTo n (some j) = [] by cases n <;> simp [spineTo, hj]]
        exact .singleton he (by rw [hx]; exact hj)

theorem segmentStartTo_spine {n : Nat} (h : a.IsSpine x l) (hn : l.length ≤ n) :
    a.segmentStartTo n (some x) = l.find? fun i => a.isMarked (some i) := by
  induction n generalizing x l with
  | zero =>
    obtain rfl := List.length_eq_zero_iff.mp (Nat.le_zero.mp hn)
    rfl
  | succ n ih =>
    obtain ⟨k, ds, rfl⟩ : ∃ k l', l = k :: l' :=
      List.exists_cons_of_ne_nil (by rintro rfl; cases h.head)
    obtain rfl := Option.some.inj h.head
    have hx := h.isChain k List.mem_cons_self
    rw [segmentStartTo]
    cases hm : a.isMarked (some k) with
    | true => simp [hx, hm]
    | false =>
      rw [List.find?_cons_of_neg (by simp [hm])]
      simp only [hx, Bool.not_true, Bool.false_eq_true, ite_false]
      -- the walk ends below the last link, where nothing is a link
      cases ds with
      | nil =>
        have hlast : a.IsSpine k ([] ++ [k]) := h
        have hbelow := hlast.below
        cases hc : a.firstChild (some k) with
        | none => cases n <;> rfl
        | some j =>
          rw [hc] at hbelow
          cases n <;> simp [segmentStartTo, hbelow]
      | cons j ds =>
        have hlink : a.IsSpine k ([] ++ k :: j :: ds) := h
        have hrest : a.IsSpine k ([k] ++ j :: ds) := h
        rw [hlink.next]
        exact ih hrest.from_link (by simpa using hn)

/-! ## Upwards -/

theorem not_isChainEnd (ha : Consistent a) (hx : a.isChain (some x) = true)
    (hc : a.firstChild (some x) = some j) :
    a.parent (some j) = some x ∧ a.isChainEnd (some j) = false := by
  have hmem : some j ∈ a.children (some x) := by
    rw [firstChild, Option.join_eq_some_iff] at hc
    exact List.mem_of_mem_head? hc
  obtain ⟨-, -, hp⟩ := ha.child hmem
  exact ⟨hp, by simp [isChainEnd, isFirstChild, hp, hx, hc]⟩

theorem segmentEndTo_spine (ha : Consistent a) (he : a.isChainEnd (some e) = true) {n : Nat}
    (h : a.IsSpine e (us ++ x :: ds)) (hn : us.length < n) :
    a.segmentEndTo n (some x) = (a.unmarkedAbove x us).getLast? := by
  induction us using List.reverseRecOn generalizing x ds n with
  | nil =>
    obtain ⟨n, rfl⟩ : ∃ m, n = m + 1 := ⟨n - 1, by simp at hn; omega⟩
    obtain rfl := Option.some.inj h.head
    simp [segmentEndTo, isSegmentEnd, he, isChain_of_end he, unmarkedAbove]
  | append_singleton us p ih =>
    obtain ⟨n, rfl⟩ : ∃ m, n = m + 1 := ⟨n - 1, by omega⟩
    rw [List.append_assoc, List.singleton_append] at h
    obtain ⟨hp, hend⟩ := not_isChainEnd ha (h.isChain p (by simp)) h.next
    have hx := h.isChain x (by simp)
    rw [segmentEndTo, isSegmentEnd, hend, hx, hp]
    cases hm : a.isMarked (some p) with
    | true => simp [unmarkedAbove, hm]
    | false =>
      have hstep : (a.unmarkedAbove x (us ++ [p])).getLast? = (a.unmarkedAbove p us).getLast? := by
        simp [unmarkedAbove, hm]
      rw [hstep]
      exact ih h (by simpa using hn)

/-! ## The chain that a link belongs to -/

theorem end_unique (ha : Consistent a) {e' : NodeId} {l' : List NodeId}
    (he : a.isChainEnd (some e) = true) (h : a.IsSpine e l) (he' : a.isChainEnd (some e') = true)
    (h' : a.IsSpine e' l') (hi : i ∈ l) (hi' : i ∈ l') : e' = e := by
  obtain ⟨us, ds, rfl⟩ := List.append_of_mem hi
  obtain ⟨us', ds', rfl⟩ := List.append_of_mem hi'
  clear hi hi'
  induction us using List.reverseRecOn generalizing i ds us' ds' with
  | nil =>
    obtain rfl := Option.some.inj h.head
    rcases List.eq_nil_or_concat us' with rfl | ⟨us', p, rfl⟩
    · exact (Option.some.inj h'.head).symm
    · rw [List.concat_eq_append, List.append_assoc, List.singleton_append] at h'
      obtain ⟨-, hend⟩ := not_isChainEnd ha (h'.isChain p (by simp)) h'.next
      exact absurd (he.symm.trans hend) Bool.noConfusion
  | append_singleton us p ih =>
    rw [List.append_assoc, List.singleton_append] at h
    obtain ⟨hp, hend⟩ := not_isChainEnd ha (h.isChain p (by simp)) h.next
    rcases List.eq_nil_or_concat us' with rfl | ⟨us', p', rfl⟩
    · obtain rfl := Option.some.inj h'.head
      exact absurd (he'.symm.trans hend) Bool.noConfusion
    · rw [List.concat_eq_append, List.append_assoc, List.singleton_append] at h'
      obtain ⟨hp', -⟩ := not_isChainEnd ha (h'.isChain p' (by simp)) h'.next
      obtain rfl := Option.some.inj (hp.symm.trans hp')
      exact ih _ h _ _ h'

end Arena

namespace Grown

theorem exists_links_around (K : Context) :
    ∃ ls M, K = ls.map Link.frame ++ M ∧ Linked ls ∧ endsChain M = true := by
  induction K with
  | nil => exact ⟨[], [], rfl, by simp [Linked], rfl⟩
  | cons f K ih =>
    cases hf : f.continues with
    | false => exact ⟨[], f :: K, rfl, by simp [Linked], by simp [endsChain, hf]⟩
    | true =>
      obtain ⟨ls, M, rfl, hc, hM⟩ := ih
      rw [Frame.continues, Bool.and_eq_true, List.isEmpty_iff] at hf
      refine ⟨⟨f.id, f.label, f.right⟩ :: ls, M, ?_, List.forall_mem_cons.mpr ⟨hf.1, hc⟩, hM⟩
      rw [List.map_cons, List.cons_append, Link.frame, ← hf.2]

theorem id_tower_mem (t : Grown) (ks ls : List Link) :
    (tower t ks).id ∈ t.id :: (ks ++ ls).map Link.id := by
  rcases List.eq_nil_or_concat ks with rfl | ⟨ks, k, rfl⟩
  · exact List.mem_cons_self
  · rw [List.concat_eq_append, tower_snoc]
    simp

end Grown

namespace Arena

variable {a : Arena} {e i : NodeId}

theorem length_spine_le (hf : Forest a) (he : a.isChain (some e) = true) :
    (a.spine (some e)).length ≤ a.size := by
  obtain ⟨t, ks, K, us, hid, ht, hc, h⟩ := hf.exists_chain he
  obtain rfl := Option.some.inj hid
  rw [spine_tower ht hc h]
  rw [plug_tower] at h
  have := h.length_le
  simp only [List.length_append, List.length_map, List.length_reverse, List.length_cons] at this ⊢
  omega

theorem isSpine_spine (hf : Forest a) (he : a.isChain (some e) = true) :
    a.IsSpine e (a.spine (some e)) :=
  isSpine_spineTo _ he (Nat.lt_succ_of_le (length_spine_le hf he))

theorem exists_end (hf : Forest a) (hi : a.isChain (some i) = true) :
    ∃ e, a.isChainEnd (some e) = true ∧ i ∈ a.spine (some e) := by
  obtain ⟨t, ks, K, us, hid, ht, hc, h⟩ := hf.exists_chain hi
  obtain rfl := Option.some.inj hid
  obtain ⟨ls, M, rfl, hls, hM⟩ := exists_links_around K
  rw [plug_append] at h
  change a.Holds ((plug M (tower (tower t ks) ls)).entries none + _) at h
  rw [← tower_append] at h
  have hall : Linked (ks ++ ls) := fun k hk => (List.mem_append.mp hk).elim (hc k) (hls k)
  refine ⟨(tower t (ks ++ ls)).id, ?_, ?_⟩
  · rw [isChainEnd_hole h, hM, Bool.and_true, ← isChain_hole h]
    exact isChain_top ht.isChain hall h
  · rw [spine_tower ht hall h, List.mem_reverse]
    exact id_tower_mem t ks ls

/-- Each marked link begins a segment, and nothing else does. -/
theorem segmentStarts_spine (hf : Forest a) (he : a.isChain (some e) = true)
    (hm : ∀ i ∈ (a.spine (some e)).getLast?, a.isMarked (some i) = true) :
    a.segmentStarts (some e) = .ok (a.markedOf (a.spine (some e))).reverse := by
  obtain ⟨t, ks, K, us, hid, ht, hc, h⟩ := hf.exists_chain he
  obtain rfl := Option.some.inj hid
  have h' : a.Holds ((plug (ks.map Link.frame ++ K) t).entries none + entriesAll none us) := by
    rw [← plug_tower]
    exact h
  have hmark : t.label.chainStart = true :=
    (isMarked_hole h').symm.trans (hm _ (getLast?_spine ht hc h))
  have hlinks : ∀ k ∈ ks, a.isMarked (some k.id) = k.label.chainStart := by
    intro k hk
    obtain ⟨ls, us', rfl⟩ := List.append_of_mem hk
    rw [← List.singleton_append, ← List.append_assoc, tower_append, tower_snoc, plug_tower] at h
    exact isMarked_hole h
  have hfilter : a.markedOf (ks.map Link.id) = starts ks := by
    rw [markedOf, List.filter_map, starts]
    exact congrArg _ (List.filter_congr hlinks)
  have hlowest : a.markedOf (t.id :: ks.map Link.id) = t.id :: starts ks := by
    rw [← hfilter]
    exact List.filter_cons_of_pos ((isMarked_hole h').trans hmark)
  rw [segmentStarts_tower ht hc h, if_pos hmark, spine_tower ht hc h, ← hlowest, markedOf, markedOf,
    List.filter_reverse, List.reverse_reverse]

/-! ## Borders -/

variable {l us ms ds : List NodeId} {j x : NodeId}

theorem exists_border (h : a.markedOf l = us ++ j :: i :: ds) :
    ∃ vs ms zs, l = vs ++ j :: (ms ++ i :: zs) ∧ a.isMarked (some j) = true ∧ ∀ k ∈ ms,
      a.isMarked (some k) = false := by
  obtain ⟨vs, ws, rfl, -, hws⟩ := List.filter_eq_append_iff.mp h
  obtain ⟨vs', ws, rfl, -, hj, hws⟩ := List.filter_eq_cons_iff.mp hws
  obtain ⟨ms, zs, rfl, hms, -, -⟩ := List.filter_eq_cons_iff.mp hws
  exact ⟨vs ++ vs', ms, zs, by simp, hj, by simpa using hms⟩

theorem getLast?_unmarkedAbove (hm : ∀ k ∈ ms, a.isMarked (some k) = false)
    (hj : a.isMarked (some j) = true) :
    (a.unmarkedAbove i (us ++ j :: ms)).getLast? = (ms ++ [i]).head? := by
  have htake : (us ++ j :: ms).reverse.takeWhile (fun k => !a.isMarked (some k)) = ms.reverse := by
    rw [List.reverse_append, List.reverse_cons, List.append_assoc, List.takeWhile_append_of_pos,
      List.singleton_append,
      List.takeWhile_cons_of_neg (by simp [hj]), List.append_nil]
    exact fun k hk => by simp [hm k (List.mem_reverse.mp hk)]
  rw [unmarkedAbove, htake, ← List.reverse_concat, List.getLast?_reverse]

theorem getLast?_unmarkedAbove_all (hm : ∀ k ∈ us, a.isMarked (some k) = false) :
    (a.unmarkedAbove i us).getLast? = (us ++ [i]).head? := by
  have htake : us.reverse.takeWhile (fun k => !a.isMarked (some k)) = us.reverse :=
    List.takeWhile_eq_self_iff.mpr fun k hk => by simp [hm k (List.mem_reverse.mp hk)]
  rw [unmarkedAbove, htake, ← List.reverse_concat, List.getLast?_reverse]

section
variable (hf : Forest a) (he : a.isChainEnd (some e) = true)
include hf he

theorem segmentStart?_spine (hl : a.spine (some e) = us ++ x :: ds) :
    a.segmentStart? (some x) = (x :: ds).find? fun i => a.isMarked (some i) := by
  have hs := isSpine_spine hf (isChain_of_end he)
  have hlen := length_spine_le hf (isChain_of_end he)
  rw [hl] at hs hlen
  refine segmentStartTo_spine hs.from_link ?_
  rw [List.length_append] at hlen
  omega

theorem segmentEnd?_spine (hl : a.spine (some e) = us ++ x :: ds) :
    a.segmentEnd? (some x) = (a.unmarkedAbove x us).getLast? := by
  have hs := isSpine_spine hf (isChain_of_end he)
  have hlen := length_spine_le hf (isChain_of_end he)
  rw [hl] at hs hlen
  refine segmentEndTo_spine hf.consistent he hs ?_
  rw [List.length_append, List.length_cons] at hlen
  omega

theorem segmentEnd?_border (h : a.markedOf (a.spine (some e)) = us ++ j :: i :: ds) :
    a.segmentEnd? (some i) = a.firstChild (some j) := by
  have hs := isSpine_spine hf (isChain_of_end he)
  obtain ⟨vs, ms, zs, hl, hj, hms⟩ := exists_border h
  have hl' : a.spine (some e) = (vs ++ j :: ms) ++ i :: zs := by simp [hl]
  rw [segmentEnd?_spine hf he hl', getLast?_unmarkedAbove hms hj]
  rw [hl] at hs
  cases ms with
  | nil => exact hs.next.symm
  | cons k ms => exact hs.next.symm

theorem segmentEnd?_last (h : a.markedOf (a.spine (some e)) = i :: ds) :
    a.segmentEnd? (some i) = some e := by
  have hs := isSpine_spine hf (isChain_of_end he)
  obtain ⟨us, zs, hl, hus, -, -⟩ := List.filter_eq_cons_iff.mp h
  rw [segmentEnd?_spine hf he hl, getLast?_unmarkedAbove_all (by simpa using hus), ← hs.head, hl]
  cases us <;> rfl

theorem partitions_spine (hm : ∀ i ∈ (a.spine (some e)).getLast?, a.isMarked (some i) = true) :
    a.Partitions e (a.spine (some e)) := by
  have hstarts := segmentStarts_spine hf (isChain_of_end he) hm
  obtain ⟨y, hy⟩ : ∃ y, (a.spine (some e)).getLast? = some y := by
    have hhead := (isSpine_spine hf (isChain_of_end he)).head
    cases hl : a.spine (some e) with
    | nil => rw [hl] at hhead; cases hhead
    | cons z l => exact ⟨_, List.getLast?_cons⟩
  refine ⟨?_, ?_, fun us x ds hl => ?_, fun us x ds hl => segmentEnd?_spine hf he hl,
    fun us i j ds hl => ?_, fun i hi => ?_⟩
  · rw [checkedSegmentStarts, checkChainEnd_ok he]
    exact hstarts
  · exact List.ne_nil_of_mem (List.mem_filter.mpr ⟨List.mem_of_getLast? hy, hm y hy⟩)
  · rw [segmentStart?_spine hf he hl]
    rw [hl, List.getLast?_append_of_ne_nil _ (List.cons_ne_nil _ _)] at hm hy
    have hfound : ((x :: ds).find? fun i => a.isMarked (some i)).isSome :=
      List.find?_isSome.mpr ⟨y, List.mem_of_getLast? hy, hm y hy⟩
    obtain ⟨s, hs⟩ := Option.isSome_iff_exists.mp hfound
    exact ⟨s, hs, hs⟩
  · rw [List.reverse_eq_iff, List.reverse_append, List.reverse_cons, List.reverse_cons,
      List.append_assoc, List.append_assoc] at hl
    exact segmentEnd?_border hf he hl
  · rw [List.getLast?_reverse] at hi
    obtain ⟨zs, hzs⟩ := List.head?_eq_some_iff.mp hi
    exact segmentEnd?_last hf he hzs

end

/-- Every link belongs to one chain, and segments whose borders both walks agree on partition the
chain. -/
theorem segments_partition (hf : Forest a) :
    (∀ i, a.isChain (some i) = true → ∃! e, a.isChainEnd (some e) = true ∧ i ∈ a.spine (some e)) ∧
      ∀ e, a.isChainEnd (some e) = true → a.IsSpine e (a.spine (some e)) ∧
        ((∀ i ∈ (a.spine (some e)).getLast?, a.isMarked (some i) = true) →
          a.Partitions e (a.spine (some e))) := by
  refine ⟨fun i hi => ?_,
    fun e he => ⟨isSpine_spine hf (isChain_of_end he), partitions_spine hf he⟩⟩
  obtain ⟨e, he, hmem⟩ := exists_end hf hi
  refine ⟨e, ⟨he, hmem⟩, fun e' ⟨he', hmem'⟩ => ?_⟩
  exact end_unique hf.consistent he (isSpine_spine hf (isChain_of_end he))
    he' (isSpine_spine hf (isChain_of_end he')) hmem hmem'

/-- `a?.b.c?.[x?.y](z);` -/
def nestedEdits : List Edit :=
  [.addNode { kind := .name, text := "a" } [],
    .addNode { kind := .chainProp, text := "b", chainStart := true } [0],
    .addNode { kind := .chainProp, text := "c" } [1], .addNode { kind := .name, text := "x" } [],
    .addNode { kind := .chainProp, text := "y", chainStart := true } [3],
    .addNode { kind := .chainElem, chainStart := true } [2, 4],
    .addNode { kind := .name, text := "z" } [], .addNode { kind := .chainCall } [5, 6],
    .addNode { kind := .exprStmt } [7], .addNode { kind := .script } [8]]

theorem segments_partition_sample : ∃ a, Edit.run? Edit.isApart nestedEdits {} = some a ∧ a.Forest ∧
    (∃! e, a.isChainEnd (some e) = true ∧ 2 ∈ a.spine (some e)) ∧ a.isChainEnd (some 7) = true ∧
    a.IsSpine 7 [7, 5, 2, 1] ∧ a.Partitions 7 [7, 5, 2, 1] := by
  obtain ⟨a, ha⟩ : ∃ a, Edit.run? Edit.isApart nestedEdits {} = some a :=
    Option.isSome_iff_exists.mp (by decide +kernel)
  have hlook : (Edit.run? Edit.isApart nestedEdits {}).map
    (fun a => (a.isChain (some 2), a.isChainEnd (some 7), a.spine (some 7),
      a.isMarked (some 1))) = some (true, true, [7, 5, 2, 1], true) := by decide +kernel
  rw [ha, Option.map_some, Option.some_inj, Prod.mk.injEq, Prod.mk.injEq, Prod.mk.injEq] at hlook
  obtain ⟨hlink, hend, hspine, hmark⟩ := hlook
  obtain ⟨hone, hparts⟩ := segments_partition (forest_run ha)
  obtain ⟨hs, hpart⟩ := hparts 7 hend
  rw [hspine] at hs hpart
  exact ⟨a, ha, forest_run ha, hone 2 hlink, hend, hs, hpart (by simpa using hmark)⟩

end Arena

end ChainLowering
