import Mathlib.Data.List.Range
import ChainLowering.Proofs.Fresh

/-!
# Names that are drawn while others are reserved

Names are reserved and drawn in any order. A name that is handed out is an
earlier candidate than all that are left, so only reserved names stand in the
way of a search, and it ends before it has seen more candidates than there
are reserved names, and one more. The generator comes to each candidate once,
and leaves it out if it is reserved by then.
-/

namespace ChainLowering

namespace Names

/-- What a generator is asked for. -/
inductive Request
  | reserve (name : String)
  /-- The names that stand at and below a node. -/
  | reserveIn (a : Arena) (root : Ref)
  | draw

namespace Request

/-- A request asks to reserve `s`: by itself, or as the text of a name node at or below a node. -/
def Reserves (s : String) : Request → Prop
  | reserve t => s = t
  | reserveIn a root => ∃ i ∈ a.preorder root, ∃ n, a.node? (some i) = some n ∧ n.kind = .name ∧
      n.text = some s
  | draw => False

/-- The names that a request hands out. -/
def hands (g : Names) : Request → List String
  | draw => [g.fresh.1]
  | _ => []

def serve (g : Names) : Request → Names
  | reserve s => g.reserve s
  | reserveIn a root => g.reserveIn a root
  | draw => g.fresh.2

/-- The numbers of the candidates that the generator comes to. -/
def comesTo (g : Names) : Request → List Nat
  | draw => List.range' g.next (g.fresh.2.next - g.next)
  | _ => []

end Request

open Request

def serveAll (g : Names) (rs : List Request) : Names := rs.foldl Request.serve g

/-- The names that are handed out, in order. -/
def handed (g : Names) : List Request → List String
  | [] => []
  | r :: rs => r.hands g ++ handed (r.serve g) rs

/-- The candidates in the order in which the generator comes to them, each with the names that are
reserved by then. -/
def reached (g : Names) : List Request → List (Nat × List String)
  | [] => []
  | r :: rs => (r.comesTo g).map (·, g.reserved) ++ reached (r.serve g) rs

/-- A search that stands at one candidate goes on to the next while they are taken, up to one that
is free. -/
inductive Searches (g : Names) : Nat → Nat → Prop
  | free {k : Nat} (free : g.isReserved (candidate k) = false) : Searches g k k
  | taken {k j : Nat} (taken : g.isReserved (candidate k) = true)
      (searches : Searches g (k + 1) j) : Searches g k j

/-- Names are handed out in the order of candidates, and no name is listed twice. -/
structure Orderly (g : Names) : Prop where
  earlier : ∀ s ∈ g.generated, ∃ k < g.next, s = candidate k
  reserved : g.reserved.Nodup

/-- A draw ends, with a candidate that is not reserved. Its search comes to at most one candidate
more than there are reserved names. -/
structure Draw (g : Names) (j : Nat) : Prop where
  searches : g.Searches g.next j
  different : g.reserved.Nodup
  few : j + 1 - g.next ≤ g.reserved.length + 1
  unreserved : candidate j ∉ g.reserved
  fresh : g.fresh = (candidate j, { g with next := j + 1, generated := candidate j :: g.generated })

variable {g : Names} {n k j : Nat} {s : String} {taken : String → Bool} {rs : List Request}

/-! ## One search -/

theorem Searches.le (h : g.Searches k j) : k ≤ j := by
  induction h with
  | free => exact le_rfl
  | taken _ _ ih => exact Nat.le_of_succ_le ih

theorem Searches.isReserved_end (h : g.Searches k j) : g.isReserved (candidate j) = false := by
  induction h with
  | free h => exact h
  | taken _ _ ih => exact ih

theorem Searches.isReserved_before (h : g.Searches k j) {i : Nat} (hk : k ≤ i) (hj : i < j) :
    g.isReserved (candidate i) = true := by
  induction h with
  | free => omega
  | @taken k j taken _ ih =>
    obtain rfl | hk := Nat.eq_or_lt_of_le hk
    · exact taken
    · exact ih hk hj

theorem searches_firstFree (h : g.isReserved (candidate (firstFree g.isReserved n k)) = false) :
    g.Searches k (firstFree g.isReserved n k) := by
  induction n generalizing k with
  | zero => exact .free h
  | succ n ih =>
    unfold firstFree at h ⊢
    split_ifs with hk
    · rw [if_pos hk] at h
      exact .taken hk (ih h)
    · exact .free (by simpa using hk)

theorem Orderly.notMem_generated (h : g.Orderly) (hk : g.next ≤ k) : candidate k ∉ g.generated := by
  intro hmem
  obtain ⟨i, hi, e⟩ := h.earlier _ hmem
  obtain rfl := candidate_injective e
  exact absurd hk (Nat.not_le.mpr hi)

theorem Orderly.mem_reserved (h : g.Orderly) (hk : g.next ≤ k) : candidate k ∈ g.reserved ↔
    g.isReserved (candidate k) = true := by
  simp [isReserved, h.notMem_generated hk]

/-- Different names stand in the way of a search, and all of them are reserved. -/
theorem Orderly.few (h : g.Orderly) (hs : g.Searches g.next j) :
    j - g.next ≤ g.reserved.length := by
  have hnodup : ((List.range' g.next (j - g.next)).map candidate).Nodup :=
    (List.nodup_range' ..).map candidate_injective
  have hsub : (List.range' g.next (j - g.next)).map candidate ⊆ g.reserved := by
    intro s hs'
    obtain ⟨i, hi, rfl⟩ := List.mem_map.mp hs'
    obtain ⟨hle, hlt⟩ := List.mem_range'_1.mp hi
    exact (h.mem_reserved hle).mpr (hs.isReserved_before hle (by omega))
  have hlen := (List.subperm_of_subset hnodup hsub).length_le
  rwa [List.length_map, List.length_range'] at hlen

theorem Orderly.exists_draw (h : g.Orderly) : ∃ j, g.Draw j := by
  have hs := searches_firstFree (isReserved_fresh g)
  refine ⟨_, hs, h.reserved, ?_, ?_, rfl⟩
  · have := h.few hs
    omega
  · rw [h.mem_reserved hs.le, hs.isReserved_end]
    exact Bool.noConfusion

/-! ## One request -/

theorem nameAt?_eq_some {a : Arena} {r : Ref} :
    nameAt? a r = some s ↔ ∃ n, a.node? r = some n ∧ n.kind = .name ∧ n.text = some s := by
  unfold nameAt? Arena.isName Arena.isKind Arena.kind? Arena.text?
  cases a.node? r with
  | none => simp
  | some n => simp

theorem reserveIn_eq (g : Names) (a : Arena) (root : Ref) :
    g.reserveIn a root = ((a.preorder root).filterMap fun (i : NodeId) =>
      nameAt? a i).foldl Names.reserve g := by
  rw [reserveIn, List.foldl_filterMap]
  congr 1
  funext g i
  cases nameAt? a (some i) <;> rfl

theorem next_foldl_reserve (ss : List String) (g : Names) :
    (ss.foldl Names.reserve g).next = g.next := by
  induction ss generalizing g with
  | nil => rfl
  | cons s ss ih => exact ih _

theorem nodup_foldl_reserve (ss : List String) (h : g.reserved.Nodup) :
    (ss.foldl Names.reserve g).reserved.Nodup := by
  induction ss generalizing g with
  | nil => exact h
  | cons s ss ih => exact ih h.insert

theorem serve_cases (g : Names) (r : Request) : r = .draw ∨
    ∃ ss : List String, r.serve g = ss.foldl Names.reserve g ∧ (∀ s, s ∈ ss ↔ r.Reserves s) ∧
    r.hands g = [] ∧ r.comesTo g = [] := by
  cases r with
  | reserve s => exact .inr ⟨[s], rfl, fun _ => List.mem_singleton, rfl, rfl⟩
  | reserveIn a root =>
    refine .inr ⟨_, reserveIn_eq g a root, fun s => ?_, rfl, rfl⟩
    simp only [List.mem_filterMap, nameAt?_eq_some, Request.Reserves]
  | draw => exact .inl rfl

theorem Orderly.serve (h : g.Orderly) (r : Request) : (r.serve g).Orderly := by
  obtain rfl | ⟨ss, e, -⟩ := serve_cases g r
  · obtain ⟨j, hj⟩ := h.exists_draw
    rw [Request.serve, hj.fresh]
    refine ⟨fun s hs => ?_, h.reserved⟩
    obtain rfl | hs := List.mem_cons.mp hs
    · exact ⟨j, Nat.lt_succ_self j, rfl⟩
    · obtain ⟨k, hk, rfl⟩ := h.earlier s hs
      exact ⟨k, by have := hj.searches.le; dsimp only; omega, rfl⟩
  · rw [e]
    refine ⟨fun s hs => ?_, nodup_foldl_reserve _ h.reserved⟩
    rw [generated_foldl_reserve] at hs
    rw [next_foldl_reserve]
    exact h.earlier s hs

theorem generated_serve (g : Names) (r : Request) :
    (r.serve g).generated = (r.hands g).reverse ++ g.generated := by
  obtain rfl | ⟨ss, e, -, hands, -⟩ := serve_cases g r
  · rfl
  · rw [e, hands, generated_foldl_reserve]
    rfl

theorem mem_reserved_serve (g : Names) (r : Request) : s ∈ (r.serve g).reserved ↔
    r.Reserves s ∨ s ∈ g.reserved := by
  obtain rfl | ⟨ss, e, mem, -, -⟩ := serve_cases g r
  · simp [Request.serve, Names.fresh, Request.Reserves]
  · rw [e, mem_foldl_reserve, mem]

theorem Orderly.hands_eq (h : g.Orderly) (r : Request) :
    r.hands g = ((r.comesTo g).filter fun k => candidate k ∉ g.reserved).map candidate := by
  obtain rfl | ⟨-, -, -, hands, comesTo⟩ := serve_cases g r
  · obtain ⟨j, hj⟩ := h.exists_draw
    have hle := hj.searches.le
    have hrow : List.range' g.next (j + 1 - g.next) = List.range' g.next (j - g.next) ++ [j] := by
      rw [show j + 1 - g.next = (j - g.next) + 1 by omega, List.range'_concat]
      simp only [Nat.one_mul, Nat.add_sub_cancel' hle]
    have hskip : (List.range' g.next (j - g.next)).filter (fun k =>
        candidate k ∉ g.reserved) = [] := by
      refine List.filter_eq_nil_iff.mpr fun k hk => ?_
      obtain ⟨hk, hlt⟩ := List.mem_range'_1.mp hk
      simpa using (h.mem_reserved hk).mpr (hj.searches.isReserved_before hk (by omega))
    rw [Request.hands, comesTo, hj.fresh, hrow, List.filter_append, hskip, List.filter_singleton,
      decide_eq_true hj.unreserved]
    rfl
  · rw [hands, comesTo]
    rfl

theorem Orderly.comesTo_eq (h : g.Orderly) (r : Request) :
    g.next ≤ (r.serve g).next ∧ r.comesTo g = List.range' g.next ((r.serve g).next - g.next) := by
  obtain rfl | ⟨ss, e, -, -, comesTo⟩ := serve_cases g r
  · obtain ⟨j, hj⟩ := h.exists_draw
    refine ⟨?_, rfl⟩
    rw [Request.serve, hj.fresh]
    exact Nat.le_succ_of_le hj.searches.le
  · rw [e, comesTo, next_foldl_reserve, Nat.sub_self]
    exact ⟨le_rfl, rfl⟩

/-! ## All requests -/

theorem Orderly.serveAll (h : g.Orderly) (rs : List Request) : (g.serveAll rs).Orderly := by
  induction rs generalizing g with
  | nil => exact h
  | cons r rs ih => exact ih (h.serve r)

theorem generated_serveAll (g : Names) (rs : List Request) :
    (g.serveAll rs).generated = (g.handed rs).reverse ++ g.generated := by
  induction rs generalizing g with
  | nil => rfl
  | cons r rs ih =>
    refine (ih (r.serve g)).trans ?_
    rw [generated_serve, handed, List.reverse_append, List.append_assoc]

theorem mem_reserved_serveAll (g : Names) (rs : List Request) :
    s ∈ (g.serveAll rs).reserved ↔ (∃ r ∈ rs, r.Reserves s) ∨ s ∈ g.reserved := by
  induction rs generalizing g with
  | nil => simp [Names.serveAll]
  | cons r rs ih =>
    refine (ih (r.serve g)).trans ?_
    rw [mem_reserved_serve, List.exists_mem_cons_iff, or_left_comm, or_assoc]

theorem isReserved_serveAll (g : Names) (rs : List Request) :
    (g.serveAll rs).isReserved s = true ↔
      (∃ r ∈ rs, r.Reserves s) ∨ s ∈ g.handed rs ∨ g.isReserved s = true := by
  have hreserved := mem_reserved_serveAll (s := s) g rs
  simp only [isReserved, Bool.or_eq_true, List.contains_iff_mem, generated_serveAll,
    List.mem_append, List.mem_reverse, hreserved]
  rw [or_assoc, @or_left_comm (s ∈ g.reserved)]

theorem Orderly.handed_fresh (h : g.Orderly) (rs : List Request) :
    (g.handed rs).Nodup ∧ ∀ s ∈ g.handed rs, s ∉ g.generated := by
  induction rs generalizing g with
  | nil => exact ⟨List.nodup_nil, fun _ hs => nomatch hs⟩
  | cons r rs ih =>
    obtain ⟨hnodup, hnew⟩ := ih (h.serve r)
    rw [generated_serve] at hnew
    have hhands : (r.hands g).Nodup ∧ ∀ s ∈ r.hands g, s ∉ g.generated := by
      cases r with
      | reserve | reserveIn => exact ⟨List.nodup_nil, fun _ hs => nomatch hs⟩
      | draw =>
        refine ⟨List.nodup_singleton _, fun s hs => ?_⟩
        have hfree := isReserved_fresh g
        obtain rfl := List.mem_singleton.mp hs
        simp only [isReserved, Bool.or_eq_false_iff, List.contains_eq_mem, decide_eq_false_iff_not]
          at hfree
        exact hfree.2
    refine ⟨List.nodup_append.mpr ⟨hhands.1, hnodup, ?_⟩, fun s hs => ?_⟩
    · rintro s hs _ ht rfl
      exact hnew s ht (List.mem_append_left _ (List.mem_reverse.mpr hs))
    · obtain hs | hs := List.mem_append.mp hs
      · exact hhands.2 s hs
      · exact fun hg => hnew s hs (List.mem_append_right _ hg)

theorem Orderly.handed_eq (h : g.Orderly) (rs : List Request) :
    g.handed rs = ((g.reached rs).filter fun t => candidate t.1 ∉ t.2).map fun t =>
      candidate t.1 := by
  induction rs generalizing g with
  | nil => rfl
  | cons r rs ih =>
    rw [handed, reached, ih (h.serve r), h.hands_eq r, List.filter_append, List.map_append,
      List.filter_map, List.map_map]
    rfl

theorem Orderly.reached_eq (h : g.Orderly) (rs : List Request) : g.next ≤ (g.serveAll rs).next ∧
    (g.reached rs).map Prod.fst = List.range' g.next ((g.serveAll rs).next - g.next) := by
  induction rs generalizing g with
  | nil => exact ⟨le_rfl, by rw [Names.serveAll, List.foldl_nil, Nat.sub_self]; rfl⟩
  | cons r rs ih =>
    obtain ⟨hle, hone⟩ := h.comesTo_eq r
    obtain ⟨hle', hall⟩ := ih (h.serve r)
    refine ⟨hle.trans hle', ?_⟩
    have hfst : ((r.comesTo g).map (·, g.reserved)).map Prod.fst = r.comesTo g := by
      simp [Function.comp_def]
    rw [reached, List.map_append, hall, hfst, hone]
    have hrow :=
      @List.range'_append g.next ((r.serve g).next - g.next)
        (((r.serve g).serveAll rs).next - (r.serve g).next) 1
    rw [Nat.one_mul, Nat.add_sub_cancel' hle] at hrow
    rw [hrow]
    congr 1
    change _ = ((r.serve g).serveAll rs).next - g.next
    omega

theorem orderly_new : ({} : Names).Orderly :=
  ⟨fun _ hs => absurd hs List.not_mem_nil, List.nodup_nil⟩

/-! ## What a new generator hands out -/

theorem candidate_letter (hk : k < 26) : candidate k = .ofList ['_', .ofNat ('a'.toNat + k)] :=
  if_pos hk

theorem candidate_number (k : Nat) : candidate (26 + k) = "_" ++ toString k := by
  rw [candidate, if_neg (by omega), Nat.add_sub_cancel_left, ← String.toList_inj]
  simp [Nat.repr]

/-- Every draw ends. The names that are handed out are the candidates in their order, without those
that were reserved when the generator came to them. They differ from each other, and they and the
names that were to be reserved are the ones that are reserved in the end. -/
theorem draws_among_requests (rs : List Request) :
    (∀ before after, rs = before ++ .draw :: after → ∃ j, (serveAll {} before).Draw j) ∧
      (handed {} rs).Nodup ∧
      (reached {} rs).map Prod.fst = List.range (serveAll {} rs).next ∧
      handed {} rs =
        ((reached {} rs).filter fun t => candidate t.1 ∉ t.2).map (fun t => candidate t.1) ∧
      (∀ k < 26, candidate k = .ofList ['_', .ofNat ('a'.toNat + k)]) ∧
      (∀ k, candidate (26 + k) = "_" ++ toString k) ∧
      (∀ s, (serveAll {} rs).isReserved s = true ↔ (∃ r ∈ rs, r.Reserves s) ∨ s ∈ handed {} rs) ∧
      (serveAll {} rs).generated.length = (handed {} rs).length := by
  refine ⟨fun before _ _ => (orderly_new.serveAll before).exists_draw,
    (orderly_new.handed_fresh rs).1, ?_, orderly_new.handed_eq rs, fun _ => candidate_letter,
    candidate_number, fun s => ?_, ?_⟩
  · rw [(orderly_new.reached_eq rs).2, List.range_eq_range']
    rfl
  · rw [isReserved_serveAll]
    simp [isReserved]
  · rw [generated_serveAll]
    simp

/-- The last reservation comes too late for the first name. -/
example : handed {} [.reserve "_b", .draw, .draw, .reserve "_a", .reserve "_d",
    .draw] = ["_a", "_c", "_e"] := by decide

end Names

end ChainLowering
