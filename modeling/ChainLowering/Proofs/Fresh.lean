import Mathlib.Data.List.Perm.Subperm
import ChainLowering.Proofs.Descent
import ChainLowering.Proofs.TempSound

/-!
# Fresh names

Candidates differ from each other, so one of as many as there are taken
names, and one more, is free. Names that are drawn one after the other are
new, and differ.
-/

namespace ChainLowering

namespace Names

open NameSource

variable {g : Names} {taken : String → Bool} {n k : Nat} {a : Arena} {s : String}

/-! ## Candidates -/

theorem letter_toNat : ∀ k < 26, (Char.ofNat ('a'.toNat + k)).toNat = 'a'.toNat + k := by decide

theorem letter_not_isDigit : ∀ k < 26, (Char.ofNat ('a'.toNat + k)).isDigit = false := by decide

theorem candidate_injective : Function.Injective candidate := by
  have hmixed : ∀ i j, i < 26 → ¬ j < 26 → candidate i ≠ candidate j := by
    intro i j hi hj h
    rw [candidate, candidate, if_pos hi, if_neg hj] at h
    have hdigits : [Char.ofNat ('a'.toNat + i)] = Nat.toDigits 10 (j - 26) :=
      (List.cons.inj (String.ofList_injective h)).2
    have hdigit : (Char.ofNat ('a'.toNat + i)).isDigit = true :=
      Nat.isDigit_of_mem_toDigits (by decide) (by decide) (hdigits ▸ List.mem_singleton_self _)
    rw [letter_not_isDigit i hi] at hdigit
    cases hdigit
  intro i j h
  by_cases hi : i < 26
  · by_cases hj : j < 26
    · rw [candidate, candidate, if_pos hi, if_pos hj] at h
      have hc := (List.cons.inj (List.cons.inj (String.ofList_injective h)).2).1
      have := congrArg Char.toNat hc
      rw [letter_toNat i hi, letter_toNat j hj] at this
      exact Nat.add_left_cancel this
    · exact absurd h (hmixed i j hi hj)
  · by_cases hj : j < 26
    · exact absurd h.symm (hmixed j i hj hi)
    · rw [candidate, candidate, if_neg hi, if_neg hj] at h
      have hdigits := (List.cons.inj (String.ofList_injective h)).2
      have := congrArg (fun cs => Nat.ofDigitChars 10 cs 0) hdigits
      simp only [Nat.ofDigitChars_toDigits (by decide : 1 < 10) (by decide : 10 ≤ 10)] at this
      omega

theorem firstFree_free (h : ∃ j ≤ n, taken (candidate (k + j)) = false) :
    taken (candidate (firstFree taken n k)) = false := by
  induction n generalizing k with
  | zero =>
    obtain ⟨j, hj, hfree⟩ := h
    obtain rfl := Nat.le_zero.mp hj
    exact hfree
  | succ n ih =>
    unfold firstFree
    by_cases hk : taken (candidate k) = true
    · rw [if_pos hk]
      obtain ⟨j, hj, hfree⟩ := h
      obtain rfl | ⟨j, rfl⟩ : j = 0 ∨ ∃ i, j = i + 1 := by
        cases j with
        | zero => exact .inl rfl
        | succ j => exact .inr ⟨j, rfl⟩
      · exact absurd (hk.symm.trans hfree) Bool.noConfusion
      · exact ih ⟨j, by omega, by rwa [show k + 1 + j = k + (j + 1) by omega]⟩
    · rw [if_neg hk]
      simpa using hk

/-- Among one candidate more than there are taken names one is free. -/
theorem exists_free (g : Names) (k : Nat) :
    ∃ j ≤ g.reserved.length + g.generated.length, g.isReserved (candidate (k + j)) = false := by
  by_contra h
  have htaken : ∀ j < g.reserved.length + g.generated.length + 1,
      candidate (k + j) ∈ g.reserved ++ g.generated := by
    intro j hj
    by_contra hmem
    exact h ⟨j, by omega, by simpa [isReserved] using hmem⟩
  have hnodup : ((List.range (g.reserved.length + g.generated.length + 1)).map fun j =>
      candidate (k + j)).Nodup :=
    List.nodup_range.map fun i j hij => by simpa using candidate_injective hij
  have hsub : ((List.range (g.reserved.length + g.generated.length + 1)).map fun j =>
    candidate (k + j)) ⊆
      g.reserved ++ g.generated := by
    intro s hs
    obtain ⟨j, hj, rfl⟩ := List.mem_map.mp hs
    exact htaken j (List.mem_range.mp hj)
  have hle := (List.subperm_of_subset hnodup hsub).length_le
  rw [List.length_map, List.length_range, List.length_append] at hle
  omega

theorem isReserved_fresh (g : Names) : g.isReserved (Names.fresh g).1 = false :=
  firstFree_free (exists_free g g.next)

/-! ## Names that are drawn one after the other -/

theorem generated_after (n : Nat) (g : Names) :
    (after n g).generated = (drawn n g).reverse ++ g.generated := by
  induction n with
  | zero => rfl
  | succ n ih =>
    rw [drawn_succ, List.reverse_append, List.append_assoc, ← ih]
    rfl

theorem reserved_after (n : Nat) (g : Names) : (after n g).reserved = g.reserved := by
  induction n with
  | zero => rfl
  | succ n ih => exact ih

theorem isReserved_after (n : Nat) (g : Names) (s : String) :
    (after n g).isReserved s = ((drawn n g).contains s || g.isReserved s) := by
  rw [isReserved, isReserved, reserved_after, generated_after]
  simp only [List.contains_append, List.contains_reverse]
  cases g.reserved.contains s <;> simp

theorem drawn_fresh (n : Nat) (g : Names) :
    (drawn n g).Nodup ∧ ∀ s ∈ drawn n g, g.isReserved s = false := by
  induction n with
  | zero => exact ⟨List.nodup_nil, fun _ hs => absurd hs List.not_mem_nil⟩
  | succ n ih =>
    have hnew : (drawn n g).contains (fresh (after n g)).1 = false ∧
        g.isReserved (fresh (after n g)).1 = false := by
      have := isReserved_fresh (after n g)
      rwa [isReserved_after, Bool.or_eq_false_iff] at this
    rw [drawn_succ]
    constructor
    · refine List.Nodup.append ih.1 (List.nodup_singleton _) ?_
      intro s hs hs'
      rw [List.mem_singleton.mp hs'] at hs
      rw [List.contains_eq_mem, decide_eq_false_iff_not] at hnew
      exact hnew.1 hs
    · intro s hs
      rcases List.mem_append.mp hs with hs | hs
      · exact ih.2 s hs
      · rw [List.mem_singleton.mp hs]; exact hnew.2

/-! ## Names that are reserved -/

theorem mem_foldl_reserve (ss : List String) (g : Names) :
    s ∈ (ss.foldl Names.reserve g).reserved ↔ s ∈ ss ∨ s ∈ g.reserved := by
  induction ss generalizing g with
  | nil => simp
  | cons r ss ih =>
    rw [List.foldl_cons, ih, reserve, List.mem_insert_iff, List.mem_cons]
    tauto

theorem generated_foldl_reserve (ss : List String) (g : Names) :
    (ss.foldl Names.reserve g).generated = g.generated := by
  induction ss generalizing g with
  | nil => rfl
  | cons r ss ih => exact ih _

theorem isReserved_foldl_reserve (ss : List String) (g : Names) :
    (ss.foldl Names.reserve g).isReserved s = false ↔ s ∉ ss ∧ g.isReserved s = false := by
  rw [isReserved, isReserved, generated_foldl_reserve]
  simp only [List.contains_eq_mem, Bool.or_eq_false_iff, decide_eq_false_iff_not, mem_foldl_reserve]
  tauto

end Names

/-! ## Names in trees -/

def Label.name? (l : Label) : Option String := if l.kind = .name then l.text else none

namespace Grown

mutual
def names : Grown → List String
  | node _ l ts => l.name?.toList ++ namesAll ts
def namesAll : List Grown → List String
  | [] => []
  | t :: ts => t.names ++ namesAll ts
end

theorem namesAll_eq (ts : List Grown) : namesAll ts = ts.flatMap names := by
  induction ts with
  | nil => rfl
  | cons t ts ih => rw [namesAll, ih]; rfl

@[simp] theorem names_node (i : NodeId) (l : Label) (ts : List Grown) :
    (node i l ts).names = l.name?.toList ++ ts.flatMap names := by
  rw [names, namesAll_eq]

end Grown

namespace Names

open Grown

variable {p : Ref} {t : Grown} {R : Entries} {a : Arena} {s : String}

theorem nameAt?_root {a : Arena} (h : a.Shows p t) : nameAt? a (some t.id) = t.label.name? := by
  have hn := h.root
  rw [nameAt?, Label.name?, Arena.isName, Arena.isKind, Arena.kind?, Arena.text?, hn]
  simp

theorem filterMap_nameAt? (h : a.Shows p t) :
    t.ids.filterMap (fun i : NodeId => nameAt? a i) = t.names := by
  induction t generalizing p with
  | node i l ts ih =>
    have hroot := nameAt?_root h
    have hts : (ts.flatMap ids).filterMap (fun i : NodeId => nameAt? a i) = ts.flatMap names := by
      rw [List.filterMap_flatMap]
      exact List.flatMap_congr fun t ht => ih t ht (h.child ht)
    rw [ids_node, names_node, List.filterMap_cons, hts]
    rw [id_node, label_node] at hroot
    rw [hroot]
    cases l.name? <;> rfl

theorem reserveIn_tree (g : Names) (h : a.Holds (t.entries none + R)) :
    g.reserveIn a (some t.id) = t.names.foldl Names.reserve g := by
  rw [reserveIn, Arena.preorder_tree h, ← filterMap_nameAt? h.shows, List.foldl_filterMap]
  congr 1
  funext g i
  cases nameAt? a (some i) <;> rfl

end Names

end ChainLowering
