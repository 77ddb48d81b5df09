import Mathlib.Data.List.TakeWhile
import ChainLowering.Proofs.Grammar

/-!
# Texts and tokens

A token is spelled right: what the lexer takes for a word is a word, and what
it takes for a number is a number.
-/

namespace ChainLowering

namespace Lexer

variable {c : Char} {s : List Char}

theorem all_takeWhile (p : Char → Bool) (s : List Char) : (s.takeWhile p).all p = true :=
  List.all_eq_true.mpr fun _ => List.mem_takeWhile_imp

theorem continuesWord_of_startsWord (h : startsWord c = true) : continuesWord c = true := by
  simp only [startsWord, continuesWord, Char.isAlphanum, Bool.or_eq_true] at h ⊢
  tauto

theorem continuesNumber_of_startsNumber (h : startsNumber c s = true) :
    continuesNumber c = true := by
  simp only [startsNumber, continuesNumber, Bool.or_eq_true, Bool.and_eq_true] at h ⊢
  tauto

theorem isWord_takeWhile (h : startsWord c = true) :
    isWord (.ofList ((c :: s).takeWhile continuesWord)) = true := by
  rw [isWord, String.toList_ofList, List.takeWhile_cons_of_pos (continuesWord_of_startsWord h)]
  simp only [h, Bool.true_and]
  exact all_takeWhile _ _

theorem startsNumber_takeWhile (h : startsNumber c s = true) :
    startsNumber c (s.takeWhile continuesNumber) = true := by
  cases s with
  | nil => exact h
  | cons d s =>
    by_cases hd : d.isDigit = true
    · rw [List.takeWhile_cons_of_pos (by simp [continuesNumber, hd])]
      exact h
    · have hc : c.isDigit = true := by simpa [startsNumber, startsWithDigit, hd] using h
      simp [startsNumber, hc]

theorem isNumber_takeWhile (h : startsNumber c s = true) :
    isNumber (.ofList ((c :: s).takeWhile continuesNumber)) = true := by
  have hc := continuesNumber_of_startsNumber h
  rw [isNumber, String.toList_ofList, List.takeWhile_cons_of_pos hc]
  simp only [startsNumber_takeWhile h, List.all_cons, hc, Bool.true_and]
  exact all_takeWhile _ _

theorem lexed_token {start len : Nat} {rest : List Char} {t : Tok}
    (h : token start c s = .ok (t, len, rest)) :
    t.Lexed := by
  unfold token at h
  split_ifs at h with hw hn hq
  · obtain ⟨rfl, -⟩ := Prod.mk.inj (Except.ok.inj h)
    exact isWord_takeWhile hw
  · obtain ⟨rfl, -⟩ := Prod.mk.inj (Except.ok.inj h)
    exact isNumber_takeWhile hn
  · cases hb : stringBody start c 1 s with
    | error e => rw [hb] at h; cases h
    | ok x =>
      rw [hb] at h
      obtain ⟨rfl, -⟩ := Prod.mk.inj (Except.ok.inj h)
      trivial
  · split at h
    · obtain ⟨rfl, -⟩ := Prod.mk.inj (Except.ok.inj h)
      trivial
    · cases h

end Lexer

end ChainLowering
