import ChainLowering.Proofs.Spelling

/-!
# Leaves between their neighbours

Which strings, keys and numbers are one token again when they are printed:
strings of plain characters, keys that are words, and numbers that are not
followed by a dot or a digit.
-/

namespace ChainLowering

namespace Text

/-- Other characters are written with a backslash and a sign that is read as itself, or as a letter.
-/
theorem escape_of_not_isPlain {c : Char} (h : isPlain c = false) :
    ∃ d s, escape '"' c = '\\' :: d :: s ∧ (d = '0' ∨ d = 'r' ∨ d = 'u') := by
  revert h
  unfold isPlain escape
  split_ifs with hz ht hr hn hb hq hu
  · exact fun _ => ⟨'0', [], rfl, by simp⟩
  · exact fun h => absurd h (by simp)
  · exact fun _ => ⟨'r', [], rfl, by simp⟩
  · exact fun h => absurd h (by simp)
  · exact fun h => absurd h (by subst hb; decide)
  · exact fun h => absurd h (by subst hq; decide)
  · exact fun _ => ⟨'u', _, rfl, by simp⟩
  · exact fun h => absurd h (by simp)

end Text

namespace Lexer

variable {c quote : Char} {cs s rest value : List Char} {start n len : Nat} {w : String}

theorem push_ok {x : Scan (List Char × Nat × List Char)}
    (h : (do let (v, len, rest) ← x; return (c :: v, len, rest)) = Except.ok (value, len, rest)) :
    ∃ v, x = .ok (v, len, rest) ∧ value = c :: v := by
  cases x with
  | error e => cases h
  | ok r =>
    have h : (c :: r.1, r.2) = (value, len, rest) := Except.ok.inj h
    obtain ⟨rfl, hr⟩ := Prod.mk.inj h
    exact ⟨r.1, by rw [← hr], rfl⟩

theorem stringBody_ok (h : stringBody start quote n s = .ok (value, len, rest)) :
    value = [] ∧ s = quote :: rest ∨ ∃ v m s', stringBody start quote m s' = .ok (v, len, rest) ∧
      ((∃ c, c ≠ '\\' ∧ s = c :: s' ∧ value = c :: v) ∨
        ∃ e : Char, s = '\\' :: e :: s' ∧ value = (if e = 'n' then '\n' else if e = 't' then '\t'
          else e) :: v) := by
  unfold stringBody at h
  split at h
  · cases h
  · rename_i e s
    split at h
    · obtain ⟨v, hs, hv⟩ := push_ok h
      exact .inr ⟨v, _, s, hs, .inr ⟨e, rfl, hv⟩⟩
    · cases h
  · rename_i c s _
    split_ifs at h with hb hq
    · obtain ⟨hv, hr⟩ := Prod.mk.inj (Except.ok.inj h)
      exact .inl ⟨hv.symm, by rw [hq, (Prod.mk.inj hr).2]⟩
    · obtain ⟨v, hs, hv⟩ := push_ok h
      exact .inr ⟨v, _, s, hs, .inl ⟨c, hb, rfl, hv⟩⟩

theorem length_of_stringBody (h : stringBody start quote n s = .ok (value, len, rest)) :
    value.length + rest.length < s.length := by
  induction value generalizing n len s with
  | nil =>
    obtain ⟨-, rfl⟩ | ⟨v, m, s', -, ⟨c, -, -, hv⟩ | ⟨e, -, hv⟩⟩ := stringBody_ok h
    · simp
    · cases hv
    · cases hv
  | cons d value ih =>
    obtain ⟨hv, -⟩ | ⟨v, m, s', hs', ⟨c, -, rfl, hv⟩ | ⟨e, rfl, hv⟩⟩ := stringBody_ok h
    · cases hv
    all_goals
      obtain ⟨-, rfl⟩ := List.cons.inj hv
      have := ih hs'
      simp only [List.length_cons]
      omega

/-- What is read back as it was is made of plain characters. -/
theorem isPlain_of_stringBody
    (h : stringBody start '"' n (cs.flatMap (Text.escape '"') ++ '"' :: rest) =
      .ok (cs, len, rest)) :
    ∀ c ∈ cs, Text.isPlain c = true := by
  induction cs generalizing n len with
  | nil => exact fun c hc => nomatch hc
  | cons c cs ih =>
    rw [List.flatMap_cons, List.append_assoc] at h
    obtain ⟨hv, -⟩ | ⟨v, m, s', hs', hread⟩ := stringBody_ok h
    · cases hv
    cases hc : Text.isPlain c with
    | true =>
      obtain rfl : v = cs := by
        obtain ⟨d, -, -, hv⟩ | ⟨e, -, hv⟩ := hread <;> exact (List.cons.inj hv).2.symm
      have hs : s' = v.flatMap (Text.escape '"') ++ '"' :: rest := by
        obtain ⟨he, hb, -⟩ | ⟨e, he, -⟩ :=
          Text.isPlain_cases hc <;> obtain ⟨d, hd, hs, -⟩ | ⟨e', hs, -⟩ := hread <;> rw [he] at hs
        · exact (List.cons.inj hs).2.symm
        · exact absurd (List.cons.inj hs).1 hb
        · exact absurd (List.cons.inj hs).1.symm hd
        · exact (List.cons.inj (List.cons.inj hs).2).2.symm
      rw [hs] at hs'
      exact List.forall_mem_cons.mpr ⟨hc, ih hs'⟩
    | false =>
      -- the sign after the backslash comes out as the first character, and is plain itself
      obtain ⟨d, s, he, hd⟩ := Text.escape_of_not_isPlain hc
      rw [he] at hread
      obtain ⟨c', hc', hs, -⟩ | ⟨e, hs, hv⟩ := hread
      · exact absurd (List.cons.inj hs).1.symm hc'
      · obtain rfl := (List.cons.inj (List.cons.inj hs).2).1
        obtain rfl := (List.cons.inj hv).1
        rcases hd with rfl | rfl | rfl <;> cases hc

theorem token_string_ok (h : token start c s = .ok (.string w, len, rest)) :
    (c = '"' ∨ c = '\x27') ∧ stringBody start c 1 s = .ok (w.toList, len, rest) := by
  unfold token at h
  split_ifs at h with hw hn hq
  · cases h
  · cases h
  · refine ⟨by simpa using hq, ?_⟩
    cases hb : stringBody start c 1 s with
    | error e => rw [hb] at h; cases h
    | ok r =>
      rw [hb] at h
      obtain ⟨hv, h⟩ := Prod.mk.inj (Except.ok.inj h)
      obtain ⟨rfl, rfl⟩ := Prod.mk.inj h
      rw [← Tok.string.inj hv, String.toList_ofList]
  · split at h <;> cases h

theorem token_ident_ok (h : token start c s = .ok (.ident w, len, rest)) :
    startsWord c = true ∧ w.toList = (c :: s).takeWhile continuesWord := by
  unfold token at h
  split_ifs at h with hw hn hq
  · obtain ⟨hv, -⟩ := Prod.mk.inj (Except.ok.inj h)
    exact ⟨hw, by rw [← Tok.ident.inj hv, String.toList_ofList]⟩
  · cases h
  · cases hb : stringBody start c 1 s <;> rw [hb] at h <;> cases h
  · split at h <;> cases h

theorem token_number_ok (h : token start c s = .ok (.number w, len, rest)) :
    rest = (c :: s).dropWhile continuesNumber := by
  unfold token at h
  split_ifs at h with hw hn hq
  · cases h
  · exact (Prod.mk.inj (Prod.mk.inj (Except.ok.inj h)).2).2.symm
  · cases hb : stringBody start c 1 s <;> rw [hb] at h <;> cases h
  · split at h <;> cases h

theorem token_quoted_iff :
    (∃ len, token start '"' (w.toList.flatMap (Text.escape '"') ++ '"' :: rest) =
      .ok (.string w, len, rest)) ↔ ∀ c ∈ w.toList, Text.isPlain c = true :=
  ⟨fun ⟨_, h⟩ => isPlain_of_stringBody (token_string_ok h).2, token_string start rest⟩

theorem token_bare_iff (hw : w.toList = c :: cs) (hr : Clear continuesWord rest) :
    (∃ t len, (t = .ident w ∨ t = .string w) ∧ token start c (cs ++ rest) = .ok (t, len, rest)) ↔
      isWord w = true := by
  constructor
  · rintro ⟨t, len, rfl | rfl, h⟩
    · obtain ⟨hc, htake⟩ := token_ident_ok h
      have hall : (c :: cs).all continuesWord = true := by
        rw [← hw, htake]
        exact all_takeWhile _ _
      rw [List.all_cons, Bool.and_eq_true] at hall
      exact isWord_iff.mpr ⟨c, cs, hw, hc, hall.2⟩
    · -- a string would have to stand inside its own text
      have := length_of_stringBody (token_string_ok h).2
      rw [hw, List.length_append, List.length_cons] at this
      omega
  · intro h
    obtain ⟨c', cs', hw', hc, hcs⟩ := isWord_iff.mp h
    obtain ⟨rfl, rfl⟩ := List.cons.inj (hw.symm.trans hw')
    obtain ⟨len, h⟩ := token_word start hw hc hcs hr
    exact ⟨_, len, .inl rfl, h⟩

theorem token_number_iff (hw : w.toList = c :: cs) (hc : startsNumber c cs = true)
    (hcs : (c :: cs).all continuesNumber = true) :
    (∃ len, token start c (cs ++ rest) = .ok (.number w, len, rest)) ↔
      Clear continuesNumber rest := by
  refine ⟨fun ⟨len, h⟩ d hd => ?_, token_number start hw hc hcs⟩
  rw [token_number_ok h] at hd
  have := List.head?_dropWhile_not continuesNumber (c :: (cs ++ rest))
  rw [Option.mem_def.mp hd] at this
  exact this

end Lexer

end ChainLowering
