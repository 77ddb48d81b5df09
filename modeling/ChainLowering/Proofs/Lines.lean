import ChainLowering.Proofs.Places

/-!
# Lines

No token but a string goes over the end of a line, and a comment ends there.
So what stands before the end of a line is scanned as if it stood alone, and
what comes after it as if it began the text, but for its places.
-/

namespace ChainLowering

namespace Lexer

variable {c : Char} {s u v rest : List Char} {value : List Char} {p : Char → Bool}
    {start len n m pos k : Nat} {quote : Char} {t : Tok}
  {ts : List Token}

/-- A text that is empty or begins with the end of a line. -/
def AtLineEnd (u : List Char) : Prop := ∀ c ∈ u.head?, c = '\n'

theorem takeWhile_append_line (hu : AtLineEnd u) (hp : p '\n' = false) (s : List Char) :
    (s ++ u).takeWhile p = s.takeWhile p := by
  induction s with
  | nil =>
    cases u with
    | nil => rfl
    | cons c u => simp [hu c rfl, hp]
  | cons c s ih =>
    by_cases hc : p c = true
    · simp [hc, ih]
    · simp [hc]

theorem dropWhile_append_line (hu : AtLineEnd u) (hp : p '\n' = false) (s : List Char) :
    (s ++ u).dropWhile p = s.dropWhile p ++ u := by
  induction s with
  | nil =>
    cases u with
    | nil => rfl
    | cons c u => simp [hu c rfl, hp]
  | cons c s ih =>
    by_cases hc : p c = true
    · simp [hc, ih]
    · simp [hc]

theorem startsWithDigit_append_line (hu : AtLineEnd u) (s : List Char) :
    startsWithDigit (s ++ u) = startsWithDigit s := by
  cases s with
  | nil =>
    cases u with
    | nil => rfl
    | cons c u =>
      rw [hu c rfl]
      rfl
  | cons c s => rfl

theorem isPrefixOf_append_line (hu : AtLineEnd u) (w s : List Char) (hw : '\n' ∉ w) :
    w.isPrefixOf (s ++ u) = w.isPrefixOf s := by
  induction w generalizing s with
  | nil => rfl
  | cons d w ih =>
    rw [List.mem_cons, not_or] at hw
    cases s with
    | nil =>
      cases u with
      | nil => rfl
      | cons c u =>
        rw [hu c rfl]
        simp [List.isPrefixOf, Ne.symm hw.1]
    | cons c s => simp [List.isPrefixOf, ih s hw.2]

theorem notMem_chars (p : Punct) : '\n' ∉ p.chars := by
  cases p <;> decide

theorem punct?_append_line (hu : AtLineEnd u) (s : List Char) : punct? (s ++ u) = punct? s := by
  have hfind : Punct.all.find? (fun p => p.chars.isPrefixOf (s ++ u)) =
      Punct.all.find? (fun p => p.chars.isPrefixOf s) :=
    congrArg (List.find? · Punct.all)
      (funext fun p => isPrefixOf_append_line hu _ s (notMem_chars p))
  unfold punct?
  rw [hfind]
  cases hp : Punct.all.find? (fun p => p.chars.isPrefixOf s) with
  | none => rfl
  | some p =>
    have hprefix := List.find?_some hp
    rw [List.isPrefixOf_iff_prefix] at hprefix
    cases p
    case questionDot =>
      have hlen : 2 ≤ s.length := hprefix.length_le
      rw [List.drop_append_of_le_length hlen]
      simp only [startsWithDigit_append_line hu]
    all_goals rfl

theorem stringBody_append (start' : Nat) (h : stringBody start quote n s = .ok (value, len, rest)) :
    stringBody start' quote n (s ++ u) = .ok (value, len, rest ++ u) := by
  fun_induction stringBody start quote n s generalizing value len rest with
  | case1 | case3 | case4 => cases h
  | case2 n e s he ih =>
    cases hb : stringBody start quote (n + 2) s with
    | error f =>
      rw [hb] at h
      cases h
    | ok x =>
      rw [hb] at h
      cases h
      rw [List.cons_append, List.cons_append, stringBody, if_pos he, ih hb]
      rfl
  | case5 n s hs hq =>
    cases h
    rw [List.cons_append, stringBody, if_neg hq, if_pos rfl]
    exact fun _ _ e => absurd e hq
  | case6 n c s hs hc hq ih =>
    cases hb : stringBody start quote (n + c.utf8Size) s with
    | error f =>
      rw [hb] at h
      cases h
    | ok x =>
      rw [hb] at h
      cases h
      rw [List.cons_append, stringBody, if_neg hc, if_neg hq, ih hb]
      · rfl
      · exact fun _ _ e => absurd e hc

theorem token_append_line (hu : AtLineEnd u) (start' : Nat)
    (h : token start c s = .ok (t, len, rest)) :
    token start' c (s ++ u) = .ok (t, len, rest ++ u) := by
  have hnumber : startsNumber c (s ++ u) = startsNumber c s := by
    simp only [startsNumber, startsWithDigit_append_line hu]
  unfold token at h ⊢
  rw [hnumber, ← List.cons_append]
  split_ifs at h ⊢ with hw hn hq
  · cases h
    simp only [takeWhile_append_line hu (p := continuesWord) rfl,
      dropWhile_append_line hu (p := continuesWord) rfl]
  · cases h
    simp only [takeWhile_append_line hu (p := continuesNumber) rfl,
      dropWhile_append_line hu (p := continuesNumber) rfl]
  · cases hb : stringBody start c 1 s with
    | error f =>
      rw [hb] at h
      cases h
    | ok x =>
      rw [hb] at h
      cases h
      rw [stringBody_append start' hb]
      rfl
  · rw [punct?_append_line hu]
    cases hp : punct? (c :: s) with
    | none =>
      rw [hp] at h
      cases h
    | some q =>
      rw [hp] at h
      cases h
      dsimp only
      rw [List.drop_append_of_le_length (prefix_of_punct? hp).length_le]

def opensComment (c : Char) (s : List Char) : Bool := c = '/' && s.head? = some '/'

theorem opensComment_append_line (hu : AtLineEnd u) (c : Char) (s : List Char) :
    opensComment c (s ++ u) = opensComment c s := by
  cases s with
  | nil =>
    cases u with
    | nil => rfl
    | cons d u => simp [opensComment, hu d rfl]
  | cons d s => rfl

/-! ## Step by step -/

theorem tokensTo_space (hc : isSpace c = true) :
    tokensTo (n + 1) pos (c :: s) = tokensTo n (pos + 1) s := by
  rw [tokensTo, if_pos hc]

theorem tokensTo_comment (hc : isSpace c ≠ true) (hs : opensComment c s = true) :
    tokensTo (n + 1) pos (c :: s) = tokensTo n (pos + bytes ((c :: s).takeWhile (· ≠ '\n')))
      ((c :: s).dropWhile (· ≠ '\n')) := by
  rw [tokensTo, if_neg hc]
  exact if_pos hs

theorem tokensTo_token_iff (hc : isSpace c ≠ true) (hs : opensComment c s ≠ true) :
    tokensTo (n + 1) pos (c :: s) = .ok ts ↔ ∃ t len rest us, token pos c s = .ok (t, len, rest) ∧
      tokensTo n (pos + len) rest = .ok us ∧ ts = ⟨t, pos, pos + len⟩ :: us := by
  have hstep : tokensTo (n + 1) pos (c :: s) = (do
      let read ← token pos c s
      let us ← tokensTo n (pos + read.2.1) read.2.2
      return ⟨read.1, pos, pos + read.2.1⟩ :: us) := by
    rw [tokensTo, if_neg hc]
    exact if_neg hs
  rw [hstep]
  -- both sides fail if a token does
  rcases token pos c s with f | ⟨t, len, rest⟩
  · constructor
    · intro h
      cases h
    · rintro ⟨_, _, _, _, h, -⟩
      cases h
  · change (tokensTo n (pos + len) rest >>= fun us => Except.ok (_ :: us)) = _ ↔ _
    rcases hts : tokensTo n (pos + len) rest with f | us
    · constructor
      · intro h
        cases h
      · rintro ⟨_, _, _, _, h, hus, -⟩
        cases h
        rw [hts] at hus
        cases hus
    · constructor
      · intro h
        exact ⟨t, len, rest, us, rfl, hts, (Except.ok.inj h).symm⟩
      · rintro ⟨_, _, _, _, h, hus, rfl⟩
        cases h
        rw [hts] at hus
        cases hus
        rfl

@[simp] theorem tokensTo_nil (n pos : Nat) : tokensTo n pos [] = .ok [⟨.eof, pos, pos⟩] := by
  cases n <;> rfl

theorem tokensTo_mono (h : tokensTo n pos s = .ok ts) (m : Nat) :
    tokensTo (n + m) pos s = .ok ts := by
  induction n generalizing pos s ts with
  | zero =>
    cases s with
    | nil => simpa using h
    | cons c s => cases h
  | succ n ih =>
    cases s with
    | nil => simpa using h
    | cons c s =>
      rw [Nat.succ_add]
      by_cases hc : isSpace c = true
      · rw [tokensTo_space hc] at h ⊢
        exact ih h
      by_cases hs : opensComment c s = true
      · rw [tokensTo_comment hc hs] at h ⊢
        exact ih h
      · obtain ⟨t, len, rest, us, ht, hus, rfl⟩ := (tokensTo_token_iff hc hs).mp h
        exact (tokensTo_token_iff hc hs).mpr ⟨t, len, rest, us, ht, ih hus, rfl⟩

/-- Before the end of a line the text gives the tokens `us`, some bytes further on, and the scan
goes on with what follows. -/
def GoesOn (n pos : Nat) (s : List Char) (us : List Token) : Prop :=
  ∀ ⦃m k : Nat⦄ ⦃u : List Char⦄ ⦃vs : List Token⦄, AtLineEnd u →
    tokensTo m (pos + bytes s + k) u = .ok vs →
    tokensTo (n + m) (pos + k) (s ++ u) = .ok (us.map (Token.moved k) ++ vs)

theorem goesOn_nil (n pos : Nat) : GoesOn n pos [] [] := by
  intro m k u vs _ hvs
  rw [Nat.add_comm n]
  exact tokensTo_mono hvs n

theorem GoesOn.space {us : List Token} (h : GoesOn n (pos + 1) s us) (hc : isSpace c = true) :
    GoesOn (n + 1) pos (c :: s) us := by
  intro m k u vs hu hvs
  rw [bytes_cons, utf8Size_of_lt (lt_of_isSpace hc), ← Nat.add_assoc] at hvs
  rw [Nat.succ_add, List.cons_append, tokensTo_space hc, Nat.add_right_comm]
  exact h hu hvs

theorem GoesOn.comment {us : List Token} (hc : isSpace c ≠ true) (hs : opensComment c s = true)
    (h : GoesOn n (pos + bytes ((c :: s).takeWhile (· ≠ '\n'))) ((c :: s).dropWhile (· ≠ '\n'))
      us) : GoesOn (n + 1) pos (c :: s) us := by
  intro m k u vs hu hvs
  have hs' : opensComment c (s ++ u) = true := by rwa [opensComment_append_line hu]
  rw [Nat.succ_add, List.cons_append, tokensTo_comment hc hs', ← List.cons_append,
    takeWhile_append_line hu (by simp),
    dropWhile_append_line hu (by simp), Nat.add_right_comm]
  refine h hu ?_
  rwa [Nat.add_assoc pos, ← bytes_append, List.takeWhile_append_dropWhile]

theorem GoesOn.token {us : List Token} (hc : isSpace c ≠ true) (hs : opensComment c s ≠ true)
    (ht : Lexer.token pos c s = .ok (t, len, rest)) (hlen : bytes (c :: s) = len + bytes rest)
    (h : GoesOn n (pos + len) rest us) :
    GoesOn (n + 1) pos (c :: s) (⟨t, pos, pos + len⟩ :: us) := by
  intro m k u vs hu hvs
  have hs' : opensComment c (s ++ u) ≠ true := by rwa [opensComment_append_line hu]
  rw [Nat.succ_add, List.cons_append]
  refine (tokensTo_token_iff hc hs').mpr
    ⟨t, len, rest ++ u, us.map (Token.moved k) ++ vs, token_append_line hu (pos + k) ht, ?_, ?_⟩
  · rw [Nat.add_right_comm]
    refine h hu ?_
    rwa [Nat.add_assoc pos, ← hlen]
  · simp [Token.moved, Nat.add_right_comm]

theorem length_of_token (h : token pos c s = .ok (t, len, rest)) :
    bytes (c :: s) = len + bytes rest := by
  have htakes := takes_token pos c s
  rw [h] at htakes
  cases htakes with
  | taken w split _ length => rw [split, bytes_append, length, Nat.zero_add]

theorem goesOn_tokensTo (h : tokensTo n pos s = .ok ts) :
    ∃ us, ts = us ++ [⟨.eof, pos + bytes s, pos + bytes s⟩] ∧ GoesOn n pos s us := by
  induction n generalizing pos s ts with
  | zero =>
    cases s with
    | nil => exact ⟨[], (Except.ok.inj h).symm, goesOn_nil 0 pos⟩
    | cons c s => cases h
  | succ n ih =>
    cases s with
    | nil => exact ⟨[], (Except.ok.inj h).symm, goesOn_nil (n + 1) pos⟩
    | cons c s =>
      by_cases hc : isSpace c = true
      · rw [tokensTo_space hc] at h
        obtain ⟨us, rfl, hus⟩ := ih h
        refine ⟨us, ?_, hus.space hc⟩
        rw [bytes_cons, utf8Size_of_lt (lt_of_isSpace hc), Nat.add_assoc]
      by_cases hs : opensComment c s = true
      · rw [tokensTo_comment hc hs] at h
        obtain ⟨us, rfl, hus⟩ := ih h
        refine ⟨us, ?_, .comment hc hs hus⟩
        rw [Nat.add_assoc, ← bytes_append, List.takeWhile_append_dropWhile]
      · obtain ⟨t, len, rest, us, ht, hrest, rfl⟩ := (tokensTo_token_iff hc hs).mp h
        obtain ⟨us, rfl, hus⟩ := ih hrest
        refine ⟨_ :: us, ?_, .token hc hs ht (length_of_token ht) hus⟩
        rw [length_of_token ht, ← Nat.add_assoc]
        rfl

theorem tokensTo_moved (h : tokensTo n pos s = .ok ts) (k : Nat) :
    tokensTo n (pos + k) s = .ok (ts.map (Token.moved k)) := by
  obtain ⟨us, rfl, hus⟩ := goesOn_tokensTo h
  simpa [Token.moved] using hus (m := 0) (u := []) nofun (tokensTo_nil 0 (pos + bytes s + k))

/-- The tokens of two texts with the end of a line between them. -/
theorem tokens_append {s₁ s₂ : String} {ts₁ ts₂ : List Token} (h₁ : tokens s₁ = .ok ts₁)
    (h₂ : tokens s₂ = .ok ts₂) :
    tokens (s₁ ++ "\n" ++ s₂) =
      .ok (ts₁.dropLast ++ ts₂.map (Token.moved (bytes s₁.toList + 1))) := by
  obtain ⟨us, rfl, hus⟩ := goesOn_tokensTo h₁
  have hline : AtLineEnd ('\n' :: s₂.toList) := by simp [AtLineEnd]
  have hall : (s₁ ++ "\n" ++ s₂).toList = s₁.toList ++ '\n' :: s₂.toList := by simp
  have hsecond := tokensTo_moved h₂ (bytes s₁.toList + 1)
  rw [Nat.zero_add, ← tokensTo_space (c := '\n') rfl] at hsecond
  have hboth := hus (k := 0) hline (by simpa using hsecond)
  rw [tokens, hall, List.length_append, List.length_cons, List.dropLast_concat]
  simpa using hboth

end Lexer

end ChainLowering
