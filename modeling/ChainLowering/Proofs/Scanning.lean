import Mathlib.Tactic.SplitIfs
import ChainLowering.Proofs.Lexing

/-!
# How a text is scanned

The lexer goes over a text from character to character. Where it stands, a
character begins or the text ends, but for one case: a backslash takes one
byte with it, so before a longer character it leaves the lexer inside.
-/

namespace ChainLowering

namespace Lexer

variable {α β : Type} {c e : Char} {s u v w pre rest : List Char} {start n : Nat}

/-! ## Bytes -/

@[simp] theorem bytes_nil : bytes [] = 0 := rfl

@[simp] theorem bytes_cons (c : Char) (s : List Char) : bytes (c :: s) = c.utf8Size + bytes s := rfl

@[simp] theorem bytes_append (s u : List Char) : bytes (s ++ u) = bytes s + bytes u := by
  induction s with
  | nil => rw [List.nil_append, bytes_nil, Nat.zero_add]
  | cons c s ih => rw [List.cons_append, bytes_cons, bytes_cons, ih, Nat.add_assoc]

theorem utf8Size_of_lt (h : c.toNat < 0x80) : c.utf8Size = 1 :=
  Char.utf8Size_eq_one_iff.mpr (UInt32.le_iff_toNat_le.mpr (Nat.le_of_lt_succ h))

theorem bytes_of_lt (h : ∀ c ∈ s, c.toNat < 0x80) : bytes s = s.length := by
  induction s with
  | nil => rfl
  | cons c s ih =>
    obtain ⟨hc, hs⟩ := List.forall_mem_cons.mp h
    rw [bytes_cons, utf8Size_of_lt hc, ih hs, List.length_cons, Nat.add_comm]

/-! ## Characters of one byte -/

theorem lt_of_isSpace (h : isSpace c = true) : c.toNat < 0x80 := by
  simp only [isSpace, Bool.or_eq_true, decide_eq_true_eq] at h
  rcases h with (((rfl | rfl) | rfl) | rfl) | rfl <;> decide

theorem lt_of_val_le {k : UInt32} (h : c.val ≤ k) (hk : k.toNat < 0x80) : c.toNat < 0x80 :=
  Nat.lt_of_le_of_lt (UInt32.le_iff_toNat_le.mp h) hk

theorem lt_of_isDigit (h : c.isDigit = true) : c.toNat < 0x80 :=
  lt_of_val_le (of_decide_eq_true (Bool.and_eq_true_iff.mp h).2) (by decide)

theorem lt_of_isAlpha (h : c.isAlpha = true) : c.toNat < 0x80 := by
  rcases Bool.or_eq_true_iff.mp h with h | h
  · exact lt_of_val_le (of_decide_eq_true h).2 (by decide)
  · exact lt_of_val_le (of_decide_eq_true (Bool.and_eq_true_iff.mp h).2) (by decide)

theorem lt_of_continuesWord (h : continuesWord c = true) : c.toNat < 0x80 := by
  simp only [continuesWord, Char.isAlphanum, Bool.or_eq_true, decide_eq_true_eq] at h
  rcases h with ((h | h) | rfl) | rfl
  · exact lt_of_isAlpha h
  · exact lt_of_isDigit h
  · decide
  · decide

theorem lt_of_continuesNumber (h : continuesNumber c = true) : c.toNat < 0x80 := by
  simp only [continuesNumber, Bool.or_eq_true, decide_eq_true_eq] at h
  rcases h with h | rfl
  · exact lt_of_isDigit h
  · decide

theorem lt_of_mem_chars (p : Punct) : ∀ c ∈ p.chars, c.toNat < 0x80 := by
  cases p <;> simp [Punct.chars, Punct.text]

/-! ## One token -/

/-- What comes of a text from which something is taken. It began at byte `start`, `n` bytes before
the text. -/
inductive Takes (start n : Nat) (s : List Char) : Scan (α × Nat × List Char) → Prop
  | taken {x : α} {len : Nat} {rest : List Char} (w : List Char) (split : s = w ++ rest)
      (some : w ≠ [])
    (length : len = n + bytes w) : Takes start n s (.ok (x, len, rest))
  | error {e : ReadError} (pos : e.pos = start) : Takes start n s (.error (.error e))
  /-- A backslash stands before a character of several bytes. -/
  | inside {i : Nat} (w : List Char) (c : Char) (rest : List Char)
      (split : s = w ++ '\\' :: c :: rest)
    (wide : 0x80 ≤ c.toNat) (pos : i = start + n + bytes w + 2) :
    Takes start n s (.error (.fault (.insideCharacter i)))

theorem Takes.before {r : Scan (α × Nat × List Char)}
    {f : α × Nat × List Char → Scan (β × Nat × List Char)} (h : Takes start (n + bytes v) s r)
    (hf : ∀ x len rest, ∃ y, f (x, len, rest) = .ok (y, len, rest)) :
    Takes start n (v ++ s) (r >>= f) := by
  cases h with
  | @taken x len rest w split some length =>
    obtain ⟨y, hy⟩ := hf x len rest
    change Takes start n (v ++ s) (f (x, len, rest))
    rw [hy]
    refine .taken (v ++ w) ?_ (List.append_ne_nil_of_right_ne_nil _ some) ?_
    · rw [split, List.append_assoc]
    · rw [length, bytes_append, Nat.add_assoc]
  | error pos => exact .error pos
  | inside w c rest split wide pos =>
    refine .inside (v ++ w) c rest ?_ wide ?_
    · rw [split, List.append_assoc]
    · rw [pos, bytes_append]
      omega

theorem takes_stringBody {quote : Char} (hquote : quote.toNat < 0x80) (start n : Nat)
    (s : List Char) :
    Takes start n s (stringBody start quote n s) := by
  fun_induction stringBody start quote n s with
  | case1 n => exact .error rfl
  | case2 n e s he ih =>
    have hlen : bytes ['\\', e] = 2 :=
      bytes_of_lt (List.forall_mem_cons.mpr ⟨by decide, by simpa using he⟩)
    rw [← hlen] at ih
    have h := ih.before (f := fun x =>
      .ok ((if e = 'n' then '\n' else if e = 't' then '\t' else e) :: x.1, x.2)) fun _ _ _ =>
        ⟨_, rfl⟩
    rwa [hlen] at h
  | case3 n e s he => exact .inside [] e s rfl (Nat.le_of_not_lt he) rfl
  | case4 n s hs => exact .error rfl
  | case5 n s hs hq =>
      exact .taken [quote] rfl (List.cons_ne_nil _ _)
        (congrArg (n + ·) (utf8Size_of_lt hquote).symm)
  | case6 n c s hs hc hq ih => exact Takes.before (v := [c]) ih fun _ _ _ => ⟨_, rfl⟩

theorem takes_while {p : Char → Bool} {t : Tok} (hp : ∀ c, p c = true → c.toNat < 0x80)
    (hc : p c = true) (start : Nat) (s : List Char) :
    Takes start 0 (c :: s) (.ok (t, ((c :: s).takeWhile p).length, (c :: s).dropWhile p)) := by
  refine .taken ((c :: s).takeWhile p) List.takeWhile_append_dropWhile.symm ?_ ?_
  · rw [List.takeWhile_cons_of_pos hc]
    exact List.cons_ne_nil _ _
  · rw [bytes_of_lt fun c h => hp c (List.mem_takeWhile_imp h), Nat.zero_add]

theorem prefix_of_punct? {p : Punct} (h : punct? s = some p) : p.chars <+: s := by
  unfold punct? at h
  cases hfound : Punct.all.find? (fun p => p.chars.isPrefixOf s) with
  | none => rw [hfound] at h; cases h
  | some q =>
    have hq := List.find?_some hfound
    rw [List.isPrefixOf_iff_prefix] at hq
    rw [hfound] at h
    split at h
    · rename_i hdot
      obtain rfl := Option.some.inj hdot
      split_ifs at h
      · obtain rfl := Option.some.inj h
        exact List.IsPrefix.trans ⟨['.'], rfl⟩ hq
      · obtain rfl := Option.some.inj h
        exact hq
    · obtain rfl := Option.some.inj h
      exact hq

theorem takes_token (start : Nat) (c : Char) (s : List Char) :
    Takes start 0 (c :: s) (token start c s) := by
  unfold token
  split_ifs with hw hn hq
  · exact takes_while (fun _ => lt_of_continuesWord) (continuesWord_of_startsWord hw) start s
  · exact takes_while (fun _ => lt_of_continuesNumber) (continuesNumber_of_startsNumber hn) start s
  · have hc : c.toNat < 0x80 := by
      rcases (Bool.or_eq_true _ _ ▸ hq : _ ∨ _) with h | h <;> rw [of_decide_eq_true h] <;> decide
    have hlen : bytes [c] = 1 := bytes_of_lt (by simpa using hc)
    have hbody := takes_stringBody hc start 1 s
    rw [← hlen, ← Nat.zero_add (bytes [c])] at hbody
    have h := hbody.before (f := fun x => .ok (Tok.string (.ofList x.1), x.2)) fun _ _ _ => ⟨_, rfl⟩
    rwa [Nat.zero_add, hlen] at h
  · cases hp : punct? (c :: s) with
    | none => exact .error rfl
    | some p =>
      obtain ⟨rest, hrest⟩ := prefix_of_punct? hp
      refine .taken p.chars ?_ ?_ ?_
      · rw [← hrest, List.drop_left]
      · cases p <;> decide
      · rw [bytes_of_lt (lt_of_mem_chars p), Nat.zero_add]

/-! ## All tokens -/

/-- What stands between tokens, with some text after it. -/
def IsGap (w s : List Char) : Prop :=
  (∃ c, w = [c] ∧ isSpace c = true) ∨ ∃ v, w = '/' :: '/' :: v ∧ '\n' ∉ v ∧ ∀ c ∈ s.head?, c = '\n'

/-- How the lexer goes over a text that stands after some characters. -/
inductive Scans : List Char → List Char → Scan (List Token) → Prop
  | done (pre : List Char) : Scans pre [] (.ok [⟨.eof, bytes pre, bytes pre⟩])
  | gap {pre w s : List Char} {r : Scan (List Token)} (gap : IsGap w s)
      (scans : Scans (pre ++ w) s r) : Scans pre (w ++ s) r
  | stop {pre s : List Char} {c : Char} {h : Halt ReadError}
      (stop : token (bytes pre) c s = .error h) :
    Scans pre (c :: s) (.error h)
  | take {pre s w rest : List Char} {c : Char} {t : Tok} {r : Scan (List Token)}
    (taken : token (bytes pre) c s = .ok (t, bytes w, rest)) (split : c :: s = w ++ rest)
    (some : w ≠ []) (scans : Scans (pre ++ w) rest r) :
    Scans pre (c :: s) (r.map (⟨t, bytes pre, bytes (pre ++ w)⟩ :: ·))

theorem isGap_comment (s : List Char) :
    IsGap (('/' :: '/' :: s).takeWhile (· ≠ '\n')) (('/' :: '/' :: s).dropWhile (· ≠ '\n')) := by
  refine .inr ⟨s.takeWhile (· ≠ '\n'), rfl, fun h => ?_, fun c hc => ?_⟩
  · simpa using List.mem_takeWhile_imp h
  · have h := List.head?_dropWhile_not (· ≠ '\n') ('/' :: '/' :: s)
    rw [hc] at h
    simpa using h

theorem scans_tokensTo (n : Nat) (pre s : List Char) (hn : s.length ≤ n) :
    Scans pre s (tokensTo n (bytes pre) s) := by
  induction n generalizing pre s with
  | zero =>
    obtain rfl := List.length_eq_zero_iff.mp (Nat.le_zero.mp hn)
    exact .done pre
  | succ n ih =>
    cases s with
    | nil => exact .done pre
    | cons c s =>
      have hs : s.length ≤ n := Nat.le_of_succ_le_succ hn
      rw [tokensTo]
      dsimp only
      -- a blank, a comment or a token, and each takes a character at least
      split_ifs with hspace hcomment
      · have hlen : bytes pre + 1 = bytes (pre ++ [c]) := by
          rw [bytes_append, bytes_cons, utf8Size_of_lt (lt_of_isSpace hspace), bytes_nil]
        rw [hlen]
        exact Scans.gap (w := [c]) (.inl ⟨c, rfl, hspace⟩) (ih _ s hs)
      · obtain ⟨rfl, s, rfl⟩ : c = '/' ∧ ∃ u, s = '/' :: u := by
          rw [Bool.and_eq_true, decide_eq_true_eq, decide_eq_true_eq, List.head?_eq_some_iff]
            at hcomment
          exact hcomment
        rw [← bytes_append]
        have h := Scans.gap (isGap_comment s)
          (ih (pre ++ _) (('/' :: '/' :: s).dropWhile (· ≠ '\n')) ?_)
        · rwa [List.takeWhile_append_dropWhile] at h
        · rw [List.dropWhile_cons_of_pos (by decide)]
          exact (List.dropWhile_sublist _).length_le.trans hs
      · have htakes := takes_token (bytes pre) c s
        cases ht : token (bytes pre) c s with
        | error h => exact .stop ht
        | ok x =>
          rw [ht] at htakes
          cases htakes with
          | @taken t len rest w split some length =>
            obtain rfl : len = bytes w := by rw [length, Nat.zero_add]
            have hrest : rest.length ≤ n := by
              have := congrArg List.length split
              have := List.length_pos_of_ne_nil some
              simp only [List.length_cons, List.length_append] at *
              omega
            have h := Scans.take ht split some (ih (pre ++ w) rest hrest)
            rw [bytes_append] at h
            change Scans pre (c :: s) (tokensTo n (bytes pre + bytes w) rest >>= fun ts =>
              .ok (⟨t, bytes pre, bytes pre + bytes w⟩ :: ts))
            exact h

theorem Scans.lexed {r : Scan (List Token)} (h : Scans pre s r) (ts : List Token)
    (hr : r = .ok ts) : ∀ t ∈ ts, t.tok.Lexed := by
  induction h generalizing ts with
  | done =>
    obtain rfl := Except.ok.inj hr
    simp [Tok.Lexed]
  | gap _ _ ih => exact ih ts hr
  | stop => cases hr
  | @take _ _ _ _ _ _ r taken _ _ _ ih =>
    cases r with
    | error e => cases hr
    | ok us =>
      obtain rfl := Except.ok.inj hr
      exact List.forall_mem_cons.mpr ⟨lexed_token taken, ih us rfl⟩

theorem scans_tokens (source : String) : Scans [] source.toList (tokens source) :=
  scans_tokensTo _ [] source.toList le_rfl

theorem lexed_tokens {source : String} {ts : List Token} (h : tokens source = .ok ts) :
    ∀ t ∈ ts, t.tok.Lexed :=
  (scans_tokens source).lexed ts h

/-! ## Places -/

/-- A character of the text begins at byte `n`, or the text ends there. -/
def IsBoundary (s : List Char) (n : Nat) : Prop := ∃ pre rest, s = pre ++ rest ∧ n = bytes pre

/-- Tokens up to the end of input, each of which begins at a place where `P` holds. -/
structure Closes (P : Nat → Prop) (ts : List Token) : Prop where
  last : ∃ t ∈ ts.getLast?, t.tok = .eof
  starts : ∀ t ∈ ts, P t.start

theorem Closes.ne_nil {P : Nat → Prop} {ts : List Token} (h : Closes P ts) : ts ≠ [] := by
  rintro rfl
  obtain ⟨t, ht, -⟩ := h.last
  cases ht

/-- What may come of a text. -/
def Scanned (s : List Char) : Scan (List Token) → Prop
  | .ok ts => Closes (IsBoundary s) ts
  | .error (.error e) => IsBoundary s e.pos
  | .error (.fault f) => ∃ w c rest, s = w ++ '\\' :: c :: rest ∧ 0x80 ≤ c.toNat ∧
      f = .insideCharacter (bytes w + 2)

theorem Scans.scanned {r : Scan (List Token)} (h : Scans pre s r) : Scanned (pre ++ s) r := by
  induction h with
  | done pre =>
    refine ⟨⟨_, rfl, rfl⟩, fun t ht => ?_⟩
    rw [List.mem_singleton.mp ht]
    exact ⟨pre, [], rfl, rfl⟩
  | gap _ _ ih => rwa [List.append_assoc] at ih
  | @stop pre s c h stop =>
    have htakes := takes_token (bytes pre) c s
    rw [stop] at htakes
    cases htakes with
    | error pos => exact ⟨pre, c :: s, rfl, pos⟩
    | inside w d rest split wide pos =>
      refine ⟨pre ++ w, d, rest, ?_, wide, ?_⟩
      · rw [split, List.append_assoc]
      · rw [pos, bytes_append]
        rfl
  | @take pre s w rest c t r taken split some _ ih =>
    rw [List.append_assoc, ← split] at ih
    rcases r with (e | f) | ts
    · exact ih
    · exact ih
    · obtain ⟨u, hu, heof⟩ := ih.last
      refine ⟨⟨u, ?_, heof⟩, List.forall_mem_cons.mpr ⟨⟨pre, c :: s, rfl, rfl⟩, ih.starts⟩⟩
      rw [List.getLast?_cons, hu]
      rfl

theorem scanned_tokens (source : String) : Scanned source.toList (tokens source) :=
  (scans_tokens source).scanned

end Lexer

end ChainLowering
