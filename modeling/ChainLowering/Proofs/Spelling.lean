import Mathlib.Data.List.Chain
import Mathlib.Data.List.TakeWhile
import ChainLowering.Print.Piece
import ChainLowering.Proofs.Lexing

/-!
# Pieces and tokens

A row of pieces is split into their tokens again, if the pieces are spelled
right and none of them could go on with the character after it.
-/

namespace ChainLowering

namespace Text

/-- In double quotes the character stands for itself, or is written with a backslash and one of four
signs. -/
def isPlain (c : Char) : Bool :=
  [[c], ['\\', 'n'], ['\\', 't'], ['\\', '\\'], ['\\', '"']].contains (escape '"' c)

theorem isPlain_cases {c : Char} (h : isPlain c = true) :
    (escape '"' c = [c] ∧ c ≠ '\\' ∧ c ≠ '"') ∨ ∃ e : Char, escape '"' c = ['\\', e] ∧
      e.toNat < 0x80 ∧ (if e = 'n' then '\n' else if e = 't' then '\t' else e) = c := by
  revert h
  unfold isPlain escape
  split_ifs with hz ht hr hn hb hq hu
  · subst hz; exact fun h => absurd h (by decide)
  · subst ht; exact fun _ => .inr ⟨'t', rfl, by decide, rfl⟩
  · subst hr; exact fun h => absurd h (by decide)
  · subst hn; exact fun _ => .inr ⟨'n', rfl, by decide, rfl⟩
  · subst hb; exact fun _ => .inr ⟨'\\', rfl, by decide, rfl⟩
  · subst hq; exact fun _ => .inr ⟨'"', rfl, by decide, rfl⟩
  · intro h
    simp [codePoint] at h
  · exact fun _ => .inl ⟨rfl, hb, hq⟩

end Text

namespace Lexer

variable {c : Char} {cs s rest : List Char} {start : Nat}

theorem stringBody_quoted (hs : ∀ c ∈ cs, Text.isPlain c = true) (n : Nat) :
    ∃ len, stringBody start '"' n (cs.flatMap (Text.escape '"') ++ '"' :: rest) = .ok (cs,
      len, rest) := by
  induction cs generalizing n with
  | nil => exact ⟨n + 1, rfl⟩
  | cons c cs ih =>
    obtain ⟨hc, hcs⟩ := List.forall_mem_cons.mp hs
    rw [List.flatMap_cons, List.append_assoc]
    obtain ⟨he, hb, hq⟩ | ⟨e, he, hlt, hval⟩ := Text.isPlain_cases hc
    · obtain ⟨len, h⟩ := ih hcs (n + c.utf8Size)
      rw [he, List.singleton_append, stringBody.eq_3 _ _ _ _ _ fun _ _ e _ => hb e,
        if_neg hb, if_neg hq, h]
      exact ⟨len, rfl⟩
    · obtain ⟨len, h⟩ := ih hcs (n + 2)
      rw [he, List.cons_append, List.singleton_append, stringBody, if_pos hlt, h]
      exact ⟨len, by rw [← hval]; rfl⟩

/-- No character of the class comes next. -/
def Clear (p : Char → Bool) (rest : List Char) : Prop := ∀ c ∈ rest.head?, p c = false

theorem takeWhile_of_clear {p : Char → Bool} (hs : cs.all p = true) (hr : Clear p rest) :
    (cs ++ rest).takeWhile p = cs ∧ (cs ++ rest).dropWhile p = rest := by
  have hs : ∀ c ∈ cs, p c = true := List.all_eq_true.mp hs
  rw [List.takeWhile_append_of_pos hs, List.dropWhile_append_of_pos hs]
  cases rest with
  | nil => exact ⟨List.append_nil cs, rfl⟩
  | cons c rest =>
    have hc : p c = false := hr c rfl
    rw [List.takeWhile_cons_of_neg (by simp [hc]), List.dropWhile_cons_of_neg (by simp [hc])]
    exact ⟨List.append_nil cs, rfl⟩

theorem isWord_iff {w : String} : isWord w = true ↔
    ∃ c cs, w.toList = c :: cs ∧ startsWord c = true ∧ cs.all continuesWord = true := by
  rw [isWord]
  cases h : w.toList <;> simp

theorem isNumber_iff {w : String} :
    isNumber w = true ↔ ∃ c cs, w.toList = c :: cs ∧ startsNumber c cs = true ∧
      (c :: cs).all continuesNumber = true := by
  rw [isNumber]
  cases h : w.toList <;> simp

theorem token_word {w : String} (start : Nat) (hw : w.toList = c :: cs) (hc : startsWord c = true)
    (hcs : cs.all continuesWord = true) (hr : Clear continuesWord rest) :
    ∃ len, token start c (cs ++ rest) = .ok (.ident w, len, rest) := by
  obtain ⟨ht, hd⟩ :=
    takeWhile_of_clear
      (by simp [continuesWord_of_startsWord hc, hcs] : (c :: cs).all continuesWord = true) hr
  rw [token, if_pos hc, ← List.cons_append]
  dsimp only
  rw [ht, hd, ← hw, String.ofList_toList]
  exact ⟨_, rfl⟩

theorem startsWord_of_isDigit (h : c.isDigit = true) : startsWord c = false := by
  simp only [Char.isDigit, Bool.and_eq_true, decide_eq_true_eq, UInt32.le_iff_toNat_le, ge_iff_le]
    at h
  have hne : ∀ d : Char, 57 < d.toNat ∨ d.toNat < 48 → c ≠ d := by
    rintro d hd rfl
    have : c.toNat = c.val.toNat := rfl
    have : '0'.val.toNat = 48 := rfl
    have : '9'.val.toNat = 57 := rfl
    omega
  have hA : 'A'.val.toNat = 65 := rfl
  have ha : 'a'.val.toNat = 97 := rfl
  have h9 : '9'.val.toNat = 57 := rfl
  have hupper : c.isUpper = false := decide_eq_false fun hc => by
    have := UInt32.le_iff_toNat_le.mp hc.1
    omega
  have hlower : c.isLower = false := by
    refine Bool.and_eq_false_iff.mpr (.inl (decide_eq_false fun hc => ?_))
    have := UInt32.le_iff_toNat_le.mp hc
    omega
  have halpha : c.isAlpha = false := Bool.or_eq_false_iff.mpr ⟨hupper, hlower⟩
  simp only [startsWord, Bool.or_eq_false_iff, decide_eq_false_iff_not]
  exact ⟨⟨halpha, hne '_' (by decide)⟩, hne '$' (by decide)⟩

theorem startsWord_of_startsNumber (h : startsNumber c s = true) : startsWord c = false := by
  simp only [startsNumber, Bool.or_eq_true, Bool.and_eq_true, decide_eq_true_eq] at h
  rcases h with h | ⟨rfl, -⟩
  · exact startsWord_of_isDigit h
  · rfl

theorem token_number {w : String} (start : Nat) (hw : w.toList = c :: cs)
    (hc : startsNumber c cs = true) (hcs : (c :: cs).all continuesNumber = true)
    (hr : Clear continuesNumber rest) :
    ∃ len, token start c (cs ++ rest) = .ok (.number w, len, rest) := by
  obtain ⟨ht, hd⟩ := takeWhile_of_clear hcs hr
  have hc' : startsNumber c (cs ++ rest) = true := by
    cases cs with
    | nil =>
      have : c.isDigit = true := by simpa [startsNumber, startsWithDigit] using hc
      simp [startsNumber, this]
    | cons d cs => exact hc
  rw [token, if_neg (by simp [startsWord_of_startsNumber hc]), if_pos hc', ← List.cons_append]
  dsimp only
  rw [ht, hd, ← hw, String.ofList_toList]
  exact ⟨_, rfl⟩

theorem token_string {w : String} (start : Nat) (rest : List Char)
    (hs : ∀ c ∈ w.toList, Text.isPlain c = true) :
    ∃ len, token start '"' (w.toList.flatMap (Text.escape '"') ++ '"' :: rest) = .ok (.string w,
      len, rest) := by
  obtain ⟨len, h⟩ := stringBody_quoted hs 1
  rw [token, if_neg (by decide), if_neg (by simp [startsNumber]), if_pos (by decide), h]
  refine ⟨len, ?_⟩
  change Except.ok (Tok.string (.ofList w.toList), len, rest) = _
  rw [String.ofList_toList]

end Lexer

/-- The punctuator would go on with the character. -/
def Punct.goesOn (p : Punct) (c : Char) : Bool :=
  match p with
  | .assign | .eq | .bang | .ne => c = '='
  | .question => c = '.'
  | .questionDot | .dot => c.isDigit
  | _ => false

namespace Lexer

variable {rest : List Char} {start : Nat}

theorem startsWithDigit_of_clear (hr : Clear Char.isDigit rest) : startsWithDigit rest = false := by
  cases rest with
  | nil => rfl
  | cons c rest => exact hr c rfl

theorem punct?_chars (p : Punct) (hr : Clear p.goesOn rest) :
    punct? (p.chars ++ rest) = some p := by
  cases p
  case assign | eq | bang | ne =>
    rcases rest with _ | ⟨c, rest⟩
    · rfl
    · have hc : ('=' == c) = false := by
        have : c ≠ '=' := by simpa [Clear, Punct.goesOn] using hr
        simpa using this.symm
      simp [punct?, Punct.chars, Punct.text, Punct.all, List.isPrefixOf, hc]
  case question =>
    rcases rest with _ | ⟨c, rest⟩
    · rfl
    · have hc : ('.' == c) = false := by
        have : c ≠ '.' := by simpa [Clear, Punct.goesOn] using hr
        simpa using this.symm
      simp [punct?, Punct.chars, Punct.text, Punct.all, List.isPrefixOf, hc]
  case questionDot =>
    have hd : startsWithDigit rest = false := startsWithDigit_of_clear hr
    simp [punct?, Punct.chars, Punct.text, Punct.all, List.isPrefixOf, hd]
  all_goals simp [punct?, Punct.chars, Punct.text, Punct.all, List.isPrefixOf]

theorem token_punct (start : Nat) (p : Punct) (hr : Clear p.goesOn rest) :
    ∃ c cs len, p.chars = c :: cs ∧ isSpace c = false ∧ c ≠ '/' ∧
    token start c (cs ++ rest) = .ok (.punct p, len, rest) := by
  obtain ⟨c, cs, hp⟩ : ∃ c cs, p.chars = c :: cs := by
    cases p <;> exact ⟨_, _, rfl⟩
  have hc : isSpace c = false ∧ c ≠ '/' ∧ startsWord c = false ∧ c.isDigit = false ∧ c ≠ '"' ∧
      c ≠ '\x27' := by
    cases p <;> (obtain ⟨rfl, -⟩ := List.cons.inj hp; decide)
  obtain ⟨hspace, hslash, hword, hdigit, hq, hq'⟩ := hc
  have hnumber : startsNumber c (cs ++ rest) = false := by
    rw [startsNumber, hdigit, Bool.false_or]
    by_cases hdot : p = .dot
    · subst hdot
      obtain ⟨rfl, rfl⟩ := List.cons.inj hp
      exact startsWithDigit_of_clear hr
    · have : c ≠ '.' := by
        cases p
        case dot => exact absurd rfl hdot
        all_goals (obtain ⟨rfl, -⟩ := List.cons.inj hp; decide)
      simp [this]
  refine ⟨c, cs, p.chars.length, hp, hspace, hslash, ?_⟩
  have h := punct?_chars p hr
  rw [hp, List.cons_append] at h
  rw [token, if_neg (by simp [hword]), if_neg (by simp [hnumber]), if_neg (by simp [hq, hq']), h]
  dsimp only
  rw [hp, ← List.cons_append, List.drop_left]

end Lexer

namespace Piece

open Lexer

/-- The token that a piece is, if it is no blank. -/
def tok? : Piece → Option Tok
  | word s => some (.ident s)
  | number s => some (.number s)
  | quoted s => some (.string s)
  | punct p => some (.punct p)
  | space | line _ => none

def toks (ps : List Piece) : List Tok := ps.filterMap tok?

/-- A piece that is read as its token. -/
def Spelled : Piece → Prop
  | word s => isWord s = true
  | number s => isNumber s = true
  | quoted s => ∀ c ∈ s.toList, Text.isPlain c = true
  | _ => True

/-- The piece would go on with the character. -/
def goesOn : Piece → Char → Bool
  | word _ => continuesWord
  | number _ => continuesNumber
  | punct p => p.goesOn
  | quoted _ | space | line _ => fun _ => false

/-- The second piece may stand right after the first. -/
def Apart (p q : Piece) : Prop := Clear p.goesOn q.chars

variable {p : Piece} {ps : List Piece} {rest : List Char} {n : Nat}

theorem clean_of {f : Char → Bool} {c : Char}
    (hf : [' ', '\t', '\n', '\x0c', '\r', '/'].any f = false) (h : f c = true) :
    isSpace c = false ∧ c ≠ '/' := by
  have hne : ∀ d ∈ [' ', '\t', '\n', '\x0c', '\r', '/'], c ≠ d := by
    rintro d hd rfl
    exact List.any_eq_false.mp hf c hd h
  simp only [List.forall_mem_cons] at hne
  simp [isSpace, hne]

theorem token_chars {t : Tok} (ht : p.tok? = some t) (hp : p.Spelled) (hr : Clear p.goesOn rest)
    (start : Nat) :
    ∃ c cs len, p.chars = c :: cs ∧ isSpace c = false ∧ c ≠ '/' ∧
      token start c (cs ++ rest) = .ok (t, len, rest) := by
  cases p with
  | word s =>
    obtain rfl := Option.some.inj ht
    obtain ⟨c, cs, hw, hc, hcs⟩ := isWord_iff.mp hp
    obtain ⟨len, h⟩ := token_word start hw hc hcs hr
    obtain ⟨hspace, hslash⟩ := clean_of (f := startsWord) (by decide) hc
    exact ⟨c, cs, len, hw, hspace, hslash, h⟩
  | number s =>
    obtain rfl := Option.some.inj ht
    obtain ⟨c, cs, hw, hc, hcs⟩ := isNumber_iff.mp hp
    obtain ⟨len, h⟩ := token_number start hw hc hcs hr
    obtain ⟨hspace, hslash⟩ :=
      clean_of (f := continuesNumber) (by decide) (continuesNumber_of_startsNumber hc)
    exact ⟨c, cs, len, hw, hspace, hslash, h⟩
  | quoted s =>
    obtain rfl := Option.some.inj ht
    obtain ⟨len, h⟩ := token_string start rest hp
    exact ⟨'"', s.toList.flatMap (Text.escape '"') ++ ['"'], len,
      rfl, by decide, by decide, by simpa using h⟩
  | punct p =>
    obtain rfl := Option.some.inj ht
    obtain ⟨c, cs, len, h⟩ := token_punct start p hr
    exact ⟨c, cs, len, h⟩
  | space => cases ht
  | line => cases ht

theorem tokensTo_blanks {cs : List Char} (hcs : cs.all isSpace = true) (pos : Nat) :
    tokensTo (cs.length + n) pos (cs ++ rest) = tokensTo n (pos + cs.length) rest := by
  induction cs generalizing pos with
  | nil => simp
  | cons c cs ih =>
    rw [List.all_cons, Bool.and_eq_true] at hcs
    rw [List.cons_append, List.length_cons, Nat.add_right_comm, tokensTo, if_pos hcs.1, ih hcs.2,
      Nat.add_assoc, Nat.add_comm 1]

theorem isSpace_chars (hp : p.tok? = none) : p.chars.all isSpace = true := by
  cases p with
  | space => rfl
  | line d => simp [chars, isSpace]
  | _ => cases hp

theorem exists_chars (hp : p.Spelled) : ∃ c cs, p.chars = c :: cs := by
  cases p with
  | word s =>
    obtain ⟨c, cs, hw, -⟩ := isWord_iff.mp hp
    exact ⟨c, cs, hw⟩
  | number s =>
    obtain ⟨c, cs, hw, -⟩ := isNumber_iff.mp hp
    exact ⟨c, cs, hw⟩
  | punct p => cases p <;> exact ⟨_, _, rfl⟩
  | _ => exact ⟨_, _, rfl⟩

theorem clear_flatMap (hs : ∀ q ∈ ps, q.Spelled) (hc : (p :: ps).IsChain Apart) :
    Clear p.goesOn (ps.flatMap chars) := by
  cases ps with
  | nil => exact fun c hc => nomatch hc
  | cons q ps =>
    obtain ⟨c, cs, hq⟩ := exists_chars (hs q List.mem_cons_self)
    have hpq : Clear p.goesOn q.chars := (List.isChain_cons_cons.mp hc).1
    rw [List.flatMap_cons, hq]
    rw [hq] at hpq
    exact hpq

/-- The tokens of a row of pieces. -/
theorem tokensTo_pieces (hs : ∀ p ∈ ps, p.Spelled) (hc : ps.IsChain Apart) (pos : Nat)
    (hn : (ps.flatMap chars).length ≤ n) :
    ∃ ts, tokensTo n pos (ps.flatMap chars) = .ok ts ∧ ts.map Token.tok = toks ps ++ [.eof] := by
  induction ps generalizing n pos with
  | nil => exact ⟨[⟨.eof, pos, pos⟩], by rw [List.flatMap_nil, tokensTo], rfl⟩
  | cons p ps ih =>
    obtain ⟨hp, hps⟩ := List.forall_mem_cons.mp hs
    have hclear := clear_flatMap hps hc
    rw [List.flatMap_cons] at hn ⊢
    rw [List.length_append] at hn
    cases ht : p.tok? with
    | none =>
      obtain ⟨m, rfl⟩ : ∃ m, n = p.chars.length + m := ⟨n - p.chars.length, by omega⟩
      rw [tokensTo_blanks (isSpace_chars ht)]
      obtain ⟨ts, h, e⟩ := ih hps hc.tail (pos + p.chars.length) (n := m) (by omega)
      exact ⟨ts, h, by rw [e, toks, toks, List.filterMap_cons_none ht]⟩
    | some t =>
      obtain ⟨c, cs, len, hchars, hspace, hslash, htoken⟩ := token_chars ht hp hclear pos
      rw [hchars, List.length_cons] at hn
      obtain ⟨m, rfl⟩ : ∃ m, n = m + 1 := ⟨n - 1, by omega⟩
      obtain ⟨ts, h, e⟩ := ih hps hc.tail (pos + len) (n := m) (by omega)
      refine ⟨⟨t, pos, pos + len⟩ :: ts, ?_, ?_⟩
      · rw [hchars, List.cons_append, tokensTo, if_neg (by simp [hspace]),
          if_neg (by simp [hslash]), htoken]
        change (tokensTo m (pos + len) (ps.flatMap chars) >>= _) = _
        rw [h]
        rfl
      · rw [List.map_cons, e, toks, toks, List.filterMap_cons_some ht, List.cons_append]

theorem tokens_text (hs : ∀ p ∈ ps, p.Spelled) (hc : ps.IsChain Apart) :
    ∃ ts, tokens (text ps) = .ok ts ∧ ts.map Token.tok = toks ps ++ [.eof] := by
  have htext : (text ps).toList = ps.flatMap chars := String.toList_ofList
  simp only [tokens, htext]
  exact tokensTo_pieces hs hc 0 le_rfl

end Piece

end ChainLowering
