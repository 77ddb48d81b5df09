import ChainLowering.Proofs.Leaves
import ChainLowering.Proofs.Places

/-!
# The spellings of tokens

A text that the lexer goes through is made of the spellings of its tokens and
of blanks and comments between them. Each spelling goes on as far as it can,
but for a `?` before a number that begins with its point.
-/

namespace ChainLowering

namespace Lexer

variable {c quote : Char} {s v w pre rest value : List Char} {start n len : Nat}
    {t : Tok} {p : Punct}
  {ts : List Token} {r : Scan (List Token)}

/-! ## How tokens are spelled -/

/-- What the characters between the quotes of a string stand for. -/
inductive Denotes (quote : Char) : List Char → List Char → Prop
  | nil : Denotes quote [] []
  | plain {c : Char} {w v : List Char} (hb : c ≠ '\\') (hq : c ≠ quote) (h : Denotes quote w v) :
      Denotes quote (c :: w) (c :: v)
  | escape {e : Char} {w v : List Char} (h : Denotes quote w v) :
    Denotes quote ('\\' :: e :: w) ((if e = 'n' then '\n' else if e = 't' then '\t' else e) :: v)

/-- A `?` comes before a number that begins with its point. -/
def choosesNumber (s : List Char) : Bool :=
  Punct.questionDot.chars.isPrefixOf s && startsWithDigit (s.drop 2)

/-- The characters `w` are the spelling of a token when `rest` comes after them. -/
def Spells (w rest : List Char) : Tok → Prop
  | .ident x => w = x.toList ∧ isWord x = true ∧ Clear continuesWord rest
  | .number x => w = x.toList ∧ isNumber x = true ∧ Clear continuesNumber rest
  | .string x => ∃ quote body, (quote = '"' ∨ quote = '\x27') ∧ w = quote :: (body ++ [quote]) ∧
      Denotes quote body x.toList
  | .punct p => w = p.chars ∧
    if choosesNumber (w ++ rest) then p = .question else ∀ q : Punct, q.chars <+: w ++ rest →
    q.chars.length ≤ p.chars.length
  | .eof => False

theorem clear_dropWhile (f : Char → Bool) (s : List Char) : Clear f (s.dropWhile f) := by
  intro c hc
  have h := List.head?_dropWhile_not f s
  rw [hc] at h
  simpa using h

theorem denotes_stringBody (h : stringBody start quote n s = .ok (value, len, rest)) :
    ∃ body, s = body ++ quote :: rest ∧ Denotes quote body value := by
  fun_induction stringBody start quote n s generalizing value len rest with
  | case1 | case3 | case4 => cases h
  | case2 n e s he ih =>
    obtain ⟨v, hs, rfl⟩ := push_ok h
    obtain ⟨body, rfl, hbody⟩ := ih hs
    exact ⟨'\\' :: e :: body, rfl, .escape hbody⟩
  | case5 n s _ hq =>
    obtain ⟨rfl, hrest⟩ := Prod.mk.inj (Except.ok.inj h)
    obtain ⟨-, rfl⟩ := Prod.mk.inj hrest
    exact ⟨[], rfl, .nil⟩
  | case6 n c s _ hb hq ih =>
    obtain ⟨v, hs, rfl⟩ := push_ok h
    obtain ⟨body, rfl, hbody⟩ := ih hs
    exact ⟨c :: body, rfl, .plain hb hq hbody⟩

/-- Longer punctuators come first, so the first one that fits is as long as any. -/
theorem longest_of_find? (h : Punct.all.find? (fun p => p.chars.isPrefixOf s) = some p) (q : Punct)
    (hq : q.chars <+: s) :
    q.chars.length ≤ p.chars.length := by
  have hsorted : Punct.all.Pairwise fun p q => q.chars.length ≤ p.chars.length := by decide
  obtain ⟨-, before, after, hall, hbefore⟩ := List.find?_eq_some_iff_append.mp h
  have hmem := Punct.mem_all q
  rw [hall, List.mem_append, List.mem_cons] at hmem
  rw [hall, List.pairwise_append, List.pairwise_cons] at hsorted
  rcases hmem with hmem | rfl | hmem
  · have := hbefore q hmem
    simp only [List.isPrefixOf_iff_prefix.mpr hq] at this
    cases this
  · exact le_rfl
  · exact hsorted.2.1.1 q hmem

theorem spells_punct? (h : punct? (w ++ rest) = some p) (hw : w = p.chars) :
    Spells w rest (.punct p) := by
  refine ⟨hw, ?_⟩
  unfold punct? at h
  split at h
  · rename_i hfound
    have hprefix := List.find?_some hfound
    split_ifs at h with hdigit
    · rw [choosesNumber, hprefix, hdigit]
      exact (Option.some.inj h).symm
    · rw [if_neg (by simp [choosesNumber, hdigit]), ← Option.some.inj h]
      exact longest_of_find? hfound
  · rename_i hfound
    have hlongest := longest_of_find? h
    have hnot : choosesNumber (w ++ rest) = false := by
      by_contra hchooses
      simp only [choosesNumber, Bool.not_eq_false, Bool.and_eq_true, List.isPrefixOf_iff_prefix]
        at hchooses
      have hp := List.find?_some h
      rw [List.isPrefixOf_iff_prefix] at hp
      have hprefix :=
        List.prefix_of_prefix_length_le hchooses.1 hp (hlongest .questionDot hchooses.1)
      have hdot : ∀ p ∈ Punct.all, Punct.questionDot.chars <+: p.chars →
          p = .questionDot := by decide
      exact hfound (hdot p (Punct.mem_all p) hprefix ▸ h)
    rw [hnot]
    exact hlongest

theorem spells_token (h : token start c s = .ok (t, len, rest)) (hs : c :: s = w ++ rest) :
    Spells w rest t := by
  have hclass {f : Char → Bool} (hrest : rest = (c :: s).dropWhile f) : w = (c :: s).takeWhile f ∧
      Clear f rest := by
    refine ⟨?_, hrest ▸ clear_dropWhile f _⟩
    apply (List.append_left_inj rest).mp
    rw [← hs, hrest, List.takeWhile_append_dropWhile]
  unfold token at h
  split_ifs at h with hword hnumber hquote
  · obtain ⟨rfl, hrest⟩ := Prod.mk.inj (Except.ok.inj h)
    obtain ⟨hw, hclear⟩ := hclass (Prod.mk.inj hrest).2.symm
    exact ⟨by rw [hw, String.toList_ofList], isWord_takeWhile hword, hclear⟩
  · obtain ⟨rfl, hrest⟩ := Prod.mk.inj (Except.ok.inj h)
    obtain ⟨hw, hclear⟩ := hclass (Prod.mk.inj hrest).2.symm
    exact ⟨by rw [hw, String.toList_ofList], isNumber_takeWhile hnumber, hclear⟩
  · cases hb : stringBody start c 1 s with
    | error e => rw [hb] at h; cases h
    | ok x =>
      obtain ⟨value, m, after⟩ := x
      rw [hb] at h
      obtain ⟨rfl, hrest⟩ := Prod.mk.inj (Except.ok.inj h)
      obtain ⟨-, rfl⟩ := Prod.mk.inj hrest
      obtain ⟨body, rfl, hbody⟩ := denotes_stringBody hb
      refine ⟨c, body, by simpa using hquote, ?_, by rwa [String.toList_ofList]⟩
      apply (List.append_left_inj after).mp
      rw [← hs]
      simp
  · cases hp : punct? (c :: s) with
    | none => rw [hp] at h; cases h
    | some p =>
      rw [hp] at h
      obtain ⟨rfl, hrest⟩ := Prod.mk.inj (Except.ok.inj h)
      obtain ⟨after, hafter⟩ := prefix_of_punct? hp
      obtain rfl : after = rest := by rw [← (Prod.mk.inj hrest).2, ← hafter, List.drop_left]
      apply spells_punct? (hs ▸ hp)
      exact List.append_cancel_right (hs.symm.trans hafter.symm)

/-! ## What stands between tokens -/

/-- Blanks and comments one after the other, up to the text `s`. -/
inductive Gaps : List Char → List Char → Prop
  | none (s : List Char) : Gaps [] s
  | more {v w s : List Char} (first : IsGap v (w ++ s)) (gaps : Gaps w s) : Gaps (v ++ w) s

theorem Gaps.snoc (h : Gaps v (w ++ s)) (hw : IsGap w s) : Gaps (v ++ w) s := by
  generalize hu : w ++ s = u at h
  induction h with
  | none =>
    have := Gaps.more (w := []) (s := s) hw (.none s)
    rwa [List.append_nil] at this
  | more first _ ih =>
    subst hu
    rw [List.append_assoc]
    refine .more ?_ (ih rfl)
    rwa [List.append_assoc]

/-! ## Where it all stands -/

/-- The characters `w` stand between two bytes of a text, and `rest` comes after them. -/
def StandsAt (s : List Char) (i j : Nat) (w rest : List Char) : Prop :=
  ∃ pre, s = pre ++ (w ++ rest) ∧ i = bytes pre ∧ j = bytes (pre ++ w)

/-- Only blanks and comments stand before the tokens, before the first one since byte `n`. -/
def GapsBefore (s : List Char) : Nat → List Token → Prop
  | _, [] => True
  | n, t :: ts => (∃ w rest, StandsAt s n t.start w rest ∧ Gaps w rest) ∧ GapsBefore s t.stop ts

/-- A text is made of the spellings of tokens, which take some bytes each, and of what stands
between them. The end of input comes last and stands where the text ends. -/
structure Covers (s : List Char) (ts : List Token) : Prop where
  spelled : ∃ us, ts = us ++ [⟨.eof, bytes s, bytes s⟩] ∧
    ∀ t ∈ us, t.start < t.stop ∧ ∃ w rest, StandsAt s t.start t.stop w rest ∧ Spells w rest t.tok
  order : ts.Pairwise fun t u => t.stop ≤ u.start
  gaps : GapsBefore s 0 ts

theorem bytes_pos (h : w ≠ []) : 0 < bytes w := by
  cases w with
  | nil => exact absurd rfl h
  | cons c w =>
    rw [bytes_cons]
    exact Nat.add_pos_left c.utf8Size_pos _

theorem Scans.spelled (h : Scans pre s r) (ts : List Token) (hr : r = .ok ts) :
    ∃ us, ts = us ++ [⟨.eof, bytes (pre ++ s), bytes (pre ++ s)⟩] ∧
      ∀ t ∈ us, t.start < t.stop ∧ ∃ w rest, StandsAt (pre ++ s) t.start t.stop w rest ∧
      Spells w rest t.tok := by
  induction h generalizing ts with
  | done pre =>
    obtain rfl := Except.ok.inj hr
    exact ⟨[], by rw [List.append_nil]; rfl, nofun⟩
  | gap _ _ ih =>
    rw [← List.append_assoc]
    exact ih ts hr
  | stop => cases hr
  | @take pre s w rest c t r taken split some _ ih =>
    cases r with
    | error e => cases hr
    | ok us =>
      obtain rfl := Except.ok.inj hr
      obtain ⟨us, rfl, hus⟩ := ih us rfl
      rw [List.append_assoc, ← split] at hus ⊢
      refine ⟨_ :: us, rfl,
        List.forall_mem_cons.mpr
          ⟨⟨?_, w, rest, ⟨pre, by rw [split], rfl, rfl⟩, spells_token taken split⟩, hus⟩⟩
      rw [bytes_append]
      exact Nat.lt_add_of_pos_right (bytes_pos some)

theorem Scans.gaps (h : Scans pre s r) (ts : List Token) (hr : r = .ok ts) {u : List Char}
    (hpre : pre = u ++ v) (hv : Gaps v s) :
    GapsBefore (pre ++ s) (bytes u) ts := by
  induction h generalizing ts u v with
  | done pre =>
    obtain rfl := Except.ok.inj hr
    exact ⟨⟨v, [], ⟨u, by rw [hpre, List.append_assoc], rfl, by rw [hpre]⟩, hv⟩, trivial⟩
  | @gap pre w s r gap _ ih =>
    rw [← List.append_assoc]
    exact ih ts hr (by rw [hpre, List.append_assoc]) (hv.snoc gap)
  | stop => cases hr
  | @take pre s w rest c t r taken split _ _ ih =>
    cases r with
    | error e => cases hr
    | ok us =>
      obtain rfl := Except.ok.inj hr
      have hrest := ih us rfl (u := pre ++ w) (List.append_nil _).symm (.none rest)
      rw [List.append_assoc, ← split] at hrest
      exact ⟨⟨v, c :: s, ⟨u, by rw [hpre, List.append_assoc], rfl, by rw [hpre]⟩, hv⟩, hrest⟩

theorem pairwise_of_inOrder {P : Nat → Prop} (h : Token.InOrder P n ts) :
    ts.Pairwise (fun t u => t.stop ≤ u.start) ∧ ∀ t ∈ ts, n ≤ t.start := by
  induction ts generalizing n with
  | nil => exact ⟨.nil, nofun⟩
  | cons t ts ih =>
    obtain ⟨hn, hle, -, -, hts⟩ := h
    obtain ⟨horder, hstarts⟩ := ih hts
    exact ⟨.cons hstarts horder,
      List.forall_mem_cons.mpr ⟨hn, fun u hu => (hn.trans hle).trans (hstarts u hu)⟩⟩

/-- The tokens of a text stand in their order and apart from each other, none but the end of input
is empty, and nothing is between them but blanks and comments. A word or a number is what stands at
its place and ends before a character that would go on with it; a punctuator is the longest that
stands at its place, or else a `?` before a number that begins with its point. -/
theorem tokens_cover {source : String} (h : tokens source = .ok ts) : Covers source.toList ts where
  spelled := (scans_tokens source).spelled ts h
  order := (pairwise_of_inOrder (inOrder_tokens h)).1
  gaps := (scans_tokens source).gaps ts h (u := []) rfl (.none _)

theorem tokens_cover_sample : ∃ ts, tokens "a?.5:'\\n' //é\n!==_b" = .ok ts ∧
    ts = [⟨.ident "a", 0, 1⟩, ⟨.punct .question, 1, 2⟩, ⟨.number ".5", 2, 4⟩, ⟨.punct .colon, 4, 5⟩,
      ⟨.string "\n", 5, 9⟩, ⟨.punct .strictNe, 15, 18⟩, ⟨.ident "_b", 18, 20⟩, ⟨.eof, 20, 20⟩] ∧
    Covers "a?.5:'\\n' //é\n!==_b".toList ts := by
  have h : tokens "a?.5:'\\n' //é\n!==_b" =
    .ok [⟨.ident "a", 0, 1⟩, ⟨.punct .question, 1, 2⟩, ⟨.number ".5", 2, 4⟩,
      ⟨.punct .colon, 4, 5⟩, ⟨.string "\n", 5, 9⟩, ⟨.punct .strictNe, 15, 18⟩,
      ⟨.ident "_b", 18, 20⟩, ⟨.eof, 20, 20⟩] := rfl
  exact ⟨_, h, rfl, tokens_cover h⟩

end Lexer

end ChainLowering
