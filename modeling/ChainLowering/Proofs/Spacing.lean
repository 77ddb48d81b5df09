import ChainLowering.Proofs.Fits
import ChainLowering.Proofs.Printing

/-!
# Printed rows are split where they were joined

In the row of pieces of a tree no piece would go on with the character after
it. An access to a number is the exception, where the dot would belong to the
number.
-/

namespace ChainLowering

namespace Piece

open Lexer

variable {p q : Piece} {ps qs rs : List Piece} {sharp sharp' : Bool}

def opens : Piece → Bool
  | word _ | number _ | quoted _ => true
  | punct p => p = .leftParen || p = .leftBrace || p = .bang
  | space | line _ => false

/-- An expression may end with the piece; with a number only if `sharp` is not asked for. -/
def closes (sharp : Bool) : Piece → Bool
  | word _ | quoted _ => true
  | number _ => !sharp
  | punct p => p = .rightParen || p = .rightBracket || p = .rightBrace
  | space | line _ => false

def leads : Piece → Bool
  | space | line _ => true
  | punct p => p = .leftParen || p = .leftBracket || p = .bang
  | _ => false

def follows : Piece → Bool
  | space | line _ => true
  | punct p => p = .semicolon || p = .comma || p = .colon || p = .rightParen || p = .rightBracket ||
      p = .leftParen ||
      p = .leftBracket || p = .questionDot
  | _ => false

theorem apart_blank (hp : p.tok? = none) (q : Piece) : Apart p q := by
  intro c _
  cases p <;> first | rfl | cases hp

theorem apart_to_blank (p : Piece) (hq : q.tok? = none) : Apart p q := by
  have hgoes : p.goesOn ' ' = false ∧ p.goesOn '\n' = false := by
    cases p with
    | punct p => cases p <;> exact ⟨rfl, rfl⟩
    | _ => exact ⟨rfl, rfl⟩
  intro c hc
  cases q with
  | space => exact Option.some.inj hc ▸ hgoes.1
  | line => exact Option.some.inj hc ▸ hgoes.2
  | _ => cases hq

theorem head_of_follows (h : p.follows = true) :
    ∃ c ∈ [' ', '\n', ';', ',', ':', ')', ']', '(', '[', '?'], p.chars.head? = some c := by
  cases p with
  | space => exact ⟨' ', by decide, rfl⟩
  | line => exact ⟨'\n', by decide, rfl⟩
  | punct p =>
    cases p
    case semicolon => exact ⟨';', by decide, rfl⟩
    case comma => exact ⟨',', by decide, rfl⟩
    case colon => exact ⟨':', by decide, rfl⟩
    case rightParen => exact ⟨')', by decide, rfl⟩
    case rightBracket => exact ⟨']', by decide, rfl⟩
    case leftParen => exact ⟨'(', by decide, rfl⟩
    case leftBracket => exact ⟨'[', by decide, rfl⟩
    case questionDot => exact ⟨'?', by decide, rfl⟩
    all_goals cases h
  | _ => cases h

theorem apart_of_closes (hp : p.closes sharp = true) (hq : q.follows = true) : Apart p q := by
  obtain ⟨c, hc, hq⟩ := head_of_follows hq
  intro d hd
  obtain rfl := Option.some.inj (hq.symm.trans hd)
  have hne : ∀ f : Char → Bool, [' ', '\n', ';', ',', ':', ')', ']', '(', '[', '?'].any f = false →
      f c = false :=
    fun f hf => Bool.eq_false_iff.mpr (List.any_eq_false.mp hf c hc)
  cases p with
  | word => exact hne continuesWord (by decide)
  | number => exact hne continuesNumber (by decide)
  | punct p => cases p <;> first | rfl | cases hp
  | _ => rfl

theorem apart_dot (hp : p.closes true = true) : Apart p (punct .dot) := by
  intro d hd
  obtain rfl : '.' = d := Option.some.inj hd
  cases p with
  | word => rfl
  | number => cases hp
  | punct p => cases p <;> first | rfl | cases hp
  | _ => rfl

theorem head_ne_assign (hq : q.opens = true) (hs : q.Spelled) : ∀ c ∈ q.chars.head?, c ≠ '=' := by
  rintro c hc rfl
  cases q with
  | word w =>
    obtain ⟨d, cs, hw, hd, -⟩ := isWord_iff.mp hs
    rw [chars, hw] at hc
    obtain rfl : d = '=' := Option.some.inj hc
    exact absurd hd (by decide)
  | number w =>
    obtain ⟨d, cs, hw, hd, -⟩ := isNumber_iff.mp hs
    rw [chars, hw] at hc
    obtain rfl : d = '=' := Option.some.inj hc
    exact absurd (continuesNumber_of_startsNumber hd) (by decide)
  | quoted w => exact absurd (Option.some.inj hc) (by decide)
  | punct p =>
    cases p
    case leftParen | leftBrace | bang => exact absurd (Option.some.inj hc) (by decide)
    all_goals cases hq
  | space => cases hq
  | line => cases hq

theorem apart_of_opens (hp : p.leads = true) (hq : q.opens = true) (hs : q.Spelled) :
    Apart p q := by
  intro c hc
  cases p with
  | punct p =>
    cases p
    case leftParen | leftBracket => rfl
    case bang => exact decide_eq_false (head_ne_assign hq hs c hc)
    all_goals cases hp
  | space | line => rfl
  | _ => cases hp

/-- A row that is split into its pieces. -/
structure Neat (ps : List Piece) : Prop where
  spelled : ∀ p ∈ ps, p.Spelled
  apart : ps.IsChain Apart

/-- A row of pieces that may stand for an expression. -/
structure Term (sharp : Bool) (ps : List Piece) : Prop extends Neat ps where
  first : ∃ p qs, ps = p :: qs ∧ p.opens = true
  last : ∃ qs p, ps = qs ++ [p] ∧ p.closes sharp = true

theorem Term.of_true (h : Term true ps) (sharp : Bool) : Term sharp ps := by
  refine ⟨h.toNeat, h.first, h.last.imp fun qs => .imp fun p => .imp_right ?_⟩
  cases p <;> first | exact id | exact fun h => nomatch h

theorem spelled_word {w : String} (h : isWord w = true) : (word w).Spelled := h

theorem neat_nil : Neat [] := ⟨(fun _ h => nomatch h), .nil⟩

theorem Neat.cons (h : Neat ps) (hp : p.Spelled) (hq : ∀ q ∈ ps.head?, Apart p q) :
    Neat (p :: ps) :=
  ⟨List.forall_mem_cons.mpr ⟨hp, h.spelled⟩, List.isChain_cons.mpr ⟨hq, h.apart⟩⟩

theorem neat_punct (p : Punct) : Neat [punct p] := neat_nil.cons trivial fun _ h => nomatch h

theorem Neat.append (h : Neat ps) (h' : Neat qs) (hpq : ∀ p ∈ ps.getLast?, ∀ q ∈ qs.head?,
    Apart p q) : Neat (ps ++ qs) :=
  ⟨List.forall_mem_append.mpr ⟨h.spelled, h'.spelled⟩, h.apart.append h'.apart hpq⟩

theorem Neat.blank (h : Neat ps) (hp : p.tok? = none) : Neat (p :: ps) :=
  h.cons (by cases p <;> trivial) fun q _ => apart_blank hp q

theorem Term.append (h : Term sharp ps) (h' : Neat qs) (hq : ∀ q ∈ qs.head?, q.follows = true) :
    Neat (ps ++ qs) := by
  obtain ⟨rs, p, rfl, hp⟩ := h.last
  refine h.toNeat.append h' fun p' hp' q hq' => ?_
  rw [List.getLast?_concat] at hp'
  obtain rfl := Option.some.inj hp'
  exact apart_of_closes hp (hq q hq')

theorem Term.cons (h : Term sharp ps) (hp : p.leads = true) (hs : p.Spelled) : Neat (p :: ps) := by
  obtain ⟨q, qs, rfl, hq⟩ := h.first
  refine h.toNeat.cons hs fun q' hq' => ?_
  obtain rfl := Option.some.inj hq'
  exact apart_of_opens hp hq (h.spelled q List.mem_cons_self)

theorem term_single (ho : p.opens = true) (hc : p.closes sharp = true) (hs : p.Spelled) :
    Term sharp [p] :=
  ⟨neat_nil.cons hs (fun _ h => nomatch h), ⟨p, [], rfl, ho⟩, ⟨[], p, rfl, hc⟩⟩

theorem Term.weaken (h : Term sharp ps) : Term false ps := by
  refine ⟨h.toNeat, h.first, h.last.imp fun qs => .imp fun p => .imp_right ?_⟩
  cases p <;> first | exact id | exact fun _ => rfl

theorem Neat.join (h : Neat ps) (h' : Neat qs) (hp : p.tok? = none) : Neat (ps ++ p :: qs) := by
  refine h.append (h'.blank hp) fun q _ r hr => ?_
  obtain rfl := Option.some.inj hr
  exact apart_to_blank q hp

theorem Term.suffix (h : Term sharp ps) (h' : Neat qs)
    (hq : ∃ q rs, qs = q :: rs ∧ q.follows = true) (hlast : ∃ rs p, qs = rs ++ [p] ∧
      p.closes sharp' = true) : Term sharp' (ps ++ qs) := by
  obtain ⟨q, rs, rfl, hq⟩ := hq
  obtain ⟨us, p, e, hp⟩ := hlast
  obtain ⟨r, vs, rfl, hr⟩ := h.first
  refine ⟨h.append h' fun q' hq' => Option.some.inj hq' ▸ hq, ⟨r, vs ++ q :: rs, rfl, hr⟩,
    ⟨r :: vs ++ us, p, ?_, hp⟩⟩
  rw [e, List.append_assoc]

theorem Term.between (h : Term sharp ps) (h' : Term sharp' qs) (x : Punct) :
    Term sharp' (ps ++ space :: punct x :: space :: qs) := by
  have hx : Neat (punct x :: space :: qs) :=
    (h'.cons (p := space) rfl trivial).cons trivial fun q hq =>
      Option.some.inj hq ▸ apart_to_blank _ rfl
  obtain ⟨us, p, rfl, hp⟩ := h'.last
  exact h.suffix (hx.blank rfl) ⟨space, _, rfl, rfl⟩ ⟨space :: punct x :: space :: us, p, rfl, hp⟩

theorem Term.list (h : Term sharp ps) (h' : Term sharp' qs) {x : Punct}
    (hx : (punct x).follows = true) :
    Term sharp' (ps ++ punct x :: space :: qs) := by
  have hn : Neat (punct x :: space :: qs) :=
    (h'.cons (p := space) rfl trivial).cons trivial fun q hq =>
      Option.some.inj hq ▸ apart_to_blank _ rfl
  obtain ⟨us, p, rfl, hp⟩ := h'.last
  exact h.suffix hn ⟨_, _, rfl, hx⟩ ⟨punct x :: space :: us, p, rfl, hp⟩

theorem Term.close (h : Term sharp ps) {x : Punct} (hx : (punct x).follows = true)
    (hc : (punct x).closes true = true) :
    Term true (ps ++ [punct x]) :=
  h.suffix (neat_nil.cons trivial fun _ h => nomatch h) ⟨_, _, rfl, hx⟩ ⟨[], _, rfl, hc⟩

theorem term_inParens (h : ps = [] ∨ Term sharp ps) : Term true (inParens ps) := by
  rcases h with rfl | h
  · exact ⟨⟨by simp [inParens, Spelled], by simp [inParens, Apart, Clear, goesOn, Punct.goesOn]⟩,
      ⟨_, _, rfl, rfl⟩, ⟨[punct .leftParen], _, rfl, rfl⟩⟩
  · have h' := h.close (x := .rightParen) rfl rfl
    refine ⟨h'.cons (p := punct .leftParen) rfl trivial, ⟨_, _, rfl, rfl⟩,
      ⟨punct .leftParen :: ps, _, rfl, rfl⟩⟩

theorem term_withCommas_cons {items : List (List Piece)} (h : ∀ rs ∈ ps :: items, Term false rs) :
    Term false (withCommas (ps :: items)) := by
  induction items generalizing ps with
  | nil => simpa [withCommas, List.intercalate] using h
  | cons qs items ih =>
    obtain ⟨hp, hps⟩ := List.forall_mem_cons.mp h
    have := hp.list (x := .comma) (ih hps) rfl
    simpa [withCommas, List.intercalate] using this

theorem term_withCommas {items : List (List Piece)} (h : ∀ ps ∈ items, Term false ps) :
    withCommas items = [] ∨ Term false (withCommas items) := by
  cases items with
  | nil => exact .inl rfl
  | cons ps items => exact .inr (term_withCommas_cons h)

theorem neat_onLines {items : List (List Piece)} (d : Nat) (h : ∀ ps ∈ items, Neat ps) :
    Neat (onLines d items) := by
  induction items with
  | nil => exact neat_nil
  | cons ps items ih =>
    obtain ⟨hp, hps⟩ := List.forall_mem_cons.mp h
    cases items with
    | nil => simpa [onLines, List.intercalate] using hp
    | cons qs items =>
      have := hp.join (p := line d) (ih hps) rfl
      simpa [onLines, List.intercalate] using this

theorem term_inBraces {items : List (List Piece)} (d : Nat) (h : ∀ ps ∈ items, Neat ps) :
    Term true (inBraces d items) := by
  rw [inBraces]
  split_ifs
  · exact ⟨⟨by simp [Spelled], by simp [Apart, Clear, goesOn, Punct.goesOn]⟩,
      ⟨_, _, rfl, rfl⟩, ⟨[punct .leftBrace], _, rfl, rfl⟩⟩
  · have hbrace : Neat [punct .rightBrace] := neat_punct _
    have hlines :=
      ((neat_onLines (d + 1) h).join hbrace (p := line d) rfl).blank (p := line (d + 1)) rfl
    refine ⟨?_, ⟨_, _, rfl, rfl⟩,
      ⟨punct .leftBrace :: line (d + 1) :: onLines (d + 1) items ++ [line d],
        punct .rightBrace, ?_, rfl⟩⟩
    · have := hlines.cons (p := punct .leftBrace) trivial fun q hq =>
        Option.some.inj hq ▸ apart_to_blank _ rfl
      simpa using this
    · simp

end Piece

namespace Tree

open Piece

variable {l m : Label} {t u v : Tree} {ts us : List Tree} {d : Nat} {part : Part}
    {parts : List Part} {sharp : Bool}

/-- The tree stands before a link without parentheses, and is no number. -/
def isSharp (t : Tree) : Bool := !t.looserThan .link && t.kind? ≠ some .numberLit

/-- The tree is printed as a row that may stand for an expression. -/
def Spaced (t : Tree) : Prop := ∀ d, Term t.isSharp (t.pieces d)

theorem term_operandOf (h : Spaced t) (k : Precedence) (d : Nat) :
    Term false (operandOf k t (t.pieces d)) := by
  rw [operandOf]
  split_ifs
  · exact (term_inParens (.inr (h d))).weaken
  · exact (h d).weaken

theorem term_receiverOf (h : Spaced t) (k : Kind) (d : Nat) :
    Term (decide (t.kind? ≠ some .numberLit)) (receiverOf k t (t.pieces d)) := by
  have hparens := term_inParens (.inr (h d))
  rw [receiverOf, operandOf]
  split_ifs with hc hl
  · exact hparens.of_true _
  · exact hparens.of_true _
  · have := h d
    rw [isSharp, Bool.eq_false_iff.mpr hl] at this
    exact this

theorem spaced_of (hl : l.bare = m) (h : ∀ d, Term (of m ts).isSharp ((of m ts).pieces d)) :
    Spaced (of l ts) := by
  intro d
  subst hl
  rw [← pieces_bare]
  exact h d

/-- The tree is printed as a row that stands alone. -/
def Separate (t : Tree) : Prop := ∀ d, Neat (statementOf t (t.pieces d))

/-- How a tree of a part is printed. -/
def SpacedAs : Part → Tree → Prop
  | .script | .statement => Separate
  | .block => fun t => ∀ d, Term true (t.pieces d) ∧ body d t = t.pieces d
  | .parameters => fun t => ∀ w ∈ t.children.map text, Lexer.isWord w = true
  | .name => fun t => Lexer.isWord t.text = true
  | .unnamed => fun t => t.text = ""
  | .binding => fun t => ∀ d, Term false (binding d t)
  | .entry => fun t => ∀ d, Term false (entry d t)
  | .function | .expression | .target | .chain => Spaced

theorem isWord_of_isIdentifier {w : String} (h : Lexer.isIdentifier w = true) :
    Lexer.isWord w = true :=
  (Bool.and_eq_true_iff.mp h).1

theorem term_function {n p b : Tree} (hk : l.kind = .function)
    (hn : n.text = "" ∨ Lexer.isWord n.text = true)
    (hp : ∀ w ∈ p.children.map text, Lexer.isWord w = true) (hb : Term true (body d b)) :
    Term true ((of l [n, p, b]).pieces d) := by
  have hparams :
      Term true (inParens (withCommas ((p.children.map text).map fun w => [word w]))) := by
    refine term_inParens (term_withCommas fun ps hps => ?_)
    obtain ⟨w, hw, rfl⟩ := List.mem_map.mp hps
    exact term_single rfl rfl (hp w hw)
  have hrest : Term true (inParens (withCommas ((p.children.map text).map fun w => [word w])) ++
      space :: body d b) := by
    obtain ⟨qs, q, e, hq⟩ := hb.last
    exact hparams.suffix (hb.toNeat.blank rfl) ⟨_, _, rfl, rfl⟩ ⟨space :: qs, q, by rw [e]; rfl, hq⟩
  have hfunction : Term true [word "function"] := term_single rfl rfl (spelled_word (by decide))
  by_cases hempty : n.text = ""
  · have := hfunction.suffix hrest.toNeat ⟨_, _, rfl, rfl⟩ hrest.last
    simpa [of, pieces, hk, functionHead, paramNames, hempty] using this
  · have hname : Term true [word n.text] := term_single rfl rfl (hn.resolve_left hempty)
    have hnamed := hname.suffix hrest.toNeat ⟨_, _, rfl, rfl⟩ hrest.last
    obtain ⟨qs, q, e, hq⟩ := hnamed.last
    have := hfunction.suffix (hnamed.toNeat.blank (p := space) rfl) ⟨_, _, rfl, rfl⟩ ⟨space :: qs,
      q, by rw [e]; rfl, hq⟩
    simpa [of, pieces, hk, functionHead, paramNames, hempty] using this

theorem spaced_function {n p b : Tree} (hl : l.bare = { kind := .function })
    (hn : n.text = "" ∨ Lexer.isWord n.text = true) (hp : ∀ w ∈ p.children.map text,
      Lexer.isWord w = true) (hb : SpacedAs .block b) : Spaced (of l [n, p, b]) :=
  spaced_of hl fun d => (term_function rfl hn hp (by rw [(hb d).2]; exact (hb d).1)).weaken

/-! ## Operators and links -/

theorem spaced_unary {k : Kind} (hl : l.bare = { kind := k }) (hk : k.isUnary = true)
    (ht : t.Spaced) : Spaced (of l [t]) := by
  refine spaced_of hl fun d => ?_
  have h := term_operandOf ht .unary d
  obtain ⟨us, p, e, hp⟩ := h.last
  cases k
  case not =>
    exact ⟨h.cons (p := punct .bang) rfl trivial, ⟨_, _, rfl, rfl⟩,
      ⟨punct .bang :: us, p, congrArg (punct .bang :: ·) e, hp⟩⟩
  case void =>
    have hvoid : Term false [word "void"] := term_single rfl rfl (spelled_word (by decide))
    exact hvoid.suffix (h.toNeat.blank (p := space) rfl)
      ⟨_, _, rfl, rfl⟩ ⟨space :: us, p, congrArg (space :: ·) e, hp⟩
  all_goals cases hk

theorem spaced_binary {k : Kind} (hl : l.bare = { kind := k }) (hk : k.isBinary = true)
    (ht : t.Spaced) (hu : u.Spaced) :
    Spaced (of l [t, u]) := by
  refine spaced_of hl fun d => ?_
  have h := term_operandOf ht k.precedence d
  have h' := term_operandOf hu k.precedence.next d
  by_cases hc : k = .comma
  · subst hc
    have hpieces : (of { kind := .comma } [t, u]).pieces d = operandOf .comma t (t.pieces d) ++
        punct .comma :: space :: operandOf .assign u (u.pieces d) := by
      simp [of, pieces]
    rw [hpieces]
    exact h.list h' rfl
  · obtain ⟨op, hpieces⟩ : ∃ op,
        (of { kind := k } [t, u]).pieces d = operandOf k.precedence t (t.pieces d) ++ space ::
        punct op :: space :: operandOf k.precedence.next u (u.pieces d) := by
      cases k
      case comma => exact absurd rfl hc
      case or | and | eq | ne | strictEq | strictNe =>
        exact ⟨_, by simp [of, pieces, operator?]; rfl⟩
      all_goals cases hk
    have hsharp : (of { kind := k } [t, u]).isSharp = false := by
      cases k
      case or | and | eq | ne | strictEq | strictNe => rfl
      case comma => rfl
      all_goals cases hk
    rw [hpieces, hsharp]
    exact h.between h' op

theorem spaced_assign (hl : l.bare = { kind := .assign }) (ht : t.Spaced) (hu : u.Spaced) :
    Spaced (of l [t, u]) := by
  refine spaced_of hl fun d => ?_
  have hpieces : (of { kind := .assign } [t, u]).pieces d = operandOf .link t (t.pieces d) ++
      space :: punct .assign :: space :: operandOf .assign u (u.pieces d) := by
    simp [of, pieces]
  rw [hpieces]
  exact (term_operandOf ht .link d).between (term_operandOf hu .assign d) .assign

theorem spaced_hook (hl : l.bare = { kind := .hook }) (ht : t.Spaced) (hu : u.Spaced)
    (hv : v.Spaced) :
    Spaced (of l [t, u, v]) := by
  refine spaced_of hl fun d => ?_
  have hpieces : (of { kind := .hook } [t, u, v]).pieces d =
    operandOf .or t (t.pieces d) ++ space :: punct .question :: space ::
      (operandOf .assign u (u.pieces d) ++ space :: punct .colon :: space :: operandOf .assign v
        (v.pieces d)) := by
    simp [of, pieces]
  rw [hpieces]
  have hbranches := (term_operandOf hu .assign d).between (term_operandOf hv .assign d) .colon
  exact (term_operandOf ht .or d).between hbranches .question

theorem Term.link {ps qs : List Piece} (h : Term sharp ps) (hq : Neat qs)
    (hfirst : ∃ q rs, qs = q :: rs ∧ (q = punct .leftBracket ∨ q = punct .leftParen))
    (hlast : ∃ rs p, qs = rs ++ [p] ∧ p.closes true = true) (mark : Bool) :
    Term true (ps ++ ((if mark then [punct .questionDot] else []) ++ qs)) := by
  obtain ⟨q, rs, rfl, hqp⟩ := hfirst
  obtain ⟨us, p, e, hp⟩ := hlast
  cases mark with
  | false => exact h.suffix hq ⟨q, rs, rfl, by rcases hqp with rfl | rfl <;> rfl⟩ ⟨us, p, e, hp⟩
  | true =>
    have hmark : Neat (punct .questionDot :: q :: rs) := by
      refine hq.cons trivial fun r hr c hc => ?_
      obtain rfl := Option.some.inj hr
      rcases hqp with rfl | rfl <;> (obtain rfl := Option.some.inj hc; rfl)
    exact h.suffix hmark ⟨_, _, rfl, rfl⟩
      ⟨punct .questionDot :: us, p, congrArg (punct .questionDot :: ·) e, hp⟩

theorem apart_word {x : Punct} {w : String} (hx : x.goesOn = Char.isDigit)
    (hw : Lexer.isWord w = true) :
    Apart (punct x) (word w) := by
  obtain ⟨c, cs, e, hc, -⟩ := Lexer.isWord_iff.mp hw
  intro d hd
  rw [chars, e] at hd
  obtain rfl : c = d := Option.some.inj hd
  rw [goesOn, hx, Bool.eq_false_iff]
  exact fun h => Bool.noConfusion (hc.symm.trans (Lexer.startsWord_of_isDigit h))

theorem term_access {ps : List Piece} {w : String} {mark : Bool} (h : Term sharp ps)
    (hw : Lexer.isWord w = true) (hs : mark = false → sharp = true) :
    Term true (ps ++ (if mark then [punct .questionDot, word w] else [punct .dot, word w])) := by
  have hword : Neat [word w] := neat_nil.cons hw fun _ h => nomatch h
  cases mark with
  | true =>
    have hmark : Neat [punct .questionDot, word w] :=
      hword.cons trivial fun q hq => Option.some.inj hq ▸ apart_word rfl hw
    exact h.suffix hmark ⟨_, _, rfl, rfl⟩ ⟨[punct .questionDot], _, rfl, rfl⟩
  | false =>
    have hdot : Neat [punct .dot, word w] :=
      hword.cons trivial fun q hq => Option.some.inj hq ▸ apart_word rfl hw
    obtain rfl := hs rfl
    obtain ⟨us, p, e, hp⟩ := h.last
    obtain ⟨q, qs, e', hq⟩ := h.first
    refine ⟨h.toNeat.append hdot fun r hr s hs => ?_,
      ⟨q, qs ++ [punct .dot, word w], by rw [e']; rfl, hq⟩,
      ⟨ps ++ [punct .dot], word w, by simp, rfl⟩⟩
    rw [e, List.getLast?_concat] at hr
    obtain rfl := Option.some.inj hr
    obtain rfl := Option.some.inj hs
    exact apart_dot hp

theorem spaced_property {k : Kind} {w : String} {mark : Bool}
    (hl : l.bare = { kind := k, text := some w, chainStart := mark })
    (hk : k = .getProp ∨ k = .chainProp) (hw : Lexer.isWord w = true) (ht : t.Spaced)
    (hn : mark = false → t.kind? ≠ some .numberLit) : Spaced (of l [t]) := by
  refine spaced_of hl fun d => ?_
  have hpieces : (of { kind := k, text := some w, chainStart := mark } [t]).pieces d =
      receiverOf k t (t.pieces d) ++
        (if mark then [punct .questionDot, word w] else [punct .dot, word w]) := by
    rcases hk with rfl | rfl <;> cases mark <;> simp [of, pieces, markOf]
  rw [hpieces]
  exact (term_access (term_receiverOf ht k d) hw fun h => decide_eq_true (hn h)).of_true _

theorem spaced_element {k : Kind} {mark : Bool} (hl : l.bare = { kind := k, chainStart := mark })
    (hk : k = .getElem ∨ k = .chainElem) (ht : t.Spaced) (hu : u.Spaced) :
      Spaced (of l [t, u]) := by
  refine spaced_of hl fun d => ?_
  have hpieces : (of { kind := k, chainStart := mark } [t, u]).pieces d =
    receiverOf k t (t.pieces d) ++ ((if mark then [punct .questionDot] else []) ++
        punct .leftBracket :: (operandOf .comma u (u.pieces d) ++ [punct .rightBracket])) := by
    rcases hk with rfl | rfl <;> cases mark <;> simp [of, pieces, markOf]
  rw [hpieces]
  have hkey := (term_operandOf hu .comma d).close (x := .rightBracket) rfl rfl
  obtain ⟨us, p, e, hp⟩ := hkey.last
  refine (Term.link (term_receiverOf ht k d) (hkey.cons (p := punct .leftBracket) rfl trivial)
    ⟨_, _, rfl, .inl rfl⟩
    ⟨punct .leftBracket :: us, p, by rw [e]; rfl, hp⟩ mark).of_true _

theorem spaced_call {k : Kind} {mark : Bool} (hl : l.bare = { kind := k, chainStart := mark })
    (hk : k = .call ∨ k = .chainCall) (ht : t.Spaced) (hts : ∀ u ∈ ts, u.Spaced) :
      Spaced (of l (t :: ts)) := by
  refine spaced_of hl fun d => ?_
  have hmap := map_range_children ts fun u => operandOf .assign u (u.pieces d)
  have hpieces : (of { kind := k, chainStart := mark } (t :: ts)).pieces d =
    receiverOf k t (t.pieces d) ++ ((if mark then [punct .questionDot] else []) ++
        inParens (withCommas (ts.map fun u => operandOf .assign u (u.pieces d)))) := by
    rcases hk with rfl | rfl <;> cases mark <;> simp [of, pieces, markOf, ← hmap]
  rw [hpieces]
  have hargs :
      Term true (inParens (withCommas (ts.map fun u => operandOf .assign u (u.pieces d)))) := by
    refine term_inParens (term_withCommas fun ps hps => ?_)
    obtain ⟨u, hu, rfl⟩ := List.mem_map.mp hps
    exact term_operandOf (hts u hu) .assign d
  exact (Term.link (term_receiverOf ht k d) hargs.toNeat ⟨_, _, rfl, .inr rfl⟩ hargs.last
    mark).of_true _

/-! ## Objects -/

theorem term_entry {s : String} (hl : l.bare = { kind := .objectKey, text := some s })
    (hs : Lexer.isWord s = true) (ht : t.Spaced) (d : Nat) : Term false (entry d (of l [t])) := by
  have htext : l.text = some s := congrArg Label.text hl
  have hkey : Term true [word s] := term_single rfl rfl hs
  have := hkey.list (x := .colon) (term_operandOf ht .assign d) rfl
  simpa [of, entry, htext] using this

theorem spaced_object (hl : l.bare = { kind := .objectLit }) (hts : ∀ t ∈ ts, SpacedAs .entry t) :
    Spaced (of l ts) := by
  refine spaced_of hl fun d => ?_
  have hmap := map_range_children ts fun u => entry d u
  suffices Term true ((of { kind := .objectLit } ts).pieces d) from this.of_true _
  cases ts with
  | nil =>
    refine ⟨⟨by simp [of, pieces, Spelled], ?_⟩, ⟨_, _, rfl, rfl⟩, ⟨[punct .leftBrace], _, rfl, rfl⟩⟩
    simp [of, pieces, Apart, Lexer.Clear, goesOn, Punct.goesOn]
  | cons t ts =>
    have hpieces : (of { kind := .objectLit } (t :: ts)).pieces d = punct .leftBrace :: space ::
        (withCommas ((t :: ts).map fun u => entry d u) ++ [space, punct .rightBrace]) := by
      simp [of, pieces, ← hmap]
    have hentries : Term false (withCommas ((t :: ts).map fun u => entry d u)) := by
      refine term_withCommas_cons fun ps hps => ?_
      rw [← List.map_cons] at hps
      obtain ⟨u, hu, rfl⟩ := List.mem_map.mp hps
      exact hts u hu d
    have hbrace : Neat [punct .rightBrace] := neat_punct _
    have hclosed :
        Term true (withCommas ((t :: ts).map fun u => entry d u) ++ [space, punct .rightBrace]) :=
      hentries.suffix (hbrace.blank rfl) ⟨_, _, rfl, rfl⟩ ⟨[space], _, rfl, rfl⟩
    rw [hpieces]
    refine ⟨(hclosed.toNeat.blank (p := space) rfl).cons trivial fun q hq => Option.some.inj hq ▸
      apart_to_blank _ rfl, ⟨_, _, rfl, rfl⟩,
      ⟨punct .leftBrace :: space :: withCommas ((t :: ts).map fun u => entry d u) ++ [space],
        punct .rightBrace, ?_, rfl⟩⟩
    simp

/-! ## Statements -/

theorem separate_of (hl : l.bare = m) (h : ∀ d, Neat (statementOf (of m ts) ((of m ts).pieces d))) :
    Separate (of l ts) := by
  intro d
  subst hl
  rw [← pieces_bare]
  exact h d

theorem term_binding {w : String} (hl : l.bare = { kind := .name, text := some w })
    (hw : Lexer.isWord w = true) (d : Nat) :
    Term false (binding d (of l [])) := by
  have htext : l.text = some w := congrArg Label.text hl
  have : Term false [word w] := term_single rfl rfl hw
  simpa [of, binding, htext, isAbsent] using this

theorem term_initializer {w : String} (hl : l.bare = { kind := .name, text := some w })
    (hw : Lexer.isWord w = true) (ht : t.Spaced) (ha : t.isAbsent = false) (d : Nat) :
    Term false (binding d (of l [t])) := by
  have htext : l.text = some w := congrArg Label.text hl
  have hname : Term true [word w] := term_single rfl rfl hw
  have := hname.between (term_operandOf ht .assign d) .assign
  simpa [of, binding, htext, ha] using this

theorem separate_declaration {k : Kind} (hl : l.bare = { kind := k }) (hk : k.isDeclaration = true)
    (hts : ∀ u ∈ t :: ts, SpacedAs .binding u) : Separate (of l (t :: ts)) := by
  refine separate_of hl fun d => ?_
  have hmap := map_range_children (t :: ts) fun u => binding d u
  have hpieces : statementOf (of { kind := k } (t :: ts)) ((of { kind := k } (t :: ts)).pieces d) =
      word (declarator k) :: space :: (withCommas ((t :: ts).map fun u => binding d u) ++
        [punct .semicolon]) := by
    rw [← hmap]
    cases k
    case varDecl | letDecl | constDecl => simp [of, statementOf, isStatementKind, kind?, pieces]
    all_goals cases hk
  have hbindings : Term false (withCommas ((t :: ts).map fun u => binding d u)) := by
    refine term_withCommas_cons fun ps hps => ?_
    rw [← List.map_cons] at hps
    obtain ⟨u, hu, rfl⟩ := List.mem_map.mp hps
    exact hts u hu d
  have hword : Lexer.isWord (declarator k) = true := by
    cases k
    case varDecl | letDecl | constDecl => decide
    all_goals cases hk
  rw [hpieces]
  have hrest := hbindings.append (neat_punct .semicolon) fun q hq => Option.some.inj hq ▸ rfl
  exact (hrest.blank rfl).cons hword fun q hq => Option.some.inj hq ▸ apart_to_blank _ rfl

theorem separate_return (hl : l.bare = { kind := .returnStmt }) : Separate (of l []) :=
  separate_of hl fun _ =>
    (term_single (p := word "return") rfl rfl (spelled_word (by decide)) : Term true _).append
      (neat_punct .semicolon)
      fun q hq => Option.some.inj hq ▸ rfl

theorem separate_returnValue (hl : l.bare = { kind := .returnStmt }) (ht : t.Spaced)
    (ha : t.isAbsent = false) :
    Separate (of l [t]) := by
  refine separate_of hl fun d => ?_
  have hpieces : statementOf (of { kind := .returnStmt } [t])
      ((of { kind := .returnStmt } [t]).pieces d) =
      word "return" :: space :: (operandOf .comma t (t.pieces d) ++ [punct .semicolon]) := by
    simp [of, statementOf, isStatementKind, kind?, pieces, ha]
  rw [hpieces]
  have hrest := (term_operandOf ht .comma d).append (neat_punct .semicolon) fun q hq =>
    Option.some.inj hq ▸ rfl
  exact (hrest.blank rfl).cons (spelled_word (by decide)) fun q hq =>
    Option.some.inj hq ▸ apart_to_blank _ rfl

theorem separate_evaluation (hl : l.bare = { kind := .exprStmt }) (ht : t.Spaced) :
    Separate (of l [t]) := by
  refine separate_of hl fun d => ?_
  have hpieces : statementOf (of { kind := .exprStmt } [t])
      ((of { kind := .exprStmt } [t]).pieces d) =
      (if t.opensAmbiguously then inParens (operandOf .comma t (t.pieces d))
        else operandOf .comma t (t.pieces d)) ++ [punct .semicolon] := by
    simp [of, statementOf, isStatementKind, kind?, pieces]
  have hvalue : Term false
      (if t.opensAmbiguously then inParens (operandOf .comma t (t.pieces d))
        else operandOf .comma t (t.pieces d)) := by
    split_ifs
    · exact (term_inParens (.inr (term_operandOf ht .comma d))).weaken
    · exact term_operandOf ht .comma d
  rw [hpieces]
  exact hvalue.append (neat_punct .semicolon) fun q hq => Option.some.inj hq ▸ rfl

theorem term_if {ps qs : List Piece} (h : Term sharp ps) (h' : Term true qs) :
    Term true (word "if" :: space :: (inParens ps ++ space :: qs)) := by
  have hcond := term_inParens (.inr h)
  obtain ⟨us, p, e, hp⟩ := h'.last
  have hrest : Term true (inParens ps ++ space :: qs) :=
    hcond.suffix (h'.toNeat.blank rfl)
      ⟨_, _, rfl, rfl⟩ ⟨space :: us, p, congrArg (space :: ·) e, hp⟩
  have hword : Term true [word "if"] := term_single rfl rfl (spelled_word (by decide))
  obtain ⟨vs, q, e', hq⟩ := hrest.last
  exact hword.suffix (hrest.toNeat.blank (p := space) rfl)
    ⟨_, _, rfl, rfl⟩ ⟨space :: vs, q, congrArg (space :: ·) e', hq⟩

theorem separate_if (hl : l.bare = { kind := .ifStmt }) (ht : t.Spaced) (hu : SpacedAs .block u)
    (hk : u.kind? = some .block) :
    Separate (of l [t, u]) := by
  refine separate_of hl fun d => ?_
  have hs := statementOf_block hk (u.pieces d)
  have hpieces : statementOf (of { kind := .ifStmt } [t, u])
      ((of { kind := .ifStmt } [t, u]).pieces d) =
      word "if" :: space :: (inParens (operandOf .comma t (t.pieces d)) ++ space ::
        u.pieces d) := by
    change (of { kind := .ifStmt } [t, u]).pieces d = _
    simp [of, pieces, isAbsent, hs]
  rw [hpieces]
  exact (term_if (term_operandOf ht .comma d) (hu d).1).toNeat

theorem separate_else (hl : l.bare = { kind := .ifStmt }) (ht : t.Spaced) (hu : SpacedAs .block u)
    (hk : u.kind? = some .block) (hv : SpacedAs .block v) (hk' : v.kind? = some .block)
    (ha : v.isAbsent = false) : Separate (of l [t, u, v]) := by
  refine separate_of hl fun d => ?_
  have hs := statementOf_block hk (u.pieces d)
  have hs' := statementOf_block hk' (v.pieces d)
  have hpieces : statementOf (of { kind := .ifStmt } [t, u, v])
      ((of { kind := .ifStmt } [t, u, v]).pieces d) =
      (word "if" :: space :: (inParens (operandOf .comma t (t.pieces d)) ++ space :: u.pieces d)) ++
        space :: word "else" :: space :: v.pieces d := by
    change (of { kind := .ifStmt } [t, u, v]).pieces d = _
    simp [of, pieces, ha, hs, hs']
  rw [hpieces]
  have helse : Neat (word "else" :: space :: v.pieces d) :=
    ((hv d).1.toNeat.blank rfl).cons (spelled_word (by decide)) fun q hq =>
      Option.some.inj hq ▸ apart_to_blank _ rfl
  exact (term_if (term_operandOf ht .comma d) (hu d).1).toNeat.join helse rfl

theorem spaced_block (hl : l.bare = { kind := .block }) (hts : ∀ t ∈ ts, Separate t) :
    SpacedAs .block (of l ts) := by
  intro d
  have hk : l.kind = .block := congrArg Label.kind hl
  have hmap := map_range_children ts fun u => statementOf u (u.pieces (d + 1))
  refine ⟨?_, body_block hk d ts⟩
  rw [← body_block hk]
  have hbody : body d (of l ts) = inBraces d (ts.map fun u =>
      statementOf u (u.pieces (d + 1))) := by
    simp [of, body, ← hmap]
  rw [hbody]
  refine term_inBraces d fun ps hps => ?_
  obtain ⟨u, hu, rfl⟩ := List.mem_map.mp hps
  exact hts u hu (d + 1)

theorem separate_script (hl : l.bare = { kind := .script }) (hts : ∀ t ∈ ts, Separate t) :
    Separate (of l ts) := by
  refine separate_of hl fun d => ?_
  have hmap := map_range_children ts fun u => statementOf u (u.pieces d)
  have hpieces : statementOf (of { kind := .script } ts) ((of { kind := .script } ts).pieces d) =
      onLines d (ts.map fun u => statementOf u (u.pieces d)) := by
    rw [← hmap]
    change (of { kind := .script } ts).pieces d = _
    simp [of, pieces]
  rw [hpieces]
  refine neat_onLines d fun ps hps => ?_
  obtain ⟨u, hu, rfl⟩ := List.mem_map.mp hps
  exact hts u hu d

theorem SpacedAs.statement_of_block (hl : l.bare = { kind := .block })
    (h : SpacedAs .block (of l ts)) : Separate (of l ts) := by
  intro d
  have hk : (of l ts).kind? = some .block := congrArg some (congrArg Label.kind hl)
  rw [statementOf_block hk]
  exact (h d).1.toNeat

theorem Spaced.statement (hl : l.bare = { kind := .function }) (h : Spaced (of l ts)) :
    Separate (of l ts) := by
  intro d
  have hs : statementOf (of l ts) ((of l ts).pieces d) = (of l ts).pieces d := by
    simp [of, statementOf, kind?, show l.kind = .function from congrArg Label.kind hl,
      isStatementKind]
  rw [hs]
  exact (h d).toNeat

/-! ## All trees of the grammar -/

theorem SpacedAs.receiver {k : Kind} {mark : Bool} (h : SpacedAs (.receiver k mark) t) :
    t.Spaced := by
  rw [Part.receiver] at h
  split_ifs at h <;> exact h

theorem isChain_not_number (h : t.isChain = true) : t.kind? ≠ some .numberLit := by
  intro hk
  rw [isChain, hk] at h
  cases h

theorem spaced_leaf {p : Piece} (hl : l.bare = m) (hpieces : ∀ d, (of m ts).pieces d = [p])
    (hs : p.Spelled) (ho : p.opens = true) (hc : p.closes (of m ts).isSharp = true) :
    Spaced (of l ts) :=
  spaced_of hl fun d => hpieces d ▸ term_single ho hc hs

theorem spacedAs_of_rule (rule : Rule part l.bare parts)
    (children : List.Forall₂ (fun p t => Is p t ∧ SpacedAs p t) parts ts)
    (hp : (of l ts).Printable) : SpacedAs part (of l ts) := by
  -- a production fixes a label only without its place in the text
  generalize hl : l.bare = m at rule
  induction rule with
  | script n => exact separate_script hl fun t ht => ((forall₂_replicate.mp children).2 t ht).2
  | block n => exact spaced_block hl fun t ht => ((forall₂_replicate.mp children).2 t ht).2
  | function =>
    obtain _ | ⟨hn, _ | ⟨hps, _ | ⟨hb, _ | _⟩⟩⟩ := children
    exact spaced_function hl (.inr hn.2) hps.2 hb.2
  | parameters n =>
    intro w hw
    rw [children_of] at hw
    obtain ⟨t, ht, rfl⟩ := List.mem_map.mp hw
    exact ((forall₂_replicate.mp children).2 t ht).2
  | name hw =>
    cases children
    have htext : l.text = some _ := congrArg Label.text hl
    change Lexer.isWord (l.text.getD "") = true
    rw [htext]
    exact isWord_of_isIdentifier hw
  | unnamed =>
    cases children
    exact congrArg (·.getD "") (congrArg Label.text hl : l.text = some "")
  | inner rule ih =>
    cases rule
    exact SpacedAs.statement_of_block hl (ih children hl)
  | named rule ih =>
    cases rule
    exact Spaced.statement hl (ih children hl)
  | empty =>
    cases children
    exact separate_of hl fun _ => neat_punct .semicolon
  | declaration n hk =>
    obtain ⟨hlen, hts⟩ := forall₂_replicate.mp children
    obtain ⟨t, ts, rfl⟩ := List.exists_cons_of_length_eq_add_one hlen
    exact separate_declaration hl hk fun u hu => (hts u hu).2
  | binding n hw one =>
    obtain rfl | rfl : n = 0 ∨ n = 1 := by omega
    · cases children
      exact term_binding hl (isWord_of_isIdentifier hw)
    · obtain _ | ⟨ht, _ | _⟩ := children
      exact term_initializer hl (isWord_of_isIdentifier hw) ht.2 ht.1.isAbsent_eq_false
  | returns n one =>
    obtain rfl | rfl : n = 0 ∨ n = 1 := by omega
    · cases children
      exact separate_return hl
    · obtain _ | ⟨ht, _ | _⟩ := children
      exact separate_returnValue hl ht.2 ht.1.isAbsent_eq_false
  | chooses n one =>
    obtain rfl | rfl : n = 0 ∨ n = 1 := by omega
    · obtain _ | ⟨ht, _ | ⟨hu, _ | _⟩⟩ := children
      exact separate_if hl ht.2 hu.2 (hu.1.kind?_eq rfl)
    · obtain _ | ⟨ht, _ | ⟨hu, _ | ⟨hv, _ | _⟩⟩⟩ := children
      exact separate_else hl ht.2 hu.2 (hu.1.kind?_eq rfl) hv.2 (hv.1.kind?_eq rfl)
        hv.1.isAbsent_eq_false
  | evaluates =>
    obtain _ | ⟨ht, _ | _⟩ := children
    exact separate_evaluation hl ht.2
  | «variable» rule =>
    cases rule with
    | name hw =>
      cases children
      exact spaced_leaf hl (fun _ => rfl) (isWord_of_isIdentifier hw) rfl rfl
  | closure rule =>
    cases rule
    obtain _ | ⟨hn, _ | ⟨hps, _ | ⟨hb, _ | _⟩⟩⟩ := children
    exact spaced_function hl (.inr hn.2) hps.2 hb.2
  | anonymous =>
    obtain _ | ⟨hn, _ | ⟨hps, _ | ⟨hb, _ | _⟩⟩⟩ := children
    exact spaced_function hl (.inl hn.2) hps.2 hb.2
  | number hn =>
    cases children
    exact spaced_leaf hl (fun _ => rfl) hn rfl rfl
  | string s =>
    cases children
    refine spaced_leaf hl (fun _ => rfl) (fun c hc => ?_) rfl rfl
    have htext : l.text = some s := congrArg Label.text hl
    exact hp.2.1 (congrArg Label.kind hl) c (by rw [htext]; exact hc)
  | constant hk =>
    cases children
    rename_i k
    cases k
    case nullLit | trueLit | falseLit | this =>
      exact spaced_leaf hl (fun _ => rfl) (spelled_word (by decide)) rfl rfl
    all_goals cases hk
  | object n => exact spaced_object hl fun t ht => ((forall₂_replicate.mp children).2 t ht).2
  | entry s =>
    obtain _ | ⟨ht, _ | _⟩ := children
    have htext : l.text = some s := congrArg Label.text hl
    have hs := hp.1 (congrArg Label.kind hl)
    rw [htext] at hs
    exact term_entry hl hs ht.2
  | unary hk =>
    obtain _ | ⟨ht, _ | _⟩ := children
    exact spaced_unary hl hk ht.2
  | binary hk =>
    obtain _ | ⟨ht, _ | ⟨hu, _ | _⟩⟩ := children
    exact spaced_binary hl hk ht.2 hu.2
  | assign =>
    obtain _ | ⟨ht, _ | ⟨hu, _ | _⟩⟩ := children
    exact spaced_assign hl ht.2 hu.2
  | hook =>
    obtain _ | ⟨ht, _ | ⟨hu, _ | ⟨hv, _ | _⟩⟩⟩ := children
    exact spaced_hook hl ht.2 hu.2 hv.2
  | property hk hm hw =>
    obtain _ | ⟨ht, _ | _⟩ := children
    refine spaced_property hl hk hw ht.2.receiver fun hmark => ?_
    -- the dot of a plain access could go on with a number, which a chain never is
    rcases hk with rfl | rfl
    · exact hp.2.2.1 (congrArg Label.kind hl)
    · exact isChain_not_number (ht.1.receiver_chain rfl hmark)
  | element hk hm =>
    obtain _ | ⟨ht, _ | ⟨hu, _ | _⟩⟩ := children
    exact spaced_element hl hk ht.2.receiver hu.2
  | call n hk hm =>
    obtain _ | ⟨ht, hargs⟩ := children
    exact spaced_call hl hk ht.2.receiver fun u hu => ((forall₂_replicate.mp hargs).2 u hu).2
  | target _ _ ih | chain _ _ ih => exact ih children hl

/-- Every printable tree of the grammar is printed as a row that is split into its pieces. -/
theorem Is.spacedAs (h : Is part t) (hp : t.Printable) : SpacedAs part t := by
  induction h using Is.induct with
  | of rule children ih =>
    obtain ⟨hlen, hzip⟩ := List.forall₂_iff_zip.mp ih
    refine spacedAs_of_rule rule (List.forall₂_iff_zip.mpr ⟨hlen, fun {q t} hq => ?_⟩) hp
    obtain ⟨h, hs⟩ := hzip hq
    exact ⟨h, hs (hp.child (List.of_mem_zip hq).2)⟩

end Tree

end ChainLowering
