import ChainLowering.Proofs.Fits
import ChainLowering.Proofs.Printing
import ChainLowering.Proofs.Sentences

/-!
# Printed trees are read again

The tokens of a printed tree are read, and what is read shows the same. Only
the grammar that the tree keeps to matters, one form after the other.
-/

namespace ChainLowering

namespace Piece

@[simp] theorem toks_nil : toks [] = [] := rfl

@[simp] theorem toks_word (s : String) (ps : List Piece) :
    toks (word s :: ps) = .ident s :: toks ps := rfl

@[simp] theorem toks_number (s : String) (ps : List Piece) :
    toks (number s :: ps) = .number s :: toks ps := rfl

@[simp] theorem toks_quoted (s : String) (ps : List Piece) :
    toks (quoted s :: ps) = .string s :: toks ps := rfl

@[simp] theorem toks_punct (p : Punct) (ps : List Piece) :
    toks (punct p :: ps) = .punct p :: toks ps := rfl

@[simp] theorem toks_space (ps : List Piece) : toks (space :: ps) = toks ps := rfl

@[simp] theorem toks_line (d : Nat) (ps : List Piece) : toks (line d :: ps) = toks ps := rfl

@[simp] theorem toks_append (ps qs : List Piece) : toks (ps ++ qs) = toks ps ++ toks qs :=
  List.filterMap_append

@[simp] theorem toks_inParens (ps : List Piece) :
    toks (inParens ps) = .punct .leftParen :: (toks ps ++ [.punct .rightParen]) := by
  simp [inParens]

theorem toks_withCommas (items : List (List Piece)) :
    toks (withCommas items) = Reader.commas (items.map toks) := by
  induction items with
  | nil => rfl
  | cons ps items ih =>
    cases items with
    | nil => simp [withCommas, List.intercalate]
    | cons qs items =>
      rw [List.map_cons, List.map_cons, Reader.commas_cons_cons, ← List.map_cons, ← ih]
      simp [withCommas, List.intercalate]

theorem toks_onLines (d : Nat) (items : List (List Piece)) :
    toks (onLines d items) = items.flatMap toks := by
  induction items with
  | nil => rfl
  | cons ps items ih =>
    cases items with
    | nil => simp [onLines, List.intercalate]
    | cons qs items =>
      rw [List.flatMap_cons, ← ih]
      simp [onLines, List.intercalate]

theorem toks_inBraces (d : Nat) (items : List (List Piece)) :
    toks (inBraces d items) = .punct .leftBrace :: (items.flatMap toks ++
      [.punct .rightBrace]) := by
  rw [inBraces]
  split_ifs with h
  · rw [List.isEmpty_iff.mp h]
    rfl
  · simp [toks_onLines]

end Piece

namespace Tree

open Piece Reader

variable {l : Label} {t u : Tree} {ts us : List Tree} {d : Nat} {k m : Precedence} {part : Part}
    {parts : List Part}

/-- How tightly the tree binds when it is read; a function needs no parentheses. -/
def grade (t : Tree) : Precedence :=
  match t.kind? with
  | some .function | none => .primary
  | some k => k.precedence

/-- The tree is read as an expression. -/
def Spoken (t : Tree) : Prop :=
  ∀ d, Phrase t.grade t.isChain t.opensAmbiguously (toks (t.pieces d)) t.bare

/-- A tree that is not too loose is read at a level. -/
theorem rank_le_grade (h : t.looserThan m = false) : m.rank ≤ t.grade.rank := by
  have := Precedence.rank_le_primary m
  rw [grade]
  rw [looserThan] at h
  split
  · exact this
  · exact this
  · rename_i k hk
    rw [hk] at h
    simpa using h

theorem Spoken.operandOf (h : t.Spoken) (m : Precedence) (d : Nat) : ∃ k chain, m.rank ≤ k.rank ∧
    Phrase k chain t.opensAmbiguously (toks (operandOf m t (t.pieces d))) t.bare := by
  rw [Tree.operandOf]
  split_ifs with hm
  · rw [toks_inParens]
    exact ⟨.primary, false, Precedence.rank_le_primary m, (h d).inParens.weaken _⟩
  · exact ⟨t.grade, t.isChain, rank_le_grade (by simpa using hm), h d⟩

theorem Spoken.receiverOf (h : t.Spoken) (kind : Kind) (d : Nat) :
    ∃ k, Precedence.link.rank ≤ k.rank ∧
      Phrase k (kind.isChain && t.isChain) t.opensAmbiguously (toks
      (receiverOf kind t (t.pieces d))) t.bare := by
  rw [Tree.receiverOf, Tree.operandOf]
  split_ifs with hc hm
  · have hflag : (kind.isChain && t.isChain) = false := by
      revert hc
      cases kind.isChain <;> simp
    rw [toks_inParens, hflag]
    exact ⟨.primary, by decide, (h d).inParens.weaken _⟩
  · have hflag : t.isChain = false := by
      cases hk : t.kind? with
      | none => rw [isChain, hk]; rfl
      | some k =>
        rw [looserThan, hk] at hm
        rw [isChain, hk]
        revert hm
        cases k <;> decide
    rw [toks_inParens, hflag, Bool.and_false]
    exact ⟨.primary, by decide, (h d).inParens.weaken _⟩
  · have hflag : (kind.isChain && t.isChain) = t.isChain := by
      revert hc
      cases kind.isChain <;> simp
    rw [hflag]
    exact ⟨t.grade, rank_le_grade (by simpa using hm), h d⟩

/-! ## Expressions -/

theorem spoken_of {m : Label} (hl : l.bare = m)
    (h : ∀ d, Phrase (of m ts).grade m.kind.isChain (of m ts).opensAmbiguously
      (toks ((of m ts).pieces d)) (of m (ts.map bare))) : Spoken (of l ts) := by
  intro d
  subst hl
  rw [bare_of, ← pieces_bare]
  exact h d

theorem spoken_name {w : String} (hl : l.bare = { kind := .name, text := some w })
    (hw : Lexer.isIdentifier w = true) :
    Spoken (of l []) :=
  spoken_of hl fun _ => phrase_name hw

theorem spoken_number {s : String} (hl : l.bare = { kind := .numberLit, text := some s }) :
    Spoken (of l []) :=
  spoken_of hl fun _ => phrase_number s

theorem spoken_string {s : String} (hl : l.bare = { kind := .stringLit, text := some s }) :
    Spoken (of l []) :=
  spoken_of hl fun _ => phrase_string s

theorem spoken_constant {k : Kind} (hl : l.bare = { kind := k }) (hk : k.isConstant = true) :
    Spoken (of l []) := by
  refine spoken_of hl fun d => ?_
  cases k
  case nullLit | trueLit | falseLit | this => exact phrase_constant rfl
  all_goals cases hk

theorem spoken_unary {k : Kind} (hl : l.bare = { kind := k }) (hk : k.isUnary = true)
    (ht : t.Spoken) : Spoken (of l [t]) := by
  refine spoken_of hl fun d => ?_
  obtain ⟨j, chain, hle, h⟩ := ht.operandOf .unary d
  cases k
  case not => exact h.not hle
  case void => exact h.void hle
  all_goals cases hk

theorem spoken_binary {k : Kind} (hl : l.bare = { kind := k }) (hk : k.isBinary = true)
    (ht : t.Spoken) (hu : u.Spoken) :
    Spoken (of l [t, u]) := by
  refine spoken_of hl fun d => ?_
  obtain ⟨i, _, hle, h⟩ := ht.operandOf k.precedence d
  obtain ⟨j, _, hle', h'⟩ := hu.operandOf k.precedence.next d
  obtain ⟨op, hop, hpieces⟩ : ∃ op, (op, k) ∈ k.precedence.operators ∧
      toks ((of { kind := k } [t, u]).pieces d) = toks (operandOf k.precedence t (t.pieces d)) ++
      .punct op :: toks (operandOf k.precedence.next u (u.pieces d)) := by
    cases k
    case comma => exact ⟨.comma, by decide, by simp [of, pieces, Kind.precedence, Precedence.next]⟩
    case or => exact ⟨.or, by decide, by simp [of, pieces, operator?]⟩
    case and => exact ⟨.and, by decide, by simp [of, pieces, operator?]⟩
    case eq => exact ⟨.eq, by decide, by simp [of, pieces, operator?]⟩
    case ne => exact ⟨.ne, by decide, by simp [of, pieces, operator?]⟩
    case strictEq => exact ⟨.strictEq, by decide, by simp [of, pieces, operator?]⟩
    case strictNe => exact ⟨.strictNe, by decide, by simp [of, pieces, operator?]⟩
    all_goals cases hk
  rw [hpieces]
  have := h.operator hle hop h' hle'
  cases k
  case comma | or | and | eq | ne | strictEq | strictNe => exact this
  all_goals cases hk

theorem spoken_assign (hl : l.bare = { kind := .assign }) (ht : t.Spoken)
    (hkind : t.kind? = some .name ∨ t.kind?.any Kind.isGet = true) (hu : u.Spoken) :
      Spoken (of l [t, u]) := by
  refine spoken_of hl fun d => ?_
  obtain ⟨i, _, hle, h⟩ := ht.operandOf .link d
  obtain ⟨j, _, hle', h'⟩ := hu.operandOf .assign d
  have hpieces : toks ((of { kind := .assign } [t, u]).pieces d) =
      toks (operandOf .link t (t.pieces d)) ++ .punct .assign :: toks (operandOf .assign u
        (u.pieces d)) := by
    simp [of, pieces]
  rw [hpieces]
  exact h.assign (Nat.le_trans (by decide) hle) (by simpa using hkind) h' hle'

theorem spoken_hook (hl : l.bare = { kind := .hook }) (ht : t.Spoken) (hu : u.Spoken) {v : Tree}
    (hv : v.Spoken) :
    Spoken (of l [t, u, v]) := by
  refine spoken_of hl fun d => ?_
  obtain ⟨k, _, hle, h⟩ := ht.operandOf .or d
  obtain ⟨k', _, hle', h'⟩ := hu.operandOf .assign d
  obtain ⟨k'', _, hle'', h''⟩ := hv.operandOf .assign d
  have hpieces : toks ((of { kind := .hook } [t, u, v]).pieces d) =
    toks (operandOf .or t (t.pieces d)) ++ .punct .question ::
      (toks (operandOf .assign u (u.pieces d)) ++ .punct .colon :: toks
        (operandOf .assign v (v.pieces d))) := by
    simp [of, pieces]
  rw [hpieces]
  exact h.hook hle h' hle' h'' hle''

/-! ## Links -/

theorem spoken_property {k : Kind} {w : String} {mark : Bool}
    (hl : l.bare = { kind := k, text := some w, chainStart := mark })
    (hk : k = .getProp ∨ k = .chainProp) (hm : mark = true → k.isChain = true) (ht : t.Spoken)
    (hr : k.isChain = true → mark = false → t.isChain = true) : Spoken (of l [t]) := by
  refine spoken_of hl fun d => ?_
  obtain ⟨i, hle, h⟩ := ht.receiverOf k d
  have hpieces : toks ((of { kind := k, text := some w, chainStart := mark } [t]).pieces d) =
      toks (receiverOf k t (t.pieces d)) ++
        (if mark then [.punct .questionDot, .ident w] else [.punct .dot, .ident w]) := by
    rcases hk with rfl | rfl <;> cases mark <;> simp [of, pieces, markOf]
  rw [hpieces]
  rcases hk with rfl | rfl
  · cases mark
    · exact ((h.links hle).property (w := w)).phrase (h.opens_append hle _)
    · cases hm rfl
  · cases mark
    · rw [hr rfl rfl] at h
      exact ((h.links hle).property (w := w)).phrase (h.opens_append hle _)
    · exact ((h.links hle).markedProperty (w := w)).phrase (h.opens_append hle _)

theorem spoken_element {k : Kind} {mark : Bool} (hl : l.bare = { kind := k, chainStart := mark })
    (hk : k = .getElem ∨ k = .chainElem) (hm : mark = true → k.isChain = true) (ht : t.Spoken)
    (hr : k.isChain = true → mark = false → t.isChain = true) (hu : u.Spoken) :
      Spoken (of l [t, u]) := by
  refine spoken_of hl fun d => ?_
  obtain ⟨i, hle, h⟩ := ht.receiverOf k d
  obtain ⟨j, _, -, h'⟩ := hu.operandOf .comma d
  have hpieces : toks ((of { kind := k, chainStart := mark } [t, u]).pieces d) =
      toks (receiverOf k t (t.pieces d)) ++ ((if mark then [.punct .questionDot] else []) ++
        .punct .leftBracket ::
        (toks (operandOf .comma u (u.pieces d)) ++ [.punct .rightBracket])) := by
    rcases hk with rfl | rfl <;> cases mark <;> simp [of, pieces, markOf]
  rw [hpieces]
  rcases hk with rfl | rfl
  · cases mark
    · exact ((h.links hle).element h').phrase (h.opens_append hle _)
    · cases hm rfl
  · cases mark
    · rw [hr rfl rfl] at h
      exact ((h.links hle).element h').phrase (h.opens_append hle _)
    · exact ((h.links hle).markedElement h').phrase (h.opens_append hle _)

theorem Spoken.argument (h : t.Spoken) (d : Nat) :
    Item .rightParen Nested.assignment (toks (Tree.operandOf .assign t (t.pieces d))) t.bare := by
  obtain ⟨k, _, hle, h⟩ := h.operandOf .assign d
  exact h.argument hle

theorem spoken_call {k : Kind} {mark : Bool} (hl : l.bare = { kind := k, chainStart := mark })
    (hk : k = .call ∨ k = .chainCall) (hm : mark = true → k.isChain = true) (ht : t.Spoken)
    (hr : k.isChain = true → mark = false → t.isChain = true) (hts : ∀ u ∈ ts, u.Spoken) :
      Spoken (of l (t :: ts)) := by
  refine spoken_of hl fun d => ?_
  obtain ⟨i, hle, h⟩ := ht.receiverOf k d
  have hargs : ∀ u ∈ ts,
      Item .rightParen Nested.assignment (toks (operandOf .assign u (u.pieces d))) u.bare :=
    fun u hu => (hts u hu).argument d
  have hpieces : toks ((of { kind := k, chainStart := mark } (t :: ts)).pieces d) =
      toks (receiverOf k t (t.pieces d)) ++ ((if mark then [.punct .questionDot] else []) ++
        .punct .leftParen ::
        (commas (ts.map fun u => toks (operandOf .assign u (u.pieces d))) ++
          [.punct .rightParen])) := by
    have hmap := map_range_children ts fun u => toks (operandOf .assign u (u.pieces d))
    rcases hk with rfl | rfl <;> cases mark <;>
      simp [of, pieces, markOf, toks_withCommas, Function.comp_def, hmap]
  rw [hpieces]
  rcases hk with rfl | rfl
  · cases mark
    · exact ((h.links hle).call hargs).phrase (h.opens_append hle _)
    · cases hm rfl
  · cases mark
    · rw [hr rfl rfl] at h
      exact ((h.links hle).call hargs).phrase (h.opens_append hle _)
    · exact ((h.links hle).markedCall hargs).phrase (h.opens_append hle _)

/-! ## Functions and objects -/

def SpokenEntry (t : Tree) : Prop := ∀ d, Item .rightBrace objectEntry (toks (entry d t)) t.bare

theorem spoken_entry {s : String} (hl : l.bare = { kind := .objectKey, text := some s })
    (ht : t.Spoken) :
    SpokenEntry (of l [t]) := by
  intro d
  obtain ⟨k, _, hle, h⟩ := ht.operandOf .assign d
  have htext : l.text = some s := congrArg Label.text hl
  have hpieces : toks (entry d (of l [t])) = .ident s :: .punct .colon :: toks (operandOf .assign t
      (t.pieces d)) := by
    simp [of, entry, htext]
  rw [hpieces, bare_of, hl]
  exact h.entry hle s

theorem spoken_object (hl : l.bare = { kind := .objectLit }) (hts : ∀ t ∈ ts, t.SpokenEntry) :
    Spoken (of l ts) := by
  refine spoken_of hl fun d => ?_
  have hmap := map_range_children ts fun u => toks (entry d u)
  have hpieces : toks ((of { kind := .objectLit } ts).pieces d) =
      .punct .leftBrace :: (commas (ts.map fun u => toks (entry d u)) ++ [.punct .rightBrace]) := by
    cases ts with
    | nil => simp [of, pieces]
    | cons t ts => simp [of, pieces, toks_withCommas, Function.comp_def, ← hmap]
  rw [hpieces]
  exact phrase_object fun t ht => hts t ht d

def SpokenBlock (t : Tree) : Prop :=
  ∀ d, ∃ ts, toks (t.pieces d) = .punct .leftBrace :: ts ∧ toks (body d t) = toks (t.pieces d) ∧
    Regains block anyTok (.punct .leftBrace :: ts) t.bare

def SpokenStatement (t : Tree) : Prop := ∀ d, Sentence (toks (statementOf t (t.pieces d))) t.bare

theorem spoken_block (hl : l.bare = { kind := .block }) (hts : ∀ t ∈ ts, t.SpokenStatement) :
    SpokenBlock (of l ts) := by
  intro d
  have hk : l.kind = .block := congrArg Label.kind hl
  have hmap := map_range_children ts fun u => toks (statementOf u (u.pieces (d + 1)))
  refine ⟨ts.flatMap (fun u => toks (statementOf u (u.pieces (d + 1)))) ++ [.punct .rightBrace],
    ?_, by rw [body_block hk], ?_⟩
  · simp [of, pieces, hk, toks_inBraces, List.flatMap_def, Function.comp_def, hmap]
  · rw [bare_of, hl]
    exact regains_block fun t ht => hts t ht (d + 1)

def SpokenName (t : Tree) : Prop :=
  ∃ w, Lexer.isIdentifier w = true ∧ t.text = w ∧ t.bare = .of { kind := .name, text := some w } []

def SpokenParameters (t : Tree) : Prop :=
  ∃ ws : List String, (∀ w ∈ ws, Lexer.isIdentifier w = true) ∧ t.children.map text = ws ∧
    t.bare = .of { kind := .paramList } (ws.map fun w => .of { kind := .name, text := some w } [])

theorem spokenName {w : String} (hl : l.bare = { kind := .name, text := some w })
    (hw : Lexer.isIdentifier w = true) :
    SpokenName (of l []) := by
  have htext : l.text = some w := congrArg Label.text hl
  exact ⟨w, hw, by rw [of, text, htext]; rfl, by rw [bare_of, hl]; rfl⟩

theorem spoken_parameters (hl : l.bare = { kind := .paramList }) (hts : ∀ t ∈ ts, t.SpokenName) :
    SpokenParameters (of l ts) := by
  refine ⟨ts.map text, ?_, by rw [children_of], ?_⟩
  · intro w hw
    obtain ⟨t, ht, rfl⟩ := List.mem_map.mp hw
    obtain ⟨w, hw, htext, -⟩ := hts t ht
    rwa [htext]
  · rw [bare_of, hl, List.map_map]
    congr 1
    refine List.map_congr_left fun t ht => ?_
    obtain ⟨w, -, rfl, hbare⟩ := hts t ht
    exact hbare

theorem toks_function {n p b : Tree} {ws : List String} {ts : List Tok} (hk : l.kind = .function)
    (hp : p.children.map text = ws) (hb : toks (body d b) = .punct .leftBrace :: ts) :
    toks ((of l [n, p, b]).pieces d) =
      .ident "function" :: ((if n.text = "" then [] else [.ident n.text]) ++ signature ws
        (.punct .leftBrace :: ts)) := by
  have hparams : commas (ws.map fun w => [Tok.ident w]) =
      toks (withCommas (ws.map fun w => [word w])) := by
    rw [toks_withCommas, List.map_map]
    rfl
  rw [signature, hparams]
  by_cases hn : n.text = "" <;> simp [of, pieces, hk, functionHead, paramNames, hn, hp, hb]

/-- The tree is read as a function, which must have its name only if it has one. -/
def SpokenFunction (must : Bool) (t : Tree) : Prop :=
  ∀ d, ∃ ts, toks (t.pieces d) = .ident "function" :: ts ∧
    Regains (function · must) anyTok (.ident "function" :: ts) t.bare

theorem spoken_function {n p b : Tree} (hl : l.bare = { kind := .function }) (hn : n.SpokenName)
    (hp : p.SpokenParameters) (hb : b.SpokenBlock) (must : Bool) :
    SpokenFunction must (of l [n, p, b]) := by
  intro d
  obtain ⟨w, hw, htext, hname⟩ := hn
  obtain ⟨ws, hws, hparams, hlist⟩ := hp
  obtain ⟨ts, hts, hbody, hblock⟩ := hb d
  have hne : w ≠ "" := by rintro rfl; exact absurd hw (by decide)
  refine ⟨_, toks_function (congrArg Label.kind hl) hparams (hbody.trans hts), ?_⟩
  rw [htext, if_neg hne, bare_of, hl, List.map_cons, List.map_cons,
    List.map_singleton, hname, hlist]
  exact regains_function must hw hws hblock

theorem spoken_anonymous {n p b : Tree} (hl : l.bare = { kind := .function }) (htext : n.text = "")
    (hname : n.bare = .of { kind := .name, text := some "" } []) (hp : p.SpokenParameters)
      (hb : b.SpokenBlock) :
    SpokenFunction false (of l [n, p, b]) := by
  intro d
  obtain ⟨ws, hws, hparams, hlist⟩ := hp
  obtain ⟨ts, hts, hbody, hblock⟩ := hb d
  refine ⟨_, toks_function (congrArg Label.kind hl) hparams (hbody.trans hts), ?_⟩
  rw [if_pos htext, bare_of, hl, List.map_cons, List.map_cons, List.map_singleton, hname, hlist]
  exact regains_anonymous hws hblock

theorem SpokenFunction.spoken (hl : l.bare = { kind := .function })
    (h : SpokenFunction false (of l ts)) : Spoken (of l ts) := by
  refine spoken_of hl fun d => ?_
  obtain ⟨us, hus, hfunction⟩ := h d
  rw [bare_of, hl] at hfunction
  rw [← hl, pieces_bare, hus, hl]
  exact hfunction.function

/-! ## Statements -/

theorem spokenStatement_of {m : Label} (hl : l.bare = m)
    (h : ∀ d, Sentence (toks (statementOf (of m ts) ((of m ts).pieces d))) (of m (ts.map bare))) :
    SpokenStatement (of l ts) := by
  intro d
  subst hl
  rw [bare_of, ← pieces_bare]
  exact h d

theorem SpokenBlock.statement (hl : l.bare = { kind := .block }) (h : SpokenBlock (of l ts)) :
    SpokenStatement (of l ts) := by
  refine spokenStatement_of hl fun d => ?_
  obtain ⟨us, hus, -, hblock⟩ := h d
  rw [bare_of, hl] at hblock
  rw [← hl, pieces_bare, hl]
  change Sentence (toks ((of l ts).pieces d)) _
  rw [hus]
  exact sentence_block hblock

theorem SpokenFunction.statement (hl : l.bare = { kind := .function })
    (h : SpokenFunction true (of l ts)) :
    SpokenStatement (of l ts) := by
  refine spokenStatement_of hl fun d => ?_
  obtain ⟨us, hus, hfunction⟩ := h d
  rw [bare_of, hl] at hfunction
  rw [← hl, pieces_bare, hl]
  change Sentence (toks ((of l ts).pieces d)) _
  rw [hus]
  exact sentence_function hfunction

theorem spoken_empty (hl : l.bare = { kind := .empty }) : SpokenStatement (of l []) :=
  spokenStatement_of hl fun _ => sentence_empty

def SpokenBinding (t : Tree) : Prop :=
  ∀ d, Declared (toks (binding d t)) t.bare ∧ 0 < (toks (binding d t)).length

theorem spoken_binding {w : String} (hl : l.bare = { kind := .name, text := some w })
    (hw : Lexer.isIdentifier w = true) :
    SpokenBinding (of l []) := by
  intro d
  have htext : l.text = some w := congrArg Label.text hl
  have hpieces : toks (binding d (of l [])) = [.ident w] := by simp [of, binding, htext, isAbsent]
  rw [hpieces, bare_of, hl]
  exact ⟨declared_name hw, Nat.one_pos⟩

theorem spoken_initializer {w : String} (hl : l.bare = { kind := .name, text := some w })
    (hw : Lexer.isIdentifier w = true) (ht : t.Spoken) (ha : t.isAbsent = false) :
    SpokenBinding (of l [t]) := by
  intro d
  have htext : l.text = some w := congrArg Label.text hl
  obtain ⟨k, _, hle, h⟩ := ht.operandOf .assign d
  have hpieces : toks (binding d (of l [t])) =
      .ident w :: .punct .assign :: toks (operandOf .assign t (t.pieces d)) := by
    simp [of, binding, htext, ha]
  rw [hpieces, bare_of, hl]
  exact ⟨h.declared hle hw, Nat.succ_pos _⟩

theorem spoken_declaration {k : Kind} (hl : l.bare = { kind := k }) (hk : k.isDeclaration = true)
    (hts : ∀ u ∈ t :: ts, u.SpokenBinding) : SpokenStatement (of l (t :: ts)) := by
  refine spokenStatement_of hl fun d => ?_
  have hmap := map_range_children (t :: ts) fun u => toks (binding d u)
  have hpieces :
      toks (statementOf (of { kind := k } (t :: ts)) ((of { kind := k } (t :: ts)).pieces d)) =
      .ident (declarator k) :: (commas ((t :: ts).map fun u => toks (binding d u)) ++
        [.punct .semicolon]) := by
    rw [← hmap]
    cases k
    case varDecl | letDecl | constDecl =>
      simp [of, statementOf, isStatementKind, kind?, pieces, toks_withCommas, Function.comp_def]
    all_goals cases hk
  rw [hpieces]
  exact sentence_declaration hk (fun u hu => (hts u hu d).1) fun u hu => (hts u hu d).2

theorem spoken_return (hl : l.bare = { kind := .returnStmt }) : SpokenStatement (of l []) :=
  spokenStatement_of hl fun _ => sentence_return

theorem spoken_returnValue (hl : l.bare = { kind := .returnStmt }) (ht : t.Spoken)
    (ha : t.isAbsent = false) :
    SpokenStatement (of l [t]) := by
  refine spokenStatement_of hl fun d => ?_
  obtain ⟨k, _, -, h⟩ := ht.operandOf .comma d
  have hpieces :
      toks (statementOf (of { kind := .returnStmt } [t])
        ((of { kind := .returnStmt } [t]).pieces d)) =
          .ident "return" :: (toks (operandOf .comma t (t.pieces d)) ++ [.punct .semicolon]) := by
    simp [of, statementOf, isStatementKind, kind?, pieces, ha]
  rw [hpieces]
  exact h.sentence_return

theorem spoken_if (hl : l.bare = { kind := .ifStmt }) (ht : t.Spoken) (hu : u.SpokenBlock)
    (hk : u.kind? = some .block) :
    SpokenStatement (of l [t, u]) := by
  refine spokenStatement_of hl fun d => ?_
  obtain ⟨k, _, -, h⟩ := ht.operandOf .comma d
  obtain ⟨us, hus, -, hblock⟩ := hu d
  have hpieces :
      toks (statementOf (of { kind := .ifStmt } [t, u])
        ((of { kind := .ifStmt } [t, u]).pieces d)) = .ident "if" :: .punct .leftParen ::
          (toks (operandOf .comma t (t.pieces d)) ++ .punct .rightParen ::
            .punct .leftBrace :: us) := by
    have hs := statementOf_block hk (u.pieces d)
    change toks ((of { kind := .ifStmt } [t, u]).pieces d) = _
    simp [of, pieces, isAbsent, hs, hus]
  rw [hpieces]
  exact h.sentence_if hblock

theorem spoken_else {v : Tree} (hl : l.bare = { kind := .ifStmt }) (ht : t.Spoken)
    (hu : u.SpokenBlock) (hk : u.kind? = some .block) (hv : v.SpokenBlock)
    (hk' : v.kind? = some .block) (ha : v.isAbsent = false) :
    SpokenStatement (of l [t, u, v]) := by
  refine spokenStatement_of hl fun d => ?_
  obtain ⟨k, _, -, h⟩ := ht.operandOf .comma d
  obtain ⟨us, hus, -, hblock⟩ := hu d
  obtain ⟨vs, hvs, -, hblock'⟩ := hv d
  have hpieces :
      toks (statementOf (of { kind := .ifStmt } [t, u, v])
        ((of { kind := .ifStmt } [t, u, v]).pieces d)) = .ident "if" :: .punct .leftParen ::
          (toks (operandOf .comma t (t.pieces d)) ++ .punct .rightParen :: .punct .leftBrace ::
            (us ++ .ident "else" :: .punct .leftBrace :: vs)) := by
    have hs := statementOf_block hk (u.pieces d)
    have hs' := statementOf_block hk' (v.pieces d)
    change toks ((of { kind := .ifStmt } [t, u, v]).pieces d) = _
    simp [of, pieces, ha, hs, hs', hus, hvs]
  rw [hpieces]
  exact h.sentence_else hblock hblock'

theorem spoken_evaluation (hl : l.bare = { kind := .exprStmt }) (ht : t.Spoken) :
    SpokenStatement (of l [t]) := by
  refine spokenStatement_of hl fun d => ?_
  obtain ⟨k, _, -, h⟩ := ht.operandOf .comma d
  have hpieces :
      toks (statementOf (of { kind := .exprStmt } [t]) ((of { kind := .exprStmt } [t]).pieces d)) =
      (if t.opensAmbiguously then
        .punct .leftParen :: (toks (operandOf .comma t (t.pieces d)) ++ [.punct .rightParen])
        else toks (operandOf .comma t (t.pieces d))) ++ [.punct .semicolon] := by
    cases ha : t.opensAmbiguously <;> simp [of, statementOf, isStatementKind, kind?, pieces, ha]
  rw [hpieces]
  cases ha : t.opensAmbiguously with
  | true => exact h.inParens.sentence
  | false =>
    rw [ha] at h
    exact h.sentence

def SpokenScript (t : Tree) : Prop :=
  Goes script ⟨toks (statementOf t (t.pieces 0)), 0, []⟩ fun _ v => v = ⟨[], 0, [t.bare]⟩

theorem spoken_script (hl : l.bare = { kind := .script }) (hts : ∀ t ∈ ts, t.SpokenStatement) :
    SpokenScript (of l ts) := by
  have hk : l.kind = .script := congrArg Label.kind hl
  have hmap := map_range_children ts fun u => toks (statementOf u (u.pieces 0))
  have hpieces : toks (statementOf (of l ts) ((of l ts).pieces 0)) = ts.flatMap fun u =>
      toks (statementOf u (u.pieces 0)) := by
    rw [List.flatMap_def, ← hmap]
    simp [of, statementOf, isStatementKind, kind?, pieces, hk, toks_onLines, List.flatMap_def,
      Function.comp_def]
  rw [SpokenScript, hpieces, bare_of, hl]
  exact goes_script fun t ht => hts t ht 0

/-! ## All trees of the grammar -/

/-- What a tree of a part is read as. -/
def SpokenAs : Part → Tree → Prop
  | .script => SpokenScript
  | .statement => SpokenStatement
  | .block => SpokenBlock
  | .function => SpokenFunction true
  | .parameters => SpokenParameters
  | .name => SpokenName
  | .unnamed => fun t => t.text = "" ∧ t.bare = .of { kind := .name, text := some "" } []
  | .binding => SpokenBinding
  | .entry => SpokenEntry
  | .expression | .target | .chain => Spoken

theorem SpokenAs.receiver {k : Kind} {mark : Bool} (h : SpokenAs (.receiver k mark) t) :
    t.Spoken := by
  rw [Part.receiver] at h
  split_ifs at h <;> exact h

theorem spokenAs_of_rule (rule : Rule part l.bare parts)
    (children : List.Forall₂ (fun p t => Is p t ∧ SpokenAs p t) parts ts) :
    SpokenAs part (of l ts) := by
  -- a production fixes a label only without its place in the text
  generalize hl : l.bare = m at rule
  induction rule with
  | script n => exact spoken_script hl fun t ht => ((forall₂_replicate.mp children).2 t ht).2
  | block n => exact spoken_block hl fun t ht => ((forall₂_replicate.mp children).2 t ht).2
  | function =>
    obtain _ | ⟨hn, _ | ⟨hp, _ | ⟨hb, _ | _⟩⟩⟩ := children
    exact spoken_function hl hn.2 hp.2 hb.2 true
  | parameters n =>
      exact spoken_parameters hl fun t ht => ((forall₂_replicate.mp children).2 t ht).2
  | name hw =>
    cases children
    exact spokenName hl hw
  | unnamed =>
    cases children
    exact ⟨by rw [of, text, show l.text = some "" from congrArg Label.text hl]; rfl, by
      rw [bare_of, hl]; rfl⟩
  | inner rule ih =>
    cases rule
    exact SpokenBlock.statement hl (ih children hl)
  | named rule ih =>
    cases rule
    exact SpokenFunction.statement hl (ih children hl)
  | empty =>
    cases children
    exact spoken_empty hl
  | declaration n hk =>
    obtain ⟨hlen, hts⟩ := forall₂_replicate.mp children
    obtain ⟨t, ts, rfl⟩ := List.exists_cons_of_length_eq_add_one hlen
    exact spoken_declaration hl hk fun u hu => (hts u hu).2
  | binding n hw one =>
    obtain rfl | rfl : n = 0 ∨ n = 1 := by omega
    · cases children
      exact spoken_binding hl hw
    · obtain _ | ⟨ht, _ | _⟩ := children
      exact spoken_initializer hl hw ht.2 ht.1.isAbsent_eq_false
  | returns n one =>
    obtain rfl | rfl : n = 0 ∨ n = 1 := by omega
    · cases children
      exact spoken_return hl
    · obtain _ | ⟨ht, _ | _⟩ := children
      exact spoken_returnValue hl ht.2 ht.1.isAbsent_eq_false
  | chooses n one =>
    obtain rfl | rfl : n = 0 ∨ n = 1 := by omega
    · obtain _ | ⟨ht, _ | ⟨hu, _ | _⟩⟩ := children
      exact spoken_if hl ht.2 hu.2 (hu.1.kind?_eq rfl)
    · obtain _ | ⟨ht, _ | ⟨hu, _ | ⟨hv, _ | _⟩⟩⟩ := children
      exact spoken_else hl ht.2 hu.2 (hu.1.kind?_eq rfl) hv.2 (hv.1.kind?_eq rfl)
        hv.1.isAbsent_eq_false
  | evaluates =>
    obtain _ | ⟨ht, _ | _⟩ := children
    exact spoken_evaluation hl ht.2
  | «variable» rule =>
    cases rule with
    | name hw =>
      cases children
      exact spoken_name hl hw
  | closure rule =>
    cases rule
    obtain _ | ⟨hn, _ | ⟨hp, _ | ⟨hb, _ | _⟩⟩⟩ := children
    exact (spoken_function hl hn.2 hp.2 hb.2 false).spoken hl
  | anonymous =>
    obtain _ | ⟨hn, _ | ⟨hp, _ | ⟨hb, _ | _⟩⟩⟩ := children
    exact (spoken_anonymous hl hn.2.1 hn.2.2 hp.2 hb.2).spoken hl
  | number =>
    cases children
    exact spoken_number hl
  | string s =>
    cases children
    exact spoken_string hl
  | constant hk =>
    cases children
    exact spoken_constant hl hk
  | object n => exact spoken_object hl fun t ht => ((forall₂_replicate.mp children).2 t ht).2
  | entry s =>
    obtain _ | ⟨ht, _ | _⟩ := children
    exact spoken_entry hl ht.2
  | unary hk =>
    obtain _ | ⟨ht, _ | _⟩ := children
    exact spoken_unary hl hk ht.2
  | binary hk =>
    obtain _ | ⟨ht, _ | ⟨hu, _ | _⟩⟩ := children
    exact spoken_binary hl hk ht.2 hu.2
  | assign =>
    obtain _ | ⟨ht, _ | ⟨hu, _ | _⟩⟩ := children
    exact spoken_assign hl ht.2 ht.1.target_kind hu.2
  | hook =>
    obtain _ | ⟨ht, _ | ⟨hu, _ | ⟨hv, _ | _⟩⟩⟩ := children
    exact spoken_hook hl ht.2 hu.2 hv.2
  | property hk hm =>
    obtain _ | ⟨ht, _ | _⟩ := children
    exact spoken_property hl hk hm ht.2.receiver (ht.1.receiver_chain)
  | element hk hm =>
    obtain _ | ⟨ht, _ | ⟨hu, _ | _⟩⟩ := children
    exact spoken_element hl hk hm ht.2.receiver (ht.1.receiver_chain) hu.2
  | call n hk hm =>
    obtain _ | ⟨ht, hargs⟩ := children
    exact spoken_call hl hk hm ht.2.receiver (ht.1.receiver_chain) fun u hu =>
      ((forall₂_replicate.mp hargs).2 u hu).2
  | target _ _ ih | chain _ _ ih => exact ih children hl

/-- Every tree of the grammar is read as what it is. -/
theorem Is.spokenAs (h : Is part t) : SpokenAs part t := by
  induction h using Is.induct with
  | of rule children ih => exact spokenAs_of_rule rule (ih.imp fun _ _ h => ⟨h.1, h.2⟩)

end Tree

end ChainLowering
