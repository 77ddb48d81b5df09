import ChainLowering.Proofs.Levels

/-!
# Rows of tokens that are expressions

A phrase is a row of tokens that is read as an expression, wherever one is
admitted that binds as tightly. Each form of expressions gives a phrase when
what it is made of are phrases that bind tightly enough.
-/

namespace ChainLowering

/-- An expression may begin with the token. -/
def Tok.begins : Tok → Bool
  | ident s => Lexer.isIdentifier s || (Reader.constantKind? s).isSome || s =
      "function" || s = "void"
  | number _ | string _ => true
  | punct p => p = .leftParen || p = .leftBrace || p = .bang
  | eof => false

/-- An expression that binds as tightly as `k` may begin with the token, and with
a brace or the word `function` only if `ambiguous` holds. -/
structure Tok.Opens (k : Precedence) (ambiguous : Bool) (t : Tok) : Prop where
  begins : t.begins = true
  clear : ambiguous = false → t ≠ .punct .leftBrace ∧ t ≠ .ident "function"
  bare : Precedence.link.rank ≤ k.rank → t ≠ .punct .bang ∧ t ≠ .ident "void"

theorem Tok.opens_leftParen (k : Precedence) (ambiguous : Bool) :
    Tok.Opens k ambiguous (.punct .leftParen) :=
  ⟨rfl, fun _ => ⟨by decide, by decide⟩, fun _ => ⟨by decide, by decide⟩⟩

theorem Tok.Opens.ne {k : Precedence} {ambiguous : Bool} {t u : Tok} (h : t.Opens k ambiguous)
    (hu : u.begins = false) :
    t ≠ u := by
  rintro rfl
  exact Bool.noConfusion (hu.symm.trans h.begins)

namespace Reader

variable {k m : Precedence} {chain ambiguous : Bool} {ts us : List Tok} {t u : Tree} {d : Nat}
    {rest : List Tok}
  {made : List Tree}

/-- The tokens are read at a level. -/
structure At (k : Precedence) (chain : Bool) (ts : List Tok) (u : Tree) : Prop where
  regains : Regains (level · k) (Tok.stops k) ts u
  nests : k.operators ≠ [] → Nests k ts u
  links : k = .link → Links chain ts u

/-- The tokens are read at all levels up to `k`; `chain` tells whether links go on with a chain. -/
structure Phrase (k : Precedence) (chain ambiguous : Bool) (ts : List Tok) (u : Tree) : Prop where
  opens : ∃ t us, ts = t :: us ∧ t.Opens k ambiguous
  reads : ∀ m : Precedence, m.rank ≤ k.rank → At m chain ts u

theorem At.looser (h : At m.next chain ts u) (hm : m ≠ .primary) (hc : m = .link → chain = false)
    (hts : m = .unary → ∃ t us, ts = t :: us ∧ t ≠ .punct .bang ∧ t ≠ .ident "void") :
    At m chain ts u := by
  have hnested : m.operators ≠ [] → At m chain ts u := fun ho =>
    have hn := h.regains.nests ho
    ⟨hn.regains hm, fun _ => hn, fun e => by rw [e] at ho; exact absurd rfl ho⟩
  cases m
  case comma | or | and | equality => exact hnested (by decide)
  case assign => exact ⟨h.regains.assign, fun e => absurd rfl e, fun e => nomatch e⟩
  case conditional =>
    refine ⟨fun d hd rest made hstop =>
      h.regains.conditional hd (Tok.stops_mono hstop (by decide)) ?_ rfl, fun e => absurd rfl e,
      fun e => nomatch e⟩
    intro e
    rw [e] at hstop
    cases hstop
  case unary =>
    obtain ⟨t, us, rfl, ht⟩ := hts rfl
    exact ⟨h.regains.unary fun _ => ht, fun e => absurd rfl e, fun e => nomatch e⟩
  case link =>
    obtain rfl := hc rfl
    exact ⟨h.regains.links.regains, fun e => absurd rfl e, fun _ => h.regains.links⟩
  case primary => exact absurd rfl hm

theorem At.phrase (h : At k chain ts u) (hc : k = .primary → chain = false)
    (ho : ∃ t us, ts = t :: us ∧ t.Opens k ambiguous) :
    Phrase k chain ambiguous ts u := by
  refine ⟨ho, ?_⟩
  suffices ∀ (n : Nat) (m : Precedence), m.rank + n = k.rank → At m chain ts u from
    fun m hm => this (k.rank - m.rank) m (by omega)
  intro n
  induction n with
  | zero =>
    intro m hm
    obtain rfl := Precedence.rank_injective hm
    exact h
  | succ n ih =>
    intro m hm
    have hle := Precedence.rank_le_primary k
    have hp : m ≠ .primary := by rintro rfl; omega
    refine (ih m.next (by rw [Precedence.rank_next hp]; omega)).looser hp ?_ ?_
    · rintro rfl
      refine hc (Precedence.rank_injective ?_)
      simp only [Precedence.rank] at hm hle ⊢
      omega
    · rintro rfl
      obtain ⟨t, us, rfl, ht⟩ := ho
      exact ⟨t, us, rfl, ht.bare (by simp only [Precedence.rank] at hm ⊢; omega)⟩

theorem Phrase.regains (h : Phrase k chain ambiguous ts u) (hm : m.rank ≤ k.rank) :
    Regains (level · m) (Tok.stops m) ts u :=
  (h.reads m hm).regains

theorem Phrase.weaken (h : Phrase k chain false ts u) (ambiguous : Bool) :
    Phrase k chain ambiguous ts u := by
  obtain ⟨t, us, e, ho⟩ := h.opens
  exact ⟨⟨t, us, e, ho.begins, fun _ => ho.clear rfl, ho.bare⟩, h.reads⟩

/-! ## Expressions that bind most tightly -/

theorem Regains.phrase {t : Tok} (h : Regains (level · .primary) (Tok.stops .primary) (t :: ts) u)
    (ht : t.Opens .primary ambiguous) : Phrase .primary false ambiguous (t :: ts) u :=
  (At.mk h (fun e => absurd rfl e) fun e => nomatch e).phrase (fun _ => rfl) ⟨t, ts, rfl, ht⟩

theorem Phrase.inParens (h : Phrase k chain ambiguous ts u) :
    Phrase .primary false false (.punct .leftParen :: (ts ++ [.punct .rightParen])) u := by
  refine Regains.phrase ?_ (Tok.opens_leftParen _ _)
  intro d hd rest made _
  rw [List.cons_append, List.append_assoc]
  refine .bind (goes_position fun start => .bind (goes_peek fun t ht => ?_))
  rw [ht]
  refine .bind (goes_advance Tok.noConfusion fun _ =>
    .bind ((h.regains (m := .comma) (Nat.zero_le _)).goes hd rfl ?_))
  exact goes_expect rfl

theorem constantKind?_of_isIdentifier {w : String} (hw : Lexer.isIdentifier w = true) :
    constantKind? w = none ∧ w ≠ "function" ∧ w ≠ "void" := by
  have hk : ∀ s ∈ keywords, w ≠ s := by
    rintro s hs rfl
    simp [Lexer.isIdentifier, hs] at hw
  refine ⟨?_, hk _ (by decide), hk _ (by decide)⟩
  unfold constantKind?
  split
  case h_5 => rfl
  all_goals exact absurd rfl (hk _ (by decide))

theorem phrase_name {w : String} (hw : Lexer.isIdentifier w = true) :
    Phrase .primary false false [.ident w] (.of { kind := .name, text := some w } []) := by
  obtain ⟨hc, hf, hv⟩ := constantKind?_of_isIdentifier hw
  refine Regains.phrase ?_ ⟨by simp [Tok.begins, hw], fun _ => ⟨nofun, by simpa using hf⟩, fun _ =>
    ⟨nofun, by simpa using hv⟩⟩
  intro d hd rest made _
  refine .bind (goes_position fun start => .bind (goes_peek fun t ht => ?_))
  rw [ht]
  simp only [View.next, List.cons_append, List.headD_cons, hc]
  rw [if_neg hf]
  exact goes_nameNode hw rfl

theorem phrase_constant {w : String} {kind : Kind} (hw : constantKind? w = some kind) :
    Phrase .primary false false [.ident w] (.of { kind := kind } []) := by
  have hne : w ≠ "function" ∧ w ≠ "void" := by
    constructor <;> rintro rfl <;> cases hw
  refine Regains.phrase ?_ ⟨by simp [Tok.begins, hw], fun _ => ⟨nofun, by simpa using hne.1⟩,
    fun _ => ⟨nofun, by simpa using hne.2⟩⟩
  intro d hd rest made _
  refine .bind (goes_position fun start => .bind (goes_peek fun t ht => ?_))
  rw [ht]
  simp only [View.next, List.cons_append, List.headD_cons, hw]
  exact .bind (goes_advance Tok.noConfusion fun _ => goes_finish rfl)

theorem phrase_number (s : String) :
    Phrase .primary false false [.number s] (.of { kind := .numberLit, text := some s } []) := by
  refine Regains.phrase ?_ ⟨rfl, fun _ => ⟨nofun, nofun⟩, fun _ => ⟨nofun, nofun⟩⟩
  intro d hd rest made _
  refine .bind (goes_position fun start => .bind (goes_peek fun t ht => ?_))
  rw [ht]
  exact .bind (goes_advance Tok.noConfusion fun _ => goes_finish rfl)

theorem phrase_string (s : String) :
    Phrase .primary false false [.string s] (.of { kind := .stringLit, text := some s } []) := by
  refine Regains.phrase ?_ ⟨rfl, fun _ => ⟨nofun, nofun⟩, fun _ => ⟨nofun, nofun⟩⟩
  intro d hd rest made _
  refine .bind (goes_position fun start => .bind (goes_peek fun t ht => ?_))
  rw [ht]
  exact .bind (goes_advance Tok.noConfusion fun _ => goes_finish rfl)

/-! ## Operators -/

theorem Phrase.operand (h : Phrase k chain ambiguous ts u) (hk : Precedence.unary.rank ≤ k.rank) :
    Regains Nested.operand (Tok.stops .unary) ts u := Regains.operand (h.regains hk)

theorem Phrase.assignment (h : Phrase k chain ambiguous ts u)
    (hk : Precedence.assign.rank ≤ k.rank) :
    Regains Nested.assignment (Tok.stops .assign) ts u := Regains.assignment (h.regains hk)

theorem Phrase.not (h : Phrase k chain ambiguous ts u) (hk : Precedence.unary.rank ≤ k.rank) :
    Phrase .unary false false (.punct .bang :: ts) (.of { kind := .not } [u]) := by
  refine (At.mk (k := .unary) ?_ (fun e => absurd rfl e) fun e => nomatch e).phrase (fun _ => rfl)
    ⟨_, ts, rfl, rfl, fun _ => ⟨nofun, nofun⟩, fun h => absurd h (by decide)⟩
  intro d hd rest made hstop
  refine .bind (goes_position fun start => .bind (goes_eat ?_))
  exact .bind ((h.operand hk).goes hd hstop (goes_finish rfl))

theorem Phrase.void (h : Phrase k chain ambiguous ts u) (hk : Precedence.unary.rank ≤ k.rank) :
    Phrase .unary false false (.ident "void" :: ts) (.of { kind := .void } [u]) := by
  refine (At.mk (k := .unary) ?_ (fun e => absurd rfl e) fun e => nomatch e).phrase (fun _ => rfl)
    ⟨_, ts, rfl, rfl, fun _ => ⟨nofun, by simp⟩, fun h => absurd h (by decide)⟩
  intro d hd rest made hstop
  refine .bind (goes_position fun start => .bind (goes_eat_other nofun (.bind (goes_atWord _ ?_))))
  refine .bind (goes_advance Tok.noConfusion fun _ => ?_)
  exact .bind ((h.operand hk).goes hd hstop (goes_finish rfl))

theorem find?_operator {op : Punct} {kind : Kind} (h : (op, kind) ∈ k.operators) :
    k.operators.find? (fun o => Tok.punct op = .punct o.1) = some (op, kind) := by
  cases k <;> simp only [Precedence.operators, List.mem_cons, List.not_mem_nil, or_false,
    Prod.mk.injEq] at h
  case equality => rcases h with ⟨rfl, rfl⟩ | ⟨rfl, rfl⟩ | ⟨rfl, rfl⟩ | ⟨rfl, rfl⟩ <;> rfl
  all_goals
    obtain ⟨rfl, rfl⟩ := h
    rfl

theorem Nests.operator {op : Punct} {kind : Kind} (h : Nests k ts t)
    (hop : (op, kind) ∈ k.operators) (hu : Regains (level · k.next) (Tok.stops k.next) us u) :
    Nests k (ts ++ .punct op :: us) (.of { kind := kind } [t, u]) := by
  intro d hd rest made Q hstop hQ
  rw [List.append_assoc]
  refine h hd ?_ fun start => repeats_next ?_
  · refine Tok.stops_iff.mpr fun o ho => ?_
    obtain rfl := Option.some.inj ((Tok.continues?_operator hop).symm.trans ho)
    rw [Precedence.rank_next (by rintro rfl; cases hop)]
    exact Nat.lt_succ_self _
  · refine .bind (goes_peek fun tok htok => ?_)
    obtain htok : tok.tok = .punct op := htok
    simp only [htok, find?_operator hop]
    refine .bind (goes_advance Tok.noConfusion fun _ =>
      .bind (hu.operandAt.goes hd hstop (.bind (goes_finish (goes_pure ?_)))))
    exact ⟨rfl, by simp only [List.length_append, List.length_cons]; omega, hQ start⟩

theorem Phrase.opens_append (h : Phrase m chain ambiguous ts t) (hm : k.rank ≤ m.rank)
    (us : List Tok) :
    ∃ tok vs, ts ++ us = tok :: vs ∧ tok.Opens k ambiguous := by
  obtain ⟨tok, vs, rfl, ho⟩ := h.opens
  exact ⟨tok, vs ++ us, rfl, ho.begins, ho.clear, fun hk => ho.bare (Nat.le_trans hk hm)⟩

variable {j : Precedence} {chain' ambiguous' : Bool}

theorem Phrase.operator {op : Punct} {kind : Kind} (h : Phrase m chain ambiguous ts t)
    (hm : k.rank ≤ m.rank) (hop : (op, kind) ∈ k.operators) (hu : Phrase j chain' ambiguous' us u)
    (hj : k.next.rank ≤ j.rank) :
    Phrase k false ambiguous (ts ++ .punct op :: us) (.of { kind := kind } [t, u]) := by
  have ho : k.operators ≠ [] := List.ne_nil_of_mem hop
  have hp : k ≠ .primary := by rintro rfl; cases hop
  have hn := ((h.reads k hm).nests ho).operator hop (hu.regains hj)
  exact (At.mk (hn.regains hp) (fun _ => hn) fun e => by rw [e] at hop; cases hop).phrase
    (fun e => absurd e hp)
    (h.opens_append hm _)

theorem Phrase.hook {v : Tree} {vs : List Tok} {i : Precedence} {chain'' ambiguous'' : Bool}
    (h : Phrase k chain ambiguous ts t) (hk : Precedence.or.rank ≤ k.rank)
    (hu : Phrase j chain' ambiguous' us u) (hj : Precedence.assign.rank ≤ j.rank)
    (hv : Phrase i chain'' ambiguous'' vs v) (hi : Precedence.assign.rank ≤ i.rank) :
    Phrase .conditional false ambiguous (ts ++ .punct .question :: (us ++ .punct .colon :: vs))
      (.of { kind := .hook } [t, u, v]) := by
  refine (At.mk (k := .conditional) ?_ (fun e => absurd rfl e) fun e => nomatch e).phrase
    (fun _ => rfl)
    (h.opens_append (Nat.le_trans (by decide) hk) _)
  intro d hd rest made hstop
  have hstop' : (rest.headD .eof).stops .assign = true := by
    revert hstop
    generalize rest.headD .eof = tok
    rcases tok with _ | _ | _ | p | _
    case punct => cases p <;> decide
    all_goals exact fun _ => rfl
  simp only [List.append_assoc, List.cons_append]
  refine .bind (goes_position fun start => .bind ((h.regains hk).goes hd rfl (.bind (goes_eat ?_))))
  refine .bind ((hu.assignment hj).goes hd rfl (.bind (goes_expect ?_)))
  exact .bind ((hv.assignment hi).goes hd hstop' (goes_finish rfl))

theorem isAssignable_of_views {r : TreeReader} {v : View} (hr : r.Views v) (hv : v.made = t :: made)
    (ht : t.kind? = some .name ∨ t.kind?.any Kind.isGet = true) :
    isAssignable (NodeStack.topKind? r.made) = true := by
  have hm := hr.made
  rw [hv] at hm
  obtain ⟨u, us, e, rfl, -⟩ := List.map_eq_cons_iff.mp hm
  rw [Tree.kind?_bare] at ht
  have htop : NodeStack.topKind? r.made = u.kind? := by rw [e]; rfl
  rw [htop]
  cases hu : u.kind? with
  | none => simp [hu] at ht
  | some k => simpa [isAssignable, hu] using ht

theorem Phrase.assign (h : Phrase k chain ambiguous ts t) (hk : Precedence.or.rank ≤ k.rank)
    (ht : t.kind? = some .name ∨ t.kind?.any Kind.isGet = true)
    (hu : Phrase j chain' ambiguous' us u) (hj : Precedence.assign.rank ≤ j.rank) :
    Phrase .assign false ambiguous (ts ++ .punct .assign :: us)
      (.of { kind := .assign } [t, u]) := by
  refine (At.mk (k := .assign) ?_ (fun e => absurd rfl e) fun e => nomatch e).phrase (fun _ => rfl)
    (h.opens_append (Nat.le_trans (by decide) hk) _)
  intro d hd rest made hstop
  rw [List.append_assoc]
  refine .bind
    (goes_position fun start =>
      .bind ((h.regains hk).conditional hd rfl nofun (.bind (goes_at? _ ?_))))
  refine .bind (goes_get fun r hr => ?_)
  rw [isAssignable_of_views hr rfl ht]
  refine .bind (goes_advance Tok.noConfusion fun _ => ?_)
  exact .bind ((hu.assignment hj).goes hd hstop (goes_finish rfl))

/-! ## Links -/

def linkKind (chain : Bool) (k : Kind) : Kind := if chain then k.chain?.getD k else k

theorem Links.property {w : String} (h : Links chain ts t) :
    Links chain (ts ++ [.punct .dot, .ident w])
      (.of { kind := linkKind chain .getProp, text := some w } [t]) := by
  intro d hd rest made Q hQ
  rw [List.append_assoc]
  refine h hd fun start => loops_next (c := chain) ?_
  refine .bind
    (goes_eat_other nofun
      (.bind (goes_eat (.bind (goes_propertyName (.bind (goes_finish (goes_pure ?_))))))))
  exact ⟨rfl, by
    simp only [List.append_eq, List.cons_append, List.nil_append, List.length_cons]; omega,
      hQ start⟩

theorem Links.markedProperty {w : String} (h : Links chain ts t) :
    Links true (ts ++ [.punct .questionDot, .ident w])
      (.of { kind := .chainProp, text := some w, chainStart := true } [t]) := by
  intro d hd rest made Q hQ
  rw [List.append_assoc]
  refine h hd fun start => loops_next (c := true) ?_
  refine .bind (goes_eat (.bind (goes_eat_other nofun (.bind (goes_eat_other nofun ?_)))))
  refine .bind (goes_propertyName (.bind (goes_finish (goes_pure ?_))))
  exact ⟨rfl, by
    simp only [List.append_eq, List.cons_append, List.nil_append, List.length_cons]; omega,
      hQ start⟩

theorem Phrase.goes_key (h : Phrase k chain ambiguous ts t) (hd : d ≤ maxParseDepth)
    {Q : Unit → View → Prop} (hQ : Q () ⟨rest, d, t :: made⟩) :
    Goes (key (levels d)) ⟨ts ++ .punct .rightBracket :: rest, d, made⟩ Q :=
  .bind ((h.regains (m := .comma) (Nat.zero_le _)).goes hd rfl (goes_expect hQ))

theorem Links.element (h : Links chain ts t) (hu : Phrase k chain' ambiguous us u) :
    Links chain (ts ++ .punct .leftBracket :: (us ++ [.punct .rightBracket]))
      (.of { kind := linkKind chain .getElem } [t, u]) := by
  intro d hd rest made Q hQ
  simp only [List.append_assoc, List.cons_append]
  refine h hd fun start => loops_next (c := chain) ?_
  refine .bind (goes_eat_other nofun (.bind (goes_eat_other nofun (.bind (goes_eat ?_)))))
  refine .bind (hu.goes_key hd (.bind (goes_finish (goes_pure ?_))))
  exact ⟨rfl, by simp only [List.length_append, List.length_cons]; omega, hQ start⟩

theorem Links.markedElement (h : Links chain ts t) (hu : Phrase k chain' ambiguous us u) :
    Links true (ts ++ .punct .questionDot :: .punct .leftBracket :: (us ++ [.punct .rightBracket]))
      (.of { kind := .chainElem, chainStart := true } [t, u]) := by
  intro d hd rest made Q hQ
  simp only [List.append_assoc, List.cons_append]
  refine h hd fun start => loops_next (c := true) ?_
  refine .bind (goes_eat (.bind (goes_eat_other nofun (.bind (goes_eat ?_)))))
  refine .bind (hu.goes_key hd (.bind (goes_finish (goes_pure ?_))))
  exact ⟨rfl, by simp only [List.length_append, List.length_cons]; omega, hQ start⟩

/-! ## Rows with commas -/

def commas (tss : List (List Tok)) : List Tok := [Tok.punct .comma].intercalate tss

@[simp] theorem commas_nil : commas [] = [] := rfl

@[simp] theorem commas_singleton (ts : List Tok) : commas [ts] = ts := by
  simp [commas, List.intercalate]

@[simp] theorem commas_cons_cons (ts us : List Tok) (tss : List (List Tok)) :
    commas (ts :: us :: tss) = ts ++ .punct .comma :: commas (us :: tss) := by
  simp [commas, List.intercalate]

/-- An item that is read where a comma or the closing punctuator follows. -/
structure Item (close : Punct) (x : NestedTrees → TreeRead Unit) (ts : List Tok) (u : Tree) :
    Prop where
  opens : ∃ t us, ts = t :: us ∧ t ≠ .punct close
  regains : Regains x (fun t => t = .punct .comma || t = .punct close) ts u

variable {ι : Type} {close : Punct} {item : NestedTrees → TreeRead Unit} {toks : ι → List Tok}
    {tree : ι → Tree} {is : List ι}

def separatedStep (close : Punct) (item : TreeRead Unit) : TreeRead Bool := do
  if ← at? close then return false
  item
  eat .comma

theorem separated_eq (close : Punct) (item : TreeRead Unit) : separated close item = (do
    repeatedly (separatedStep close item)
    expect close) := rfl

theorem repeats_separated (hclose : close ≠ .comma)
    (h : ∀ i ∈ is, Item close item (toks i) (tree i)) (hd : d ≤ maxParseDepth) :
    Repeats (separatedStep close (item (levels d)))
      ⟨commas (is.map toks) ++ .punct close :: rest, d, made⟩
      fun _ v => v = ⟨.punct close :: rest, d, (is.map tree).reverse ++ made⟩ := by
  induction is generalizing made with
  | nil =>
    refine repeats_last (.bind (goes_at? _ ?_))
    rw [View.next, decide_eq_true (by rfl)]
    exact goes_pure ⟨rfl, rfl⟩
  | cons i is ih =>
    obtain ⟨hi, his⟩ := List.forall_mem_cons.mp h
    obtain ⟨t, us, e, ht⟩ := hi.opens
    have hnext : ∀ vs, (toks i ++ vs).headD .eof ≠ .punct close := fun vs => by rw [e]; exact ht
    cases is with
    | nil =>
      rw [List.map_singleton, commas_singleton]
      refine repeats_last (.bind (goes_at? _ ?_))
      rw [View.next, decide_eq_false (hnext _)]
      refine .bind (hi.regains.goes hd (by simp) (goes_eat_other ?_ ⟨rfl, rfl⟩))
      simpa [View.next] using hclose
    | cons j is =>
      rw [List.map_cons, List.map_cons, commas_cons_cons, List.append_assoc]
      refine repeats_next (.bind (goes_at? _ ?_))
      rw [View.next, decide_eq_false (hnext _)]
      refine .bind (hi.regains.goes hd rfl (goes_eat ⟨rfl, by simp; omega, ?_⟩))
      have := @ih (tree i :: made) his
      simpa using this

theorem goes_separated (hclose : close ≠ .comma) (h : ∀ i ∈ is, Item close item (toks i) (tree i))
    (hd : d ≤ maxParseDepth) {Q : Unit → View → Prop}
    (hQ : Q () ⟨rest, d, (is.map tree).reverse ++ made⟩) :
    Goes (separated close (item (levels d))) ⟨commas (is.map toks) ++ .punct close :: rest,
      d, made⟩ Q := by
  rw [separated_eq]
  refine .bind (.mono (goes_repeatedly (repeats_separated hclose h hd)) ?_)
  rintro _ v rfl
  exact goes_expect hQ

theorem goes_counted_separated (hclose : close ≠ .comma)
    (h : ∀ i ∈ is, Item close item (toks i) (tree i)) (hd : d ≤ maxParseDepth)
    {Q : Nat → View → Prop} (hQ : Q is.length ⟨rest, d, (is.map tree).reverse ++ made⟩) :
    Goes (counted (separated close (item (levels d)))) ⟨commas (is.map toks) ++ .punct close ::
      rest, d, made⟩ Q := by
  refine goes_counted (goes_separated hclose h hd ?_)
  simpa using hQ

/-! ## Calls and objects -/

theorem Phrase.argument (h : Phrase k chain ambiguous ts u) (hk : Precedence.assign.rank ≤ k.rank) :
    Item .rightParen Nested.assignment ts u := by
  obtain ⟨t, us, rfl, ho⟩ := h.opens
  refine ⟨⟨t, us, rfl, ?_⟩, fun d hd rest made hstop => h.assignment hk hd ?_⟩
  · rintro rfl
    cases ho.begins
  · revert hstop
    generalize rest.headD .eof = tok
    simp only [Bool.or_eq_true, decide_eq_true_eq]
    rintro (rfl | rfl) <;> rfl

theorem Links.call (h : Links chain ts t)
    (hargs : ∀ i ∈ is, Item .rightParen Nested.assignment (toks i) (tree i)) :
    Links chain (ts ++ .punct .leftParen :: (commas (is.map toks) ++ [.punct .rightParen]))
      (.of { kind := linkKind chain .call } (t :: is.map tree)) := by
  have hclose : Punct.rightParen ≠ .comma := nofun
  intro d hd rest made Q hQ
  simp only [List.append_assoc, List.cons_append, List.nil_append]
  refine h hd fun start => loops_next (c := chain) ?_
  refine .bind
    (goes_eat_other nofun
      (.bind (goes_eat_other nofun (.bind (goes_eat_other nofun (.bind (goes_eat ?_)))))))
  refine .bind (goes_counted_separated hclose hargs hd (.bind ?_))
  rw [show (is.map tree).reverse ++ t :: made = (t :: is.map tree).reverse ++ made by simp]
  exact goes_finish_row (by simp) (goes_pure ⟨rfl, by simp; omega, hQ start⟩)

theorem Links.markedCall (h : Links chain ts t)
    (hargs : ∀ i ∈ is, Item .rightParen Nested.assignment (toks i) (tree i)) :
    Links true (ts ++ .punct .questionDot :: .punct .leftParen ::
      (commas (is.map toks) ++ [.punct .rightParen]))
      (.of { kind := .chainCall, chainStart := true } (t :: is.map tree)) := by
  have hclose : Punct.rightParen ≠ .comma := nofun
  intro d hd rest made Q hQ
  simp only [List.append_assoc, List.cons_append, List.nil_append]
  refine h hd fun start => loops_next (c := true) ?_
  refine .bind (goes_eat (.bind (goes_eat ?_)))
  refine .bind (goes_counted_separated hclose hargs hd (.bind ?_))
  rw [show (is.map tree).reverse ++ t :: made = (t :: is.map tree).reverse ++ made by simp]
  exact goes_finish_row (by simp) (goes_pure ⟨rfl, by simp; omega, hQ start⟩)

theorem Links.phrase (h : Links chain ts t)
    (ho : ∃ tok us, ts = tok :: us ∧ tok.Opens .link ambiguous) :
    Phrase .link chain ambiguous ts t :=
  (At.mk (k := .link) h.regains (fun e => absurd rfl e) fun _ => h).phrase nofun ho

theorem Phrase.links (h : Phrase k chain ambiguous ts t) (hk : Precedence.link.rank ≤ k.rank) :
    Links chain ts t :=
  (h.reads .link hk).links rfl

def objectEntry (p : NestedTrees) : TreeRead Unit := do
  let keyStart ← position
  let key ← match (← peek).tok with
    | .string s => do
      let _ ← advance
      pure s
    | _ => propertyName
  expect .colon
  p.assignment
  finish { kind := .objectKey, text := some key } keyStart 1

theorem objectLiteral_eq (p : NestedTrees) : objectLiteral p = (do
    let start ← position
    expect .leftBrace
    let n ← counted (separated .rightBrace (objectEntry p))
    finish { kind := .objectLit } start n) := rfl

theorem Phrase.entry (h : Phrase k chain ambiguous ts u) (hk : Precedence.assign.rank ≤ k.rank)
    (w : String) :
    Item .rightBrace objectEntry (.ident w :: .punct .colon :: ts)
      (.of { kind := .objectKey, text := some w } [u]) := by
  refine ⟨⟨_, _, rfl, nofun⟩, fun d hd rest made hstop => ?_⟩
  refine .bind (goes_position fun start => .bind (goes_peek fun t ht => ?_))
  rw [ht]
  refine .bind
    (goes_propertyName
      (.bind (goes_expect (.bind ((h.assignment hk).goes hd ?_ (goes_finish rfl))))))
  revert hstop
  generalize rest.headD .eof = tok
  simp only [Bool.or_eq_true, decide_eq_true_eq]
  rintro (rfl | rfl) <;> rfl

theorem phrase_object (h : ∀ i ∈ is, Item .rightBrace objectEntry (toks i) (tree i)) :
    Phrase .primary false true (.punct .leftBrace :: (commas (is.map toks) ++ [.punct .rightBrace]))
      (.of { kind := .objectLit } (is.map tree)) := by
  have hclose : Punct.rightBrace ≠ .comma := nofun
  refine Regains.phrase ?_ ⟨rfl, nofun, fun _ => ⟨nofun, nofun⟩⟩
  intro d hd rest made _
  simp only [List.append_assoc, List.cons_append, List.nil_append]
  refine .bind (goes_position fun start => .bind (goes_peek fun t ht => ?_))
  rw [ht]
  change Goes (objectLiteral _) _ _
  rw [objectLiteral_eq]
  refine .bind (goes_position fun start => .bind (goes_expect (.bind ?_)))
  exact goes_counted_separated hclose h hd (goes_finish_row (by simp) rfl)

end Reader

end ChainLowering
