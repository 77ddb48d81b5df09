import ChainLowering.Proofs.Grammar
import ChainLowering.Proofs.TreeReader

/-!
# Readers that go through

A view of a reader leaves out where the tokens stand. `Goes x v Q` says that
`x` goes through from the view `v`, with `Q` of its result and of the view
after it, or finds the text nested too deeply.
-/

namespace ChainLowering

namespace Tree

variable {l : Label} {t : Tree} {ts : List Tree}

@[simp] theorem bare_of (l : Label) (ts : List Tree) :
    (of l ts).bare = of l.bare (ts.map bare) := by
  rw [of, bare, of, List.length_map]
  congr 1
  funext i
  rw [List.getD_eq_getElem?_getD, List.getD_eq_getElem?_getD, List.getElem?_map]
  cases ts[i]? <;> rfl

@[simp] theorem kind?_bare (t : Tree) : t.bare.kind? = t.kind? := by
  cases t <;> rfl

end Tree

namespace Reader

/-- What is left of a text, how deep the reader stands in it, and what the finished trees show. -/
structure View where
  toks : List Tok
  depth : Nat
  made : List Tree

def View.next (v : View) : Tok := v.toks.headD .eof

/-- The end of input is not among the tokens of a view. -/
structure Views (r : TreeReader) (v : View) : Prop where
  toks : r.tokens.map Token.tok = v.toks ++ [.eof]
  depth : r.depth = v.depth
  made : r.made.map Tree.bare = v.made

variable {α β γ : Type} {x : TreeRead α} {f : α → TreeRead β} {v : View} {r : TreeReader} {d : Nat}
    {made : List Tree} {rest : List Tok}

def Goes (x : TreeRead α) (v : View) (Q : α → View → Prop) : Prop :=
  ∀ r : TreeReader, r.Views v → (∃ n r', x.run r = (.error (.error (.tooDeep n)), r')) ∨
    ∃ a r' v', x.run r = (.ok a, r') ∧ r'.Views v' ∧ Q a v'

theorem Goes.mono {P Q : α → View → Prop} (h : Goes x v P) (hPQ : ∀ a v', P a v' → Q a v') :
    Goes x v Q := by
  intro r hr
  obtain hx | ⟨a, r', v', hx, hv, ha⟩ := h r hr
  · exact .inl hx
  · exact .inr ⟨a, r', v', hx, hv, hPQ a v' ha⟩

theorem Goes.bind {Q : β → View → Prop} (h : Goes x v fun a v' => Goes (f a) v' Q) :
    Goes (x >>= f) v Q := by
  intro r hr
  rw [ExceptT.run_bind]
  change (∃ n r', StateT.bind x.run _ r = _) ∨ ∃ a r' v', StateT.bind x.run _ r = _ ∧ _
  simp only [StateT.bind]
  obtain ⟨n, r', hx⟩ | ⟨a, r', v', hx, hv, hf⟩ := h r hr
  · rw [hx]
    exact .inl ⟨n, r', rfl⟩
  · rw [hx]
    exact hf r' hv

theorem goes_pure {a : α} {Q : α → View → Prop} (h : Q a v) : Goes (pure a) v Q :=
  fun r hr => .inr ⟨a, r, v, rfl, hr, h⟩

theorem goes_get {Q : TreeReader → View → Prop} (h : ∀ r : TreeReader, r.Views v → Q r v) :
    Goes (get : TreeRead TreeReader) v Q :=
  fun r hr => .inr ⟨r, r, v, rfl, hr, h r hr⟩

theorem goes_modify {g : TreeReader → TreeReader} (v' : View) {Q : Unit → View → Prop}
    (hg : ∀ r : TreeReader, r.Views v → (g r).Views v') (h : Q () v') :
    Goes (modify g : TreeRead Unit) v Q :=
  fun r hr => .inr ⟨(), g r, v', rfl, hg r hr, h⟩

/-! ## Tokens -/

theorem Views.current (h : r.Views v) : r.current.tok = v.next := by
  have ht := h.toks
  rw [Reader.current, View.next]
  cases hr : r.tokens with
  | nil => simp [hr] at ht
  | cons t ts =>
    rw [hr, List.map_cons] at ht
    cases hv : v.toks with
    | nil => rw [hv] at ht; exact (List.cons.inj ht).1
    | cons u us => rw [hv] at ht; exact (List.cons.inj ht).1

theorem goes_peek {Q : Token → View → Prop} (h : ∀ t : Token, t.tok = v.next → Q t v) :
    Goes peek v Q :=
  .bind (goes_get fun r hr => goes_pure (h r.current hr.current))

theorem goes_position {Q : Nat → View → Prop} (h : ∀ n, Q n v) : Goes position v Q :=
  .bind (goes_peek fun t _ => goes_pure (h t.start))

theorem goes_at? (p : Punct) {Q : Bool → View → Prop} (h : Q (v.next = .punct p) v) :
    Goes (at? p) v Q :=
  .bind (goes_peek fun t ht => goes_pure (by rwa [ht]))

theorem goes_atWord (w : String) {Q : Bool → View → Prop} (h : Q (v.next = .ident w) v) :
    Goes (atWord w) v Q :=
  .bind (goes_peek fun t ht => goes_pure (by rwa [ht]))

theorem goes_atEnd {Q : Bool → View → Prop} (h : Q (v.next = .eof) v) : Goes atEnd v Q :=
  .bind (goes_peek fun t ht => goes_pure (by rwa [ht]))

theorem goes_advance {t : Tok} {Q : Token → View → Prop} (ht : t ≠ .eof)
    (h : ∀ u, Q u ⟨rest, d, made⟩) :
    Goes advance ⟨t :: rest, d, made⟩ Q := by
  refine .bind (goes_peek fun u hu => ?_)
  obtain rfl : u.tok = t := hu
  dsimp only
  rw [if_pos ht]
  refine .bind (goes_modify ⟨rest, d, made⟩ (fun r hr => ⟨?_, hr.depth, hr.made⟩) (goes_pure (h u)))
  rw [List.map_tail, hr.toks]
  rfl

theorem goes_eat {p : Punct} {Q : Bool → View → Prop} (h : Q true ⟨rest, d, made⟩) :
    Goes (eat p) ⟨.punct p :: rest, d, made⟩ Q := by
  refine .bind (goes_at? p ?_)
  rw [decide_eq_true (by rfl)]
  exact .bind (goes_advance Tok.noConfusion fun _ => goes_pure h)

theorem goes_eat_other {p : Punct} {Q : Bool → View → Prop} (hp : v.next ≠ .punct p)
    (h : Q false v) : Goes (eat p) v Q := by
  refine .bind (goes_at? p ?_)
  rw [decide_eq_false hp]
  exact goes_pure h

theorem goes_expect {p : Punct} {Q : Unit → View → Prop} (h : Q () ⟨rest, d, made⟩) :
    Goes (expect p) ⟨.punct p :: rest, d, made⟩ Q :=
  .bind (goes_eat (goes_pure h))

theorem goes_identifier {w : String} {Q : String → View → Prop} (hw : Lexer.isIdentifier w = true)
    (h : Q w ⟨rest, d, made⟩) : Goes identifier ⟨.ident w :: rest, d, made⟩ Q := by
  refine .bind (goes_peek fun t ht => ?_)
  rw [Lexer.isIdentifier, Bool.and_eq_true, Bool.not_eq_true', List.contains_eq_mem,
    decide_eq_false_iff_not] at hw
  rw [show t.tok = .ident w from ht]
  dsimp only
  rw [if_neg hw.2]
  exact .bind (goes_advance Tok.noConfusion fun _ => goes_pure h)

theorem goes_propertyName {w : String} {Q : String → View → Prop} (h : Q w ⟨rest, d, made⟩) :
    Goes propertyName ⟨.ident w :: rest, d, made⟩ Q := by
  refine .bind (goes_peek fun t ht => ?_)
  rw [show t.tok = .ident w from ht]
  exact .bind (goes_advance Tok.noConfusion fun _ => goes_pure h)

/-! ## Trees -/

theorem goes_push {l : Label} {n : Nat} {Q : Unit → View → Prop}
    (h : Q () ⟨v.toks, v.depth, .of l.bare (v.made.take n).reverse :: v.made.drop n⟩) :
    Goes (push l n) v Q := by
  refine goes_modify ⟨v.toks, v.depth, .of l.bare (v.made.take n).reverse :: v.made.drop n⟩
    (fun r hr => ⟨hr.toks, hr.depth, ?_⟩) h
  change List.map Tree.bare (.of l (r.made.take n).reverse :: r.made.drop n) = _
  rw [List.map_cons, Tree.bare_of, List.map_reverse, List.map_take, List.map_drop, hr.made]

theorem goes_finish {l : Label} {start n : Nat} {Q : Unit → View → Prop}
    (h : Q () ⟨v.toks, v.depth, .of l.bare (v.made.take n).reverse :: v.made.drop n⟩) :
    Goes (finish l start n) v Q :=
  .bind (goes_get fun _ _ => goes_push h)

theorem goes_finish_row {l : Label} {start n : Nat} {us : List Tree} {Q : Unit → View → Prop}
    (hn : n = us.length) (h : Q () ⟨rest, d, .of l.bare us :: made⟩) :
    Goes (finish l start n) ⟨rest, d, us.reverse ++ made⟩ Q := by
  refine goes_finish ?_
  dsimp only
  rw [hn, List.take_left' List.length_reverse, List.drop_left' List.length_reverse,
    List.reverse_reverse]
  exact h

theorem goes_counted {x : TreeRead Unit} {Q : Nat → View → Prop}
    (h : Goes x v fun _ v' => Q (v'.made.length - v.made.length) v') : Goes (counted x) v Q := by
  refine .bind
    (goes_get fun r hr =>
      .bind (h.mono fun _ v' hv' => .bind (goes_get fun r' hr' => goes_pure ?_)))
  rw [← hr.made, ← hr'.made, List.length_map, List.length_map] at hv'
  exact hv'

theorem goes_nameNode {w : String} {Q : Unit → View → Prop} (hw : Lexer.isIdentifier w = true)
    (h : Q () ⟨rest, d, .of { kind := .name, text := some w } [] :: made⟩) :
    Goes nameNode ⟨.ident w :: rest, d, made⟩ Q :=
  .bind (goes_position fun _ => .bind (goes_identifier hw (goes_finish h)))

/-! ## Repetition -/

/-- What comes of repeating a step as often as tokens may be left. -/
def Loops (step : γ → TreeRead (Option γ)) (c : γ) (v : View) (Q : Unit → View → Prop) : Prop :=
  ∀ fuel : List Token, v.toks.length < fuel.length → Goes (iterateTo step fuel c) v Q

theorem goes_iterate {step : γ → TreeRead (Option γ)} {c : γ} {Q : Unit → View → Prop}
    (h : Loops step c v Q) :
    Goes (iterate step c) v Q := by
  refine .bind (goes_get fun r hr => h r.tokens ?_)
  rw [← List.length_map Token.tok, hr.toks, List.length_append]
  exact Nat.lt_succ_self _

theorem loops_last {step : γ → TreeRead (Option γ)} {c : γ} {Q : Unit → View → Prop}
    (h : Goes (step c) v fun o v' => o = none ∧ Q () v') : Loops step c v Q := by
  intro fuel hfuel
  cases fuel with
  | nil => cases hfuel
  | cons t fuel =>
    refine .bind (h.mono ?_)
    rintro _ v' ⟨rfl, hv'⟩
    exact goes_pure hv'

theorem loops_next {step : γ → TreeRead (Option γ)} {b c : γ} {Q : Unit → View → Prop}
    (h : Goes (step b) v fun o v' => o = some c ∧ v'.toks.length < v.toks.length ∧
      Loops step c v' Q) :
    Loops step b v Q := by
  intro fuel hfuel
  cases fuel with
  | nil => cases hfuel
  | cons t fuel =>
    refine .bind (h.mono ?_)
    rintro _ v' ⟨rfl, hlen, hv'⟩
    exact hv' fuel (by simp at hfuel; omega)

/-- What comes of repeating a step while it answers yes. -/
def Repeats (step : TreeRead Bool) (v : View) (Q : Unit → View → Prop) : Prop :=
  Loops (fun _ => return if ← step then some () else none) () v Q

theorem goes_repeatedly {step : TreeRead Bool} {Q : Unit → View → Prop} (h : Repeats step v Q) :
    Goes (repeatedly step) v Q :=
  goes_iterate h

theorem repeats_last {step : TreeRead Bool} {Q : Unit → View → Prop}
    (h : Goes step v fun b v' => b = false ∧ Q () v') :
    Repeats step v Q := by
  refine loops_last (.bind (h.mono ?_))
  rintro _ v' ⟨rfl, hv'⟩
  exact goes_pure ⟨rfl, hv'⟩

theorem repeats_next {step : TreeRead Bool} {Q : Unit → View → Prop}
    (h : Goes step v fun b v' => b = true ∧ v'.toks.length < v.toks.length ∧ Repeats step v' Q) :
    Repeats step v Q := by
  refine loops_next (c := ()) (.bind (h.mono ?_))
  rintro _ v' ⟨rfl, hlen, hv'⟩
  exact goes_pure ⟨rfl, hlen, hv'⟩

/-! ## Nesting -/

def levels (d : Nat) : NestedTrees := nested (maxParseDepth + 1 - d)

theorem goes_deeper {x : TreeRead Unit} {toks toks' : List Tok} {made' : List Tree}
    {Q : Unit → View → Prop}
    (h : d + 1 ≤ maxParseDepth → Goes x ⟨toks, d + 1, made⟩ fun _ v => v = ⟨toks', d + 1, made'⟩)
    (hQ : Q () ⟨toks', d, made'⟩) : Goes (deeper x) ⟨toks, d, made⟩ Q := by
  intro r hr
  obtain rfl : r.depth = d := hr.depth
  by_cases hd : r.depth + 1 ≤ maxParseDepth
  · rw [run_deeper_ok hd]
    have henter : r.enter.Views ⟨toks, r.depth + 1, made⟩ := ⟨hr.toks, rfl, hr.made⟩
    obtain ⟨n, r', hx⟩ | ⟨_, r', v', hx, hv, rfl⟩ := h hd r.enter henter
    · rw [hx]
      exact .inl ⟨n, _, rfl⟩
    · rw [hx]
      exact .inr ⟨(), r'.leave, ⟨toks', r.depth, made'⟩, rfl,
        ⟨hv.toks, congrArg (· - 1) hv.depth, hv.made⟩, hQ⟩
  · rw [run_deeper_full (Nat.lt_of_not_le hd)]
    exact .inl ⟨_, _, rfl⟩

end Reader

end ChainLowering
