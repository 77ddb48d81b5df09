import ChainLowering.Print.Layout
import ChainLowering.Proofs.ReadRuns

/-!
# Readers of expressions, level by level

There is a reader for each binding strength. A row of tokens that one of them
reads is read by all that take looser expressions as well, as long as no token
comes next that they would go on with.
-/

namespace ChainLowering

namespace Precedence

def operators : Precedence → List (Punct × Kind)
  | comma => [(.comma, .comma)]
  | or => [(.or, .or)]
  | and => [(.and, .and)]
  | equality => [(.strictEq, .strictEq), (.strictNe, .strictNe), (.eq, .eq), (.ne, .ne)]
  | _ => []

variable {k m : Precedence}

theorem rank_injective : Function.Injective rank := by
  intro k m h
  cases k <;> cases m <;> first | rfl | cases h

theorem rank_next (h : k ≠ .primary) : k.next.rank = k.rank + 1 := by
  cases k <;> first | rfl | exact absurd rfl h

theorem rank_le_primary (k : Precedence) : k.rank ≤ primary.rank := by
  cases k <;> decide

end Precedence

namespace Tok

/-- The tightest expressions that go on with the token. -/
def continues? : Tok → Option Precedence
  | punct .comma => some .comma
  | punct .assign | punct .question => some .conditional
  | punct .or => some .or
  | punct .and => some .and
  | punct .eq | punct .ne | punct .strictEq | punct .strictNe => some .equality
  | punct .questionDot | punct .dot | punct .leftBracket | punct .leftParen => some .link
  | _ => none

/-- An expression that binds at least as tightly as `k` ends before the token. -/
def stops (k : Precedence) (t : Tok) : Bool := t.continues?.all fun o => o.rank < k.rank

variable {k m : Precedence} {t : Tok}

theorem stops_iff : t.stops k = true ↔ ∀ o, t.continues? = some o → o.rank < k.rank := by
  simp [stops, Option.all_eq_true]

theorem stops_mono (h : t.stops k = true) (hk : k.rank ≤ m.rank) : t.stops m = true :=
  stops_iff.mpr fun o ho => Nat.lt_of_lt_of_le (stops_iff.mp h o ho) hk

theorem stops_primary (t : Tok) : t.stops .primary = true :=
  stops_iff.mpr fun o ho => by
    rcases t with _ | _ | _ | p | _
    · cases ho
    · cases ho
    · cases ho
    · cases p <;> cases ho <;> decide
    · cases ho

theorem continues?_operator {o : Punct × Kind} (h : o ∈ k.operators) :
    (punct o.1).continues? = some k := by
  cases k <;> simp only [Precedence.operators, List.mem_cons, List.not_mem_nil, or_false] at h
  all_goals first | (obtain rfl := h; rfl) | (rcases h with rfl | rfl | rfl | rfl <;> rfl)

end Tok

namespace Reader

/-- The reader of expressions that bind at least as tightly as a level. -/
def level (p : NestedTrees) : Precedence → TreeRead Unit
  | .comma => expression p
  | .assign => assignment p
  | .conditional => conditional p
  | .or => disjunction p
  | .and => conjunction p
  | .equality => equality p
  | .unary => unary p
  | .link => linked p
  | .primary => primary p

/-- The reader of the operands of operators that nest to the left. -/
def operandAt (p : NestedTrees) : Precedence → TreeRead Unit
  | .comma => p.assignment
  | k => level p k.next

def nestStep (operators : List (Punct × Kind)) (operand : TreeRead Unit) (start : Nat) :
    TreeRead Bool := do
  let t ← peek
  match operators.find? (fun o => t.tok = .punct o.1) with
  | none => return false
  | some (_, kind) => do
    let _ ← advance
    operand
    finish { kind := kind } start 2
    return true

theorem leftNested_eq (operators : List (Punct × Kind)) (operand : TreeRead Unit) :
    leftNested operators operand = (do
      let start ← position
      operand
      repeatedly (nestStep operators operand start)) := rfl

theorem eat_bind {α : Type} (p : Punct) (f : Bool → TreeRead α) :
    (eat p >>= f) = (do
      let t ← peek
      if t.tok = .punct p then do
        let _ ← advance
        f true
      else f false) := by
  simp only [eat, at?, bind_assoc, pure_bind, decide_eq_true_eq]
  congr 1
  funext t
  split_ifs <;> simp only [bind_assoc, pure_bind]

theorem expression_eq (p : NestedTrees) :
    expression p = leftNested [(.comma, .comma)] p.assignment := by
  rw [leftNested_eq]
  unfold expression
  congr 1
  funext start
  congr 1
  funext _
  congr 1
  rw [eat_bind, nestStep]
  congr 1
  funext t
  by_cases h : t.tok = .punct .comma <;> simp [h]

variable {k m : Precedence} {chain : Bool} {x y : NestedTrees → TreeRead Unit} {stop : Tok → Bool}
    {ts rest : List Tok} {u : Tree}
  {d : Nat} {made : List Tree} {Q : Unit → View → Prop}

theorem level_eq (p : NestedTrees) (hk : k.operators ≠ []) :
    level p k = leftNested k.operators (operandAt p k) := by
  cases k
  case comma => exact expression_eq p
  all_goals first | rfl | exact absurd rfl hk

/-! ## Rows of tokens that are read -/

/-- The reader takes the tokens and leaves a tree that shows `u`, if a token comes next that `stop`
admits. -/
def Regains (x : NestedTrees → TreeRead Unit) (stop : Tok → Bool) (ts : List Tok) (u : Tree) :
    Prop :=
  ∀ ⦃d : Nat⦄, d ≤ maxParseDepth → ∀ ⦃rest : List Tok⦄ ⦃made : List Tree⦄,
    stop (rest.headD .eof) = true → Goes (x (levels d)) ⟨ts ++ rest, d, made⟩ fun _ v =>
    v = ⟨rest, d, u :: made⟩

theorem Regains.goes (h : Regains x stop ts u) (hd : d ≤ maxParseDepth)
    (hstop : stop (rest.headD .eof) = true) (hQ : Q () ⟨rest, d, u :: made⟩) :
    Goes (x (levels d)) ⟨ts ++ rest, d, made⟩ Q :=
  (h hd hstop).mono fun _ _ e => e ▸ hQ

/-- The tokens are read, and then the operators that follow. -/
def Nests (k : Precedence) (ts : List Tok) (u : Tree) : Prop :=
  ∀ ⦃d : Nat⦄, d ≤ maxParseDepth → ∀ ⦃rest : List Tok⦄ ⦃made : List Tree⦄ ⦃Q : Unit → View → Prop⦄,
    (rest.headD .eof).stops k.next = true →
    (∀ start, Repeats (nestStep k.operators (operandAt (levels d) k) start)
      ⟨rest, d, u :: made⟩ Q) →
    Goes (level (levels d) k) ⟨ts ++ rest, d, made⟩ Q

/-- The tokens are read, and then the links that follow, after a chain if `chain` holds. -/
def Links (chain : Bool) (ts : List Tok) (u : Tree) : Prop :=
  ∀ ⦃d : Nat⦄, d ≤ maxParseDepth → ∀ ⦃rest : List Tok⦄ ⦃made : List Tree⦄ ⦃Q : Unit → View → Prop⦄,
    (∀ start, Loops (link (levels d) start) chain ⟨rest, d, u :: made⟩ Q) →
    Goes (level (levels d) .link) ⟨ts ++ rest, d, made⟩ Q

theorem levels_succ (hd : d ≤ maxParseDepth) :
    levels d = ⟨deeper (Reader.statement (levels (d + 1))),
      deeper (Reader.assignment (levels (d + 1))), deeper (Reader.unary (levels (d + 1)))⟩ := by
  rw [levels, levels, show maxParseDepth + 1 - d = maxParseDepth + 1 - (d + 1) + 1 by omega]
  rfl

theorem Regains.deeper (h : Regains x stop ts u)
    (hy : ∀ d ≤ maxParseDepth, y (levels d) = Reader.deeper (x (levels (d + 1)))) :
    Regains y stop ts u := by
  intro d hd rest made hstop
  rw [hy d hd]
  exact goes_deeper (fun hd' => h hd' hstop) rfl

theorem Regains.assignment (h : Regains (level · .assign) stop ts u) :
    Regains Nested.assignment stop ts u :=
  h.deeper fun d hd => by rw [levels_succ hd]; rfl

theorem Regains.operand (h : Regains (level · .unary) stop ts u) :
    Regains Nested.operand stop ts u :=
  h.deeper fun d hd => by rw [levels_succ hd]; rfl

theorem Regains.statement (h : Regains Reader.statement stop ts u) :
    Regains Nested.statement stop ts u :=
  h.deeper fun d hd => by rw [levels_succ hd]

/-! ## From level to level -/

theorem Regains.operandAt (h : Regains (level · k.next) (Tok.stops k.next) ts u) :
    Regains (Reader.operandAt · k) (Tok.stops k.next) ts u := by
  cases k
  case comma => exact h.assignment
  all_goals exact h

theorem Regains.nests (h : Regains (level · k.next) (Tok.stops k.next) ts u)
    (hk : k.operators ≠ []) : Nests k ts u := by
  intro d hd rest made Q hstop hQ
  rw [level_eq _ hk, leftNested_eq]
  exact .bind
    (goes_position fun start => .bind (h.operandAt.goes hd hstop (goes_repeatedly (hQ start))))

theorem Nests.regains (h : Nests k ts u) (hk : k ≠ .primary) :
    Regains (level · k) (Tok.stops k) ts u := by
  intro d hd rest made hstop
  refine h hd (Tok.stops_mono hstop (by rw [Precedence.rank_next hk]; omega)) fun start =>
    repeats_last ?_
  refine .bind (goes_peek fun t ht => ?_)
  have hnone : k.operators.find? (fun o => t.tok = .punct o.1) = none := by
    refine List.find?_eq_none.mpr fun o ho e => ?_
    have := Tok.stops_iff.mp hstop k (by
      rw [← Tok.continues?_operator ho, ← of_decide_eq_true e]; exact congrArg _ ht.symm)
    omega
  rw [hnone]
  exact goes_pure ⟨rfl, rfl⟩

theorem Regains.links (h : Regains (level · .primary) (Tok.stops .primary) ts u) :
    Links false ts u := by
  intro d hd rest made Q hQ
  exact .bind
    (goes_position fun start => .bind (h.goes hd (Tok.stops_primary _) (goes_iterate (hQ start))))

theorem Links.regains (h : Links chain ts u) : Regains (level · .link) (Tok.stops .link) ts u := by
  intro d hd rest made hstop
  refine h hd fun start => loops_last ?_
  have hnext : ∀ p, (Tok.punct p).continues? = some .link → rest.headD .eof ≠ .punct p := by
    intro p hp e
    rw [e] at hstop
    exact absurd (Tok.stops_iff.mp hstop _ hp) (by decide)
  refine .bind (goes_eat_other (hnext _ rfl) (.bind (goes_eat_other (hnext _ rfl) ?_)))
  exact .bind
    (goes_eat_other (hnext _ rfl) (.bind (goes_eat_other (hnext _ rfl) (goes_pure ⟨rfl, rfl⟩))))

theorem Regains.unary (h : Regains (level · .link) (Tok.stops .link) ts u)
    (hts : ∀ rest, (ts ++ rest).headD .eof ≠ .punct .bang ∧
      (ts ++ rest).headD .eof ≠ .ident "void") :
    Regains (level · .unary) (Tok.stops .unary) ts u := by
  intro d hd rest made hstop
  refine .bind
    (goes_position fun start => .bind (goes_eat_other (hts rest).1 (.bind (goes_atWord _ ?_))))
  rw [View.next, decide_eq_false (hts rest).2]
  exact h hd (Tok.stops_mono hstop (by decide))

theorem Regains.conditional (h : Regains (level · .or) (Tok.stops .or) ts u)
    (hd : d ≤ maxParseDepth) (hstop : (rest.headD .eof).stops .or = true)
    (hnext : rest.headD .eof ≠ .punct .question) (hQ : Q () ⟨rest, d, u :: made⟩) :
    Goes (level (levels d) .conditional) ⟨ts ++ rest, d, made⟩ Q :=
  .bind (goes_position fun _ =>
    .bind (h.goes hd hstop (.bind (goes_eat_other hnext (goes_pure hQ)))))

theorem Regains.assign (h : Regains (level · .conditional) (Tok.stops .conditional) ts u) :
    Regains (level · .assign) (Tok.stops .assign) ts u := by
  intro d hd rest made hstop
  refine .bind
    (goes_position fun start =>
      .bind (h.goes hd (Tok.stops_mono hstop (by decide)) (.bind (goes_at? _ ?_))))
  have hnext : rest.headD .eof ≠ .punct .assign := fun e => by rw [e] at hstop; cases hstop
  rw [View.next, decide_eq_false hnext]
  exact goes_pure rfl

end Reader

end ChainLowering
