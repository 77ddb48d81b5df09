import ChainLowering.Source.Reader

/-!
# Readers in step

The readers ask of their stack only how many nodes it has and what the topmost
one is. So on two stacks that answer alike they go through a text in step, and
each node is put on both of them at the same moment.
-/

namespace ChainLowering

/-- Stacks that are related answer alike and stay so when a node is put on both. -/
class NodeStack.Agree {σ τ : Type} [NodeStack σ] [NodeStack τ] (M : σ → τ → Prop) : Prop where
  build : ∀ {s t}, M s t → ∀ l n, M (build l n s) (build l n t)
  size : ∀ {s t}, M s t → size s = size t
  topKind? : ∀ {s t}, M s t → topKind? s = topKind? t

instance {σ : Type} [NodeStack σ] : NodeStack.Agree (Eq : σ → σ → Prop) where
  build h l n := congrArg (NodeStack.build l n) h
  size h := congrArg NodeStack.size h
  topKind? h := congrArg NodeStack.topKind? h

namespace Reader

variable {σ τ α β γ : Type} {M : σ → τ → Prop}

/-- Readers at the same place, with related stacks. -/
structure Mirrors (M : σ → τ → Prop) (r : Reader σ) (s : Reader τ) : Prop where
  tokens : r.tokens = s.tokens
  lastStop : r.lastStop = s.lastStop
  depth : r.depth = s.depth
  peak : r.peak = s.peak
  made : M r.made s.made

theorem Mirrors.eq {r s : Reader σ} (h : Mirrors Eq r s) : r = s := by
  obtain ⟨ts, stop, depth, peak, made⟩ := r
  obtain ⟨rfl, rfl, rfl, rfl, rfl⟩ := h
  rfl

theorem Mirrors.current {r : Reader σ} {s : Reader τ} (h : Mirrors M r s) :
    r.current = s.current := by
  rw [Reader.current, h.tokens, h.lastStop, ← Reader.current]

/-- From readers that mirror each other, `x` and `y` end alike in readers that do, unless `x` meets
a bound. -/
def InStep (M : σ → τ → Prop) (x : Read σ α) (y : Read τ α) : Prop := ∀ r s, Mirrors M r s →
  (x.run r).1 = .error (.fault .exhausted) ∨
  ((x.run r).1 = (y.run s).1 ∧ Mirrors M (x.run r).2 (y.run s).2)

namespace InStep

variable {x x' : Read σ α} {y y' : Read τ α}

/-! ## How readers are put together -/

theorem pure (v : α) : InStep M (pure v : Read σ α) (pure v) := fun _ _ h => .inr ⟨rfl, h⟩

theorem fail (e : ReadError) : InStep M (fail e : Read σ α) (fail e) := fun _ _ h => .inr ⟨rfl, h⟩

theorem exhausted (y : Read τ α) : InStep M exhausted y := fun _ _ _ => .inl rfl

theorem bind {f : α → Read σ β} {g : α → Read τ β} (h : InStep M x y)
    (hf : ∀ v, InStep M (f v) (g v)) :
    InStep M (x >>= f) (y >>= g) := by
  intro r s hrs
  rw [ExceptT.run_bind, ExceptT.run_bind]
  show (StateT.bind x.run _ r).1 = _ ∨
    ((StateT.bind x.run _ r).1 = (StateT.bind y.run _ s).1 ∧
      Mirrors M (StateT.bind x.run _ r).2 (StateT.bind y.run _ s).2)
  simp only [StateT.bind]
  have hxy := h r s hrs
  rcases hx : x.run r with ⟨e | v, r'⟩ <;> rcases hy : y.run s with ⟨e' | v', s'⟩ <;>
    rw [hx, hy] at hxy
  · rcases hxy with hbound | ⟨hvalue, hleft⟩
    · cases hbound
      exact .inl rfl
    · cases hvalue
      exact .inr ⟨rfl, hleft⟩
  · cases hxy.resolve_right nofun
    exact .inl rfl
  · exact hxy.elim nofun nofun
  · obtain ⟨hvalue, hleft⟩ := hxy.resolve_left nofun
    cases hvalue
    exact hf v r' s' hleft

theorem get_bind {f : Reader σ → Read σ β} {g : Reader τ → Read τ β}
    (h : ∀ r s, Mirrors M r s → InStep M (f r) (g s)) :
    InStep M (get >>= f) (get >>= g) := fun r s hrs => h r s hrs r s hrs

theorem modify {f : Reader σ → Reader σ} {g : Reader τ → Reader τ}
    (h : ∀ r s, Mirrors M r s → Mirrors M (f r) (g s)) :
    InStep M (modify f : Read σ Unit) (modify g) := fun r s hrs => .inr ⟨rfl, h r s hrs⟩

theorem ite {c : Prop} [Decidable c] (h : InStep M x y) (h' : InStep M x' y') :
    InStep M (if c then x else x') (if c then y else y') := by
  split
  · exact h
  · exact h'

theorem iterateTo {step : γ → Read σ (Option γ)} {step' : γ → Read τ (Option γ)}
    (h : ∀ v, InStep M (step v) (step' v)) (ts : List Token) (v : γ) :
    InStep M (iterateTo step ts v) (iterateTo step' ts v) := by
  induction ts generalizing v with
  | nil => exact exhausted _
  | cons t ts ih =>
    apply (h v).bind
    intro o
    cases o with
    | none => exact pure ()
    | some u => exact ih u

theorem iterate {step : γ → Read σ (Option γ)} {step' : γ → Read τ (Option γ)}
    (h : ∀ v, InStep M (step v) (step' v)) (v : γ) :
    InStep M (iterate step v) (iterate step' v) := by
  refine get_bind fun r s hrs => ?_
  rw [hrs.tokens]
  exact iterateTo h _ v

theorem repeatedly {step : Read σ Bool} {step' : Read τ Bool} (h : InStep M step step') :
    InStep M (repeatedly step) (repeatedly step') :=
      iterate (fun _ => h.bind fun b => pure (if b then some () else none)) ()

theorem deeper {x : Read σ Unit} {y : Read τ Unit} (h : InStep M x y) :
    InStep M (deeper x) (deeper y) := by
  intro r s hrs
  have henter : Mirrors M r.enter s.enter := by
    refine ⟨hrs.tokens, hrs.lastStop, congrArg (· + 1) hrs.depth, ?_, hrs.made⟩
    rw [enter, enter, hrs.depth, hrs.peak]
  rw [run_deeper, run_deeper, ← henter.depth, ← hrs.current]
  split
  · exact .inr ⟨rfl, henter⟩
  · refine (h _ _ henter).imp_right fun ⟨hvalue, hleft⟩ => ⟨hvalue, ?_⟩
    exact ⟨hleft.tokens, hleft.lastStop, congrArg (· - 1) hleft.depth, hleft.peak, hleft.made⟩

/-! ## Tokens -/

theorem peek : InStep M peek peek := by
  refine get_bind fun r s hrs => ?_
  rw [hrs.current]
  exact pure _

theorem advance : InStep M advance advance := by
  refine peek.bind fun t => ite ?_ (pure t)
  refine (modify fun r s hrs => ?_).bind fun _ => pure t
  exact ⟨congrArg List.tail hrs.tokens, rfl, hrs.depth, hrs.peak, hrs.made⟩

theorem position : InStep M position position := peek.bind fun t => pure t.start

theorem at? (p : Punct) : InStep M (at? p) (at? p) := peek.bind fun _ => pure _

theorem atWord (word : String) : InStep M (atWord word) (atWord word) := peek.bind fun _ => pure _

theorem atEnd : InStep M atEnd atEnd := peek.bind fun _ => pure _

theorem eat (p : Punct) : InStep M (eat p) (eat p) :=
  (at? p).bind fun _ => ite (advance.bind fun _ => pure true) (pure false)

theorem unexpected (e : Expected) : InStep M (unexpected e : Read σ α) (unexpected e) :=
  peek.bind fun _ => fail _

theorem expect (p : Punct) : InStep M (expect p) (expect p) :=
  (eat p).bind fun _ => ite (unexpected _) (pure ())

theorem identifier : InStep M identifier identifier := by
  refine peek.bind fun t => ?_
  cases t.tok with
  | ident s =>
    have hrest : InStep M (do let _ ← Reader.advance; return s) (do
      let _ ← Reader.advance; return s) := advance.bind fun _ => pure s
    exact ite ((unexpected _).bind fun _ => hrest) hrest
  | _ => exact unexpected _

theorem propertyName : InStep M propertyName propertyName := by
  refine peek.bind fun t => ?_
  cases t.tok with
  | ident s => exact advance.bind fun _ => pure s
  | _ => exact unexpected _

theorem separated {x : Read σ Unit} {y : Read τ Unit} (h : InStep M x y) (close : Punct) :
    InStep M (separated close x) (separated close y) :=
  (repeatedly ((at? close).bind fun _ => ite (pure false) (h.bind fun _ => eat .comma))).bind
    fun _ => expect close

/-! ## Nodes -/

variable [NodeStack σ] [NodeStack τ] [NodeStack.Agree M]

theorem push (l : Label) (n : Nat) : InStep M (push l n) (push l n) :=
  modify fun _ _ h => ⟨h.tokens, h.lastStop, h.depth, h.peak, NodeStack.Agree.build h.made l n⟩

theorem finish (l : Label) (start n : Nat) : InStep M (finish l start n) (finish l start n) := by
  refine get_bind fun r s hrs => ?_
  rw [hrs.lastStop]
  exact push _ n

theorem counted {x : Read σ Unit} {y : Read τ Unit} (h : InStep M x y) :
    InStep M (counted x) (counted y) := by
  refine get_bind fun r s hrs => h.bind fun _ => get_bind fun r' s' hrs' => ?_
  rw [NodeStack.Agree.size hrs.made, NodeStack.Agree.size hrs'.made]
  exact pure _

theorem nameNode : InStep M nameNode nameNode :=
  position.bind fun start => identifier.bind fun _ => finish _ start 0

end InStep

structure Nested.InStep (M : σ → τ → Prop) (p : Nested σ) (q : Nested τ) : Prop where
  statement : Reader.InStep M p.statement q.statement
  assignment : Reader.InStep M p.assignment q.assignment
  operand : Reader.InStep M p.operand q.operand

/-! ## One rule for each reader -/

section
variable [NodeStack σ] [NodeStack τ] [NodeStack.Agree M] {p : Nested σ} {q : Nested τ}
    (h : p.InStep M q)
include h

namespace InStep

theorem block : InStep M (block p) (block q) := by
  have hrest : InStep M (do p.statement; return true) (do q.statement; return true) :=
    h.statement.bind fun _ => pure true
  refine position.bind fun start => (expect _).bind fun _ =>
    (counted (repeatedly ?_)).bind fun n => ?_
  · refine (at? _).bind fun _ => ite (pure false) (atEnd.bind fun _ => ite ?_ hrest)
    exact (unexpected _).bind fun _ => hrest
  · exact advance.bind fun _ => finish _ start n

theorem branch : InStep M (branch p) (branch q) :=
  (at? _).bind fun _ =>
    ite (block h) (position.bind fun start => h.statement.bind fun _ => finish _ start 1)

theorem declaration (kind : Kind) (start : Nat) :
    InStep M (declaration p kind start) (declaration q kind start) := by
  have hvalue : InStep M (do if ← Reader.eat .assign then p.assignment)
      (do if ← Reader.eat .assign then q.assignment) :=
    (eat _).bind fun _ => ite h.assignment (pure ())
  refine (counted (repeatedly ?_)).bind fun n => (eat _).bind fun _ => finish _ start n
  refine position.bind fun nameStart => identifier.bind fun _ => (counted hvalue).bind fun n => ?_
  exact (finish _ nameStart n).bind fun _ => eat _

theorem function (must : Bool) : InStep M (function p must) (function q must) := by
  have hrest (start : Nat) : InStep M (do
      let paramsStart ← Reader.position
      Reader.expect .leftParen
      let n ← Reader.counted (Reader.separated .rightParen Reader.nameNode)
      Reader.finish { kind := .paramList } paramsStart n
      Reader.block p
      Reader.finish { kind := .function } start 3) (do
      let paramsStart ← Reader.position
      Reader.expect .leftParen
      let n ← Reader.counted (Reader.separated .rightParen Reader.nameNode)
      Reader.finish { kind := .paramList } paramsStart n
      Reader.block q
      Reader.finish { kind := .function } start 3) := by
    refine position.bind fun paramsStart => (expect _).bind fun _ =>
      (counted (separated nameNode _)).bind fun n => ?_
    exact (finish _ paramsStart n).bind fun _ => (block h).bind fun _ => finish _ start 3
  refine position.bind fun start => advance.bind fun _ => (at? _).bind fun _ => ite ?_ ?_
  · exact nameNode.bind fun _ => hrest start
  · exact (push _ 0).bind fun _ => hrest start

theorem expression : InStep M (expression p) (expression q) := by
  refine position.bind fun start => h.assignment.bind fun _ =>
    repeatedly ((eat _).bind fun _ => ite (pure false) ?_)
  exact h.assignment.bind fun _ => (finish _ start 2).bind fun _ => pure true

theorem returnStatement (start : Nat) :
    InStep M (returnStatement p start) (returnStatement q start) := by
  refine (counted ?_).bind fun n => (eat _).bind fun _ => finish _ start n
  exact (at? _).bind fun _ => (at? _).bind fun _ => atEnd.bind fun _ => ite (expression h) (pure ())

theorem ifStatement (start : Nat) : InStep M (ifStatement p start) (ifStatement q start) := by
  refine (expect _).bind fun _ => (counted ?_).bind fun n => finish _ start n
  refine (expression h).bind fun _ => (expect _).bind fun _ => (branch h).bind fun _ =>
    (atWord _).bind fun _ => ?_
  exact ite (advance.bind fun _ => branch h) (pure ())

theorem statement : InStep M (statement p) (statement q) := by
  refine position.bind fun start => (at? _).bind fun _ => ite (block h) ?_
  refine (eat _).bind fun _ => ite (finish _ start 0) (peek.bind fun t => ?_)
  cases declarationKind? t.tok with
  | some kind => exact advance.bind fun _ => declaration h kind start
  | none =>
    refine (atWord _).bind fun _ => ite (function h true) ?_
    refine (atWord _).bind fun _ => ite (advance.bind fun _ => returnStatement h start) ?_
    refine (atWord _).bind fun _ => ite (advance.bind fun _ => ifStatement h start) ?_
    exact (expression h).bind fun _ => (eat _).bind fun _ => finish _ start 1

theorem objectLiteral : InStep M (objectLiteral p) (objectLiteral q) := by
  have hrest (keyStart : Nat) (key : String) : InStep M (do
      Reader.expect .colon
      p.assignment
      Reader.finish { kind := .objectKey, text := some key } keyStart 1) (do
      Reader.expect .colon
      q.assignment
      Reader.finish { kind := .objectKey, text := some key } keyStart 1) :=
    (expect _).bind fun _ => h.assignment.bind fun _ => finish _ keyStart 1
  refine position.bind fun start => (expect _).bind fun _ =>
    (counted (separated ?_ _)).bind fun n => finish _ start n
  refine position.bind fun keyStart => peek.bind fun t => ?_
  cases t.tok with
  | string s => exact advance.bind fun _ => hrest keyStart s
  | _ => exact propertyName.bind fun key => hrest keyStart key

theorem primary : InStep M (primary p) (primary q) := by
  refine position.bind fun start => peek.bind fun t => ?_
  split
  · exact advance.bind fun _ => (expression h).bind fun _ => expect _
  · exact objectLiteral h
  · exact advance.bind fun _ => finish _ start 0
  · exact advance.bind fun _ => finish _ start 0
  · split
    · exact advance.bind fun _ => finish _ start 0
    · exact ite (function h false) nameNode
  · exact unexpected _

theorem key : InStep M (key p) (key q) := (expression h).bind fun _ => expect _

theorem link (start : Nat) (inChain : Bool) :
    InStep M (link p start inChain) (link q start inChain) := by
  have hargs (l : Label) (b : Bool) : InStep M (do
      let n ← Reader.counted (Reader.separated .rightParen p.assignment)
      Reader.finish l start (n + 1)
      return some b) (do
      let n ← Reader.counted (Reader.separated .rightParen q.assignment)
      Reader.finish l start (n + 1)
      return some b) :=
    (counted (separated h.assignment _)).bind fun n =>
      (finish l start (n + 1)).bind fun _ => pure (some b)
  have hkey (l : Label) (b : Bool) : InStep M (do
      Reader.key p
      Reader.finish l start 2
      return some b) (do
      Reader.key q
      Reader.finish l start 2
      return some b) := (key h).bind fun _ => (finish l start 2).bind fun _ => pure (some b)
  refine (eat _).bind fun _ => ite ?_ ?_
  · refine (eat _).bind fun _ => ite (hargs _ true) ((eat _).bind fun _ => ite (hkey _ true) ?_)
    exact propertyName.bind fun _ => (finish _ start 1).bind fun _ => pure (some true)
  · refine (eat _).bind fun _ => ite ?_ ((eat _).bind fun _ => ite (hkey _ inChain) ?_)
    · exact propertyName.bind fun _ => (finish _ start 1).bind fun _ => pure (some inChain)
    · exact (eat _).bind fun _ => ite (hargs _ inChain) (pure none)

theorem linked : InStep M (linked p) (linked q) :=
  position.bind fun start => (primary h).bind fun _ => iterate (link h start) false

theorem unary : InStep M (unary p) (unary q) := by
  have hoperand (kind : Kind) (start : Nat) : InStep M (do
      p.operand
      Reader.finish { kind := kind } start 1) (do
      q.operand
      Reader.finish { kind := kind } start 1) := h.operand.bind fun _ => finish _ start 1
  refine position.bind fun start => (eat _).bind fun _ => ite (hoperand .not start) ?_
  exact (atWord _).bind fun _ => ite (advance.bind fun _ => hoperand .void start) (linked h)

omit h in
theorem leftNested {x : Read σ Unit} {y : Read τ Unit} (operators : List (Punct × Kind))
    (h : InStep M x y) :
    InStep M (leftNested operators x) (leftNested operators y) := by
  refine position.bind fun start => h.bind fun _ => repeatedly (peek.bind fun t => ?_)
  cases operators.find? (fun o => t.tok = .punct o.1) with
  | none => exact pure false
  | some o => exact advance.bind fun _ => h.bind fun _ => (finish _ start 2).bind fun _ => pure true

theorem conditional : InStep M (conditional p) (conditional q) := by
  refine position.bind fun start =>
    (leftNested _ (leftNested _ (leftNested _ (unary h)))).bind fun _ => ?_
  refine (eat _).bind fun _ => ite ?_ (pure ())
  exact h.assignment.bind fun _ => (expect _).bind fun _ => h.assignment.bind fun _ =>
    finish _ start 3

theorem assignment : InStep M (assignment p) (assignment q) := by
  refine position.bind fun start => (conditional h).bind fun _ => (at? _).bind fun _ =>
    ite ?_ (pure ())
  have hrest : InStep M (do
      let _ ← Reader.advance
      p.assignment
      Reader.finish { kind := .assign } start 2) (do
      let _ ← Reader.advance
      q.assignment
      Reader.finish { kind := .assign } start 2) := advance.bind fun _ => h.assignment.bind fun _ =>
        finish _ start 2
  refine get_bind fun r s hrs => ?_
  rw [NodeStack.Agree.topKind? hrs.made]
  exact ite ((fail _).bind fun _ => hrest) hrest

end InStep

end

/-! ## Whole scripts -/

variable [NodeStack σ] [NodeStack τ] [NodeStack.Agree M]

/-- Readers with fewer levels to go keep in step with those that have more, as long as they do not
run out. -/
theorem nested_inStep {m n : Nat} (hmn : m ≤ n) :
    (nested m : Nested σ).InStep M (nested n : Nested τ) := by
  induction m generalizing n with
  | zero => exact ⟨.exhausted _, .exhausted _, .exhausted _⟩
  | succ m ih =>
    cases n with
    | zero => exact absurd hmn (Nat.not_succ_le_zero m)
    | succ n =>
      have h := ih (Nat.le_of_succ_le_succ hmn)
      exact ⟨(InStep.statement h).deeper, (InStep.assignment h).deeper, (InStep.unary h).deeper⟩

theorem script_inStep : InStep M (script : Read σ Unit) script := by
  have hstatement : InStep M (outermost : Nested σ).statement (outermost : Nested τ).statement :=
    (nested_inStep (Nat.le_refl _)).statement
  refine (InStep.counted (InStep.repeatedly ?_)).bind fun n => .finish _ 0 n
  exact InStep.atEnd.bind fun _ => .ite (.pure false) (hstatement.bind fun _ => .pure true)

end Reader

end ChainLowering
