import Mathlib.Tactic.SplitIfs
import ChainLowering.Proofs.Grammar
import ChainLowering.Proofs.TreeReader

/-!
# Rules for readers

`Stacks x s Q` says that `Q` holds of the result of `x` and of the stack of
finished trees after it, whenever `x` goes through on the stack `s`. Of the
tokens only the spelling matters; most readers of tokens keep the stack.
-/

namespace ChainLowering

namespace Reader

/-- All tokens that are left are spelled right. -/
def Lexed (r : TreeReader) : Prop := ∀ t ∈ r.tokens, t.tok.Lexed

theorem Lexed.current {r : TreeReader} (h : r.Lexed) : r.current.tok.Lexed := by
  rw [Reader.current, List.headD_eq_head?_getD]
  cases ht : r.tokens.head? with
  | none => trivial
  | some t => exact h t (List.mem_of_mem_head? ht)

theorem Lexed.of_tokens {r r' : TreeReader} (h : r.Lexed) (ht : r'.tokens = r.tokens) :
    r'.Lexed := by
  rw [Lexed, ht]
  exact h

variable {α β : Type} {x : TreeRead α} {f : α → TreeRead β} {s : List Tree}

def Stacks (x : TreeRead α) (s : List Tree) (Q : α → List Tree → Prop) : Prop :=
  ∀ r v r', r.Lexed → r.made = s → x.run r = (.ok v, r') → r'.Lexed ∧ Q v r'.made

theorem Stacks.mono {P Q : α → List Tree → Prop} (h : Stacks x s P) (hPQ : ∀ v s', P v s' →
    Q v s') : Stacks x s Q :=
  fun r v r' hl hr hx => (h r v r' hl hr hx).imp_right (hPQ _ _)

theorem Stacks.bind {Q : β → List Tree → Prop} (h : Stacks x s fun v s' => Stacks (f v) s' Q) :
    Stacks (x >>= f) s Q := by
  intro r v r' hl hr hx
  rw [ExceptT.run_bind] at hx
  change StateT.bind x.run _ r = _ at hx
  simp only [StateT.bind] at hx
  rcases hy : x.run r with ⟨_ | u, r₁⟩
  · rw [hy] at hx
    cases hx
  · rw [hy] at hx
    obtain ⟨hl₁, h₁⟩ := h r u r₁ hl hr hy
    exact h₁ r₁ v r' hl₁ rfl hx

theorem stacks_pure {v : α} {Q : α → List Tree → Prop} (h : Q v s) : Stacks (pure v) s Q := by
  intro r u r' hl hr hx
  cases hx
  exact ⟨hl, by rwa [hr]⟩

theorem stacks_throw {e : Halt ReadError} {Q : α → List Tree → Prop} :
    Stacks (throw e : TreeRead α) s Q :=
  fun _ _ _ _ _ hx => nomatch hx

theorem stacks_ite {c : Prop} [Decidable c] {y : TreeRead α} {Q : α → List Tree → Prop}
    (hx : Stacks x s Q) (hy : Stacks y s Q) : Stacks (if c then x else y) s Q := by
  split_ifs
  · exact hx
  · exact hy

theorem stacks_get {Q : TreeReader → List Tree → Prop}
    (h : ∀ r : TreeReader, r.Lexed → r.made = s → Q r s) :
    Stacks (get : TreeRead TreeReader) s Q := by
  intro r u r' hl hr hx
  cases hx
  rw [hr]
  exact ⟨hl, h r hl hr⟩

theorem stacks_modify {g : TreeReader → TreeReader} {Q : Unit → List Tree → Prop}
    (hg : ∀ r : TreeReader, r.Lexed → (g r).Lexed) (h : ∀ r : TreeReader, r.made = s →
      Q () (g r).made) : Stacks (modify g : TreeRead Unit) s Q := by
  intro r u r' hl hr hx
  cases hx
  exact ⟨hg r hl, h r hr⟩

/-- Leaves the stack as it is. -/
def Keeps (x : TreeRead α) : Prop := ∀ s, Stacks x s fun _ s' => s' = s

theorem Keeps.stacks {Q : α → List Tree → Prop} (h : Keeps x) (hQ : ∀ v, Q v s) : Stacks x s Q :=
  (h s).mono fun v _ e => e ▸ hQ v

theorem Keeps.then {Q : β → List Tree → Prop} (h : Keeps x) (hf : ∀ v, Stacks (f v) s Q) :
    Stacks (x >>= f) s Q :=
  .bind (h.stacks hf)

theorem Keeps.bind (h : Keeps x) (hf : ∀ v, Keeps (f v)) : Keeps (x >>= f) :=
  fun s => h.then fun v => hf v s

theorem keeps_pure (v : α) : Keeps (pure v : TreeRead α) := fun _ => stacks_pure rfl

theorem keeps_ite {c : Prop} [Decidable c] {y : TreeRead α} (hx : Keeps x) (hy : Keeps y) :
    Keeps (if c then x else y) := by
  split_ifs
  · exact hx
  · exact hy

/-! ## Tokens -/

theorem stacks_peek {Q : Token → List Tree → Prop} (h : ∀ t : Token, t.tok.Lexed → Q t s) :
    Stacks peek s Q :=
  .bind (stacks_get fun r hl _ => stacks_pure (h r.current hl.current))

theorem keeps_peek : Keeps peek := fun _ => stacks_peek fun _ _ => rfl

theorem stacks_unexpected {e : Expected} {Q : α → List Tree → Prop} : Stacks (unexpected e) s Q :=
  keeps_peek.then fun _ => stacks_throw

theorem keeps_unexpected (e : Expected) : Keeps (unexpected e : TreeRead α) :=
  fun _ => stacks_unexpected

theorem keeps_advance : Keeps advance := by
  refine keeps_peek.bind fun t => ?_
  intro s
  split_ifs
  · refine .bind (stacks_modify (fun r hl t ht => hl t (List.mem_of_mem_tail ht)) fun r hr =>
      stacks_pure hr)
  · exact stacks_pure rfl

theorem keeps_position : Keeps position := keeps_peek.bind fun _ => keeps_pure _

theorem keeps_at? (p : Punct) : Keeps (at? p) := keeps_peek.bind fun _ => keeps_pure _

theorem keeps_atWord (w : String) : Keeps (atWord w) := keeps_peek.bind fun _ => keeps_pure _

theorem keeps_atEnd : Keeps atEnd := keeps_peek.bind fun _ => keeps_pure _

theorem keeps_eat (p : Punct) : Keeps (eat p) :=
  (keeps_at? p).bind fun _ => keeps_ite (keeps_advance.bind fun _ => keeps_pure _) (keeps_pure _)

theorem keeps_expect (p : Punct) : Keeps (expect p) :=
  (keeps_eat p).bind fun _ => keeps_ite (keeps_unexpected _) (keeps_pure _)

theorem stacks_identifier :
    Stacks identifier s fun w s' => Lexer.isIdentifier w = true ∧ s' = s := by
  refine .bind (stacks_peek fun t ht => ?_)
  cases hw : t.tok with
  | ident w =>
    rw [hw] at ht
    have hrest (hk : w ∉ keywords) : Stacks (do let _ ← advance; return w) s fun w s' =>
        Lexer.isIdentifier w = true ∧ s' = s :=
      keeps_advance.then fun _ =>
        stacks_pure ⟨by simpa [Lexer.isIdentifier, hk] using show Lexer.isWord w = true from ht,
          rfl⟩
    dsimp only
    split_ifs with hk
    · exact .bind stacks_unexpected
    · exact hrest hk
  | _ => exact stacks_unexpected

theorem stacks_propertyName : Stacks propertyName s fun w s' => Lexer.isWord w = true ∧ s' = s := by
  refine .bind (stacks_peek fun t ht => ?_)
  cases hw : t.tok with
  | ident w =>
    rw [hw] at ht
    exact keeps_advance.then fun _ => stacks_pure ⟨ht, rfl⟩
  | _ => exact stacks_unexpected

/-! ## Trees -/

theorem stacks_push {l : Label} {n : Nat} {Q : Unit → List Tree → Prop}
    (h : Q () (.of l (s.take n).reverse :: s.drop n)) : Stacks (push l n) s Q :=
  stacks_modify (fun _ hl => hl.of_tokens rfl) fun _ hr => hr ▸ h

theorem stacks_finish {l : Label} {start n : Nat} {Q : Unit → List Tree → Prop}
    (h : ∀ stop,
      Q () (.of { l with start := some start, stop := some stop } (s.take n).reverse :: s.drop n)) :
    Stacks (finish l start n) s Q :=
  .bind (stacks_get fun r _ _ => stacks_push (h r.lastStop))

theorem stacks_counted {x : TreeRead Unit} {Q : Nat → List Tree → Prop}
    (h : Stacks x s fun _ s' => Q (s'.length - s.length) s') : Stacks (counted x) s Q := by
  refine .bind (stacks_get fun r _ hr => .bind (h.mono fun _ s' hs' => ?_))
  exact .bind (stacks_get fun r' _ hr' => stacks_pure (by rw [hr, hr']; exact hs'))

/-! ## Repetition -/

theorem stacks_iterateTo {γ : Type} {step : γ → TreeRead (Option γ)} {I : γ → List Tree → Prop}
    {Q : List Tree → Prop}
    (hstep : ∀ c s, I c s → Stacks (step c) s fun o s' => o.elim (Q s') fun c => I c s')
    (ts : List Token) {c : γ} (hc : I c s) : Stacks (iterateTo step ts c) s fun _ s' => Q s' := by
  induction ts generalizing c s with
  | nil => exact stacks_throw
  | cons t ts ih =>
    refine .bind ((hstep c s hc).mono ?_)
    intro o s' ho
    cases o with
    | some d => exact ih ho
    | none => exact stacks_pure ho

theorem stacks_iterate {γ : Type} {step : γ → TreeRead (Option γ)} {I : γ → List Tree → Prop}
    {Q : List Tree → Prop}
    (hstep : ∀ c s, I c s → Stacks (step c) s fun o s' => o.elim (Q s') fun c => I c s') {c : γ}
    (hc : I c s) :
    Stacks (iterate step c) s fun _ s' => Q s' :=
  .bind (stacks_get fun _ _ _ => stacks_iterateTo hstep _ hc)

theorem stacks_repeatedly {step : TreeRead Bool} {I : List Tree → Prop}
    (hstep : ∀ s, I s → Stacks step s fun _ s' => I s') (hs : I s) :
    Stacks (repeatedly step) s fun _ s' => I s' := by
  refine stacks_iterate (I := fun _ => I)
    (fun _ s hs => .bind ((hstep s hs).mono fun b s' hs' => ?_)) hs
  cases b <;> exact stacks_pure hs'

theorem stacks_deeper {x : TreeRead Unit} {Q : Unit → List Tree → Prop} (h : Stacks x s Q) :
    Stacks (deeper x) s Q := by
  intro r v r' hl hr hx
  by_cases hd : r.depth + 1 ≤ maxParseDepth
  · rcases hrun : x.run r.enter with ⟨e, r₁⟩
    rw [run_deeper_ok hd, hrun] at hx
    obtain ⟨rfl, rfl⟩ := Prod.mk.inj hx
    exact h r.enter v r₁ hl hr hrun
  · rw [run_deeper_full (Nat.lt_of_not_le hd)] at hx
    cases hx

end Reader

end ChainLowering
