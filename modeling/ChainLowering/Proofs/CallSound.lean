import ChainLowering.Proofs.Misfits

/-!
# Calls side by side

A call runs the body of its function, so two callers simulate each other if
related bodies do. The changed program calls through the `call` member of a
function where the first program calls the function itself, which is one call
more: it may go deeper, never less deep.
-/

namespace ChainLowering

open Eval

section
variable {α β : Type} {P : Change} {V W : World} {Q : Stamps → α → β → Prop}
    {x : Eval α} {y : Eval β}

namespace Sim

theorem deeper (hd : W.depth ≤ W.depth')
    (h : W.depth' < maxCallDepth → Sim P W.deeper.deeper' x y Q) :
    Sim P W (deeper x) (deeper y) Q := by
  intro m m' hm
  by_cases hfull : maxCallDepth ≤ m'.depth
  · rw [run_deeper_full (x := y) hfull]
    exact .exceeded (Nat.le_trans hfull hm.reached)
  · have hd' := hm.depth'
    have hleft := hm.depth
    rw [run_deeper_ok (x := y) (by omega), run_deeper_ok (x := x) (by omega)]
    have hr := h (by omega) _ _ hm.enter
    generalize x.run m.enter = r, y.run m'.enter = s at hr
    cases hr with
    | @done σ _ _ _ _ hσ h hq => exact .done hσ (.leave h) hq
    | @failed σ e _ _ hσ h => exact .failed e hσ (.leave h)
    | spoiled h => exact .spoiled h
    | exceeded h => exact .exceeded h

theorem deeperRight (h : W.depth' < maxCallDepth → Sim P W.deeper' x y Q) :
    Sim P W x (Eval.deeper y) Q := by
  intro m m' hm
  by_cases hfull : maxCallDepth ≤ m'.depth
  · rw [run_deeper_full hfull]
    exact .exceeded (Nat.le_trans hfull hm.reached)
  · have hd' := hm.depth'
    rw [run_deeper_ok (by omega)]
    have hr := h (by omega) _ _ hm.enterRight
    generalize x.run m = r, y.run m'.enter = s at hr
    cases hr with
    | @done σ _ _ _ _ hσ h hq => exact .done hσ (.leaveRight h) hq
    | @failed σ e _ _ hσ h => exact .failed e hσ (.leaveRight h)
    | spoiled h => exact .spoiled h
    | exceeded h => exact .exceeded h

end Sim

end

/-! ## Callers -/

inductive Completion.Related (σ : Stamps) : Completion → Completion → Prop
  | normal : Related σ normal normal
  | returned {v v' : Value} (h : v.Related σ v') : Related σ (returned v) (returned v')

/-- What is called alike ends alike, at these depths. -/
structure Calls (P : Change) (d d' : Nat) (call call' : Caller) : Prop where
  same {W : World} (hd : W.depth = d) (hd' : W.depth' = d') {v v' this this' : Value}
    {args args' : List Value}
    (hv : v.Related W.stamps v') (hthis : this.Related W.stamps this')
    (hargs : List.Forall₂ (Value.Related W.stamps) args args') :
    Sim P W (call v this args) (call' v' this' args') Value.Related
  /-- The `call` member of a function passes its first argument on as `this`. -/
  member {W : World} (hd : W.depth = d) (hd' : W.depth' = d') {f f' : Callee} {this this' : Value}
    {args args' : List Value}
    (hf : f.Related W.stamps f') (hthis : this.Related W.stamps this')
    (hargs : List.Forall₂ (Value.Related W.stamps) args args') (s : Nat) (w : Value) :
    Sim P W (call (.function f) this args)
      (call' (.function (.dotCall s f')) w (this' :: args')) Value.Related
  /-- Only functions can be called. -/
  fails {form : CallForm} {v : Value} (h : form.fits v = false) (this : Value) (args : List Value)
    (m : Machine) :
    ∃ e, (call v this args).run m = (.error e, m)
  keeps (v this : Value) (args : List Value) : Keeps (fun m => ¬ m.Fits) (call v this args)

/-- Related bodies end alike in a new frame, whatever calls them. -/
def Change.Runs (P : Change) : Prop :=
  ∀ ⦃ts us⦄, P.bodies ts us → ∀ ⦃d d' call call'⦄, Calls P d d' call call' → ∀ ⦃W : World⦄ ⦃f⦄,
    W.depth = d → W.depth' = d' → f < W.frames → (∀ p ∈ W.pins, p.frame ≠ f) → ∀ env,
    Sim P W (execBody call (f :: env) ts) (execBody call' (f :: env) us) Completion.Related

section
variable {P : Change} {W : World} {σ : Stamps} {skip : List String} {args args' : List Value}
    {v v' this this' : Value}
variable {call call' : Caller} {d d' : Nat} {f f' : Callee}

theorem related_headD (h : List.Forall₂ (Value.Related σ) args args') :
    (args.headD .undefined).Related σ (args'.headD .undefined) := by
  cases h with
  | nil => exact .undefined
  | cons hv _ => exact hv

theorem related_tail (h : List.Forall₂ (Value.Related σ) args args') :
    List.Forall₂ (Value.Related σ) args.tail args'.tail := by
  cases h with
  | nil => exact .nil
  | cons _ h => exact h

theorem Bindings.Related.bindParams {bs bs' : Bindings} (h : bs.Related skip σ bs')
    (hargs : List.Forall₂ (Value.Related σ) args args') (ps : List String) :
    (Eval.bindParams args bs ps).Related skip σ (Eval.bindParams args' bs' ps) := by
  induction ps generalizing args args' bs bs' with
  | nil => exact h
  | cons p ps ih => exact ih (h.put p (related_headD hargs)) (related_tail hargs)

theorem Completion.Related.result {r r' : Completion} (h : r.Related σ r') :
    r.result.Related σ r'.result := by
  cases h with
  | normal => exact .undefined
  | returned hv => exact hv

theorem Sim.native (i : Nat) (hargs : List.Forall₂ (Value.Related W.stamps) args args') :
    Sim P W (invoke call (.native i) this args) (invoke call' (.native i) this' args')
      Value.Related := by
  refine .get fun m m' hm => ?_
  rw [hm.natives]
  obtain ⟨hlines, hresult⟩ := hm.uniform i W.stamps args args' hargs
  dsimp only
  generalize ((m.natives[i]?).getD Native.inert) args = r,
    ((m.natives[i]?).getD Native.inert) args' = r' at hlines hresult
  obtain ⟨lines, r⟩ := r
  obtain ⟨lines', r'⟩ := r'
  obtain rfl : lines' = lines := hlines
  refine Sim.bind (.update fun m m' hm => hm.print lines') (fun σ hσ _ _ _ => ?_) m m' hm
  obtain ⟨v, v', rfl, rfl, hv⟩ | ⟨e, rfl, rfl⟩ := hresult
  · exact .pure (hv.mono hσ)
  · exact .fail e

theorem Sim.invoke (hP : P.Runs) (hc : Calls P d d' call call') (hd : W.depth = d)
    (hd' : W.depth' = d') (hf : f.Related W.stamps f') (hthis : this.Related W.stamps this')
    (hargs : List.Forall₂ (Value.Related W.stamps) args args') :
    Sim P W (Eval.invoke call f this args) (Eval.invoke call' f' this' args') Value.Related := by
  cases hf with
  | closure i =>
    rw [invoke_closure, invoke_closure]
    refine .get fun m m' hm => ?_
    obtain ⟨hparams, henv, hbody⟩ := hm.closure i
    dsimp only
    rw [hparams, henv]
    have hbs : Bindings.Related P.temps W.stamps [("this", this)] [("this", this')] :=
      Bindings.Related.nil.put "this" hthis
    -- nothing is known of the temporaries of a frame that was just made, so the body may
    -- declare them
    refine Sim.innerEnv (hbs.bindParams hargs _) (fun f hf hpins => ?_) m m' hm
    exact .map (hP hbody (W := W.inner f) hc hd hd' (Nat.lt_succ_self f) hpins _) fun _ _ _ _ h =>
      h.result
  | native i => exact .native i hargs
  | dotCall _ hf => exact hc.same hd hd' (.function hf) (related_headD hargs) (related_tail hargs)

end

theorem run_callTo_misfit {form : CallForm} {v : Value} (h : form.fits v = false) (k : Nat)
    (this : Value) (args : List Value) (m : Machine) :
    ∃ e, (callTo k v this args).run m = (.error e, m) := by
  cases k with
  | zero => exact ⟨_, rfl⟩
  | succ k =>
    cases v with
    | function f => cases form <;> cases h
    | _ => exact ⟨_, rfl⟩

/-- The first program nests no more calls than the changed one, so a bound that is met is met there.
-/
theorem calls_callTo {P : Change} (hP : P.Runs) (k' : Nat) :
    ∀ {k d d' : Nat}, d ≤ d' → d' ≤ maxCallDepth → maxCallDepth < k + d → maxCallDepth < k' + d' →
      Calls P d d' (callTo k) (callTo k') := by
  induction k' with
  | zero => omega
  | succ k' ih =>
    intro k d d' hle hd' hk hk'
    -- the first program is at most as deep, so it has fuel left whenever the other one has
    obtain ⟨k, rfl⟩ : ∃ n, k = n + 1 := ⟨k - 1, by omega⟩
    refine ⟨?_, ?_, fun h this args m => run_callTo_misfit h _ this args m,
      keeps_callTo stable_misfit _⟩
    · rintro W rfl rfl v v' this this' args args' hv hthis hargs
      cases hv with
      | function hf =>
        refine .deeper hle fun hlt => ?_
        exact .invoke hP (@ih k (W.depth + 1) (W.depth' + 1) (by omega) (by omega) (by omega)
          (by omega)) rfl rfl hf hthis hargs
      | _ => exact .fail _
    · rintro W rfl rfl f f' this this' args args' hf hthis hargs s w
      -- reading `call` costs the changed program a level, so its fuel is what the induction is on
      refine .deeperRight fun hlt => ?_
      exact (@ih (k + 1) W.depth (W.depth' + 1) (by omega) (by omega) hk (by omega)).same
        (W := W.deeper') rfl rfl
        (.function hf) hthis hargs

end ChainLowering
