import ChainLowering.Proofs.EvalRules

/-!
# Calls through the member `call`

A call that needs its object is lowered to a call of the member `call` of its
callee, which is read before the arguments are run. A function is called all
the same, one call deeper. A nullish callee fails before the arguments and not
after them, and an object can have a function as its member.
-/

namespace ChainLowering

namespace Eval

section
variable (call : Caller) (env : Env) (ts : List Tree)

def failAfter (e : RuntimeError) : Eval Reference := do
  let _ ← ts.mapM (value call env)
  fail e

/-- A call of the member `call` of a value. -/
def applyMember (v : Value) : Eval Reference := do
  let w ← property v "call"
  apply call env ts (w, v)

end

variable {call : Caller} {env : Env} {l : Label} {c : Tree} {ts us : List Tree} {v w this : Value}
    {vs : List Value}
  {r : Reference} {f : Callee} {k s : Nat} {m n : Machine}

/-! ## What is no function -/

theorem callTo_misfit (h : ∀ f, v ≠ .function f) (this : Value) (vs : List Value) :
    callTo (k + 1) v this vs = fail (.notCallable v) := by
  cases v with
  | function f => exact absurd rfl (h f)
  | _ => rfl

theorem apply_misfit (h : ∀ f, v ≠ .function f) :
    apply (callTo (k + 1)) env ts (v, this) =
      failAfter (callTo (k + 1)) env ts (.notCallable v) := by
  unfold apply failAfter
  simp only [callTo_misfit h]
  rfl

theorem applyMember_nullish (h : v.isNullish = true) :
    applyMember call env ts v = fail (.readOfNullish v "call") := by
  unfold applyMember
  cases v <;> first | rfl | cases h

theorem run_applyMember (h : (property v "call").run m = (.ok w, n)) :
    (applyMember call env ts v).run m = (apply call env ts (w, v)).run n := run_bind_ok h

theorem run_property_misfit (hn : v.isNullish = false) (hv : ∀ f, v ≠ .function f)
    (ho : ∀ i f, v = .object i → (m.objects.getD i []).lookup "call" ≠ some (.function f)) :
    ∃ w, (property v "call").run m = (.ok w, m) ∧ ∀ f, w ≠ .function f := by
  cases v with
  | undefined | null => cases hn
  | bool | number | string => exact ⟨.undefined, rfl, fun f => Value.noConfusion⟩
  | function f => exact absurd rfl (hv f)
  | object i =>
    refine ⟨((m.objects.getD i []).lookup "call").getD .undefined, rfl, fun f e => ?_⟩
    have hmember := ho i f rfl
    cases hw : (m.objects.getD i []).lookup "call" with
    | none => rw [hw] at e; cases e
    | some w =>
      rw [hw] at e hmember
      exact hmember (congrArg some e)

/-- Where neither a value nor its member is a function, both calls fail after their arguments. -/
theorem misfit_alike (hn : v.isNullish = false) (hv : ∀ f, v ≠ .function f)
    (ho : ∀ i f, v = .object i → (m.objects.getD i []).lookup "call" ≠ some (.function f)) : ∃ w,
    (apply (callTo (k + 1)) env ts (v, this)).run m =
    (failAfter (callTo (k + 1)) env ts (.notCallable v)).run m ∧
      (applyMember (callTo (k + 1)) env us v).run m =
      (failAfter (callTo (k + 1)) env us (.notCallable w)).run m := by
  obtain ⟨w, hread, hw⟩ := run_property_misfit hn hv ho
  refine ⟨w, ?_, ?_⟩
  · rw [apply_misfit hv]
  · rw [run_applyMember hread, apply_misfit hw]

/-- An object whose member is a function is not called, but its member is. -/
theorem run_applyMember_object {i : Nat} (h : (m.objects.getD i []).lookup "call" = some w) :
    (applyMember call env ts (.object i)).run m = (apply call env ts (w, .object i)).run m := by
  refine run_applyMember ?_
  have hread : (property (.object i) "call").run m =
      (.ok (((m.objects.getD i []).lookup "call").getD .undefined), m) := rfl
  rw [hread, h]
  rfl

/-! ## Functions -/

theorem run_applyMember_function : (applyMember call env ts (.function f)).run m =
    (apply call env ts (.function (.dotCall m.stamps f), .function f)).run
      { m with stamps := m.stamps + 1 } := rfl

theorem run_callTo (h : m.depth < maxCallDepth) : (callTo (k + 1) (.function f) this vs).run m =
    (((invoke (callTo k) f this vs).run m.enter).1,
      ((invoke (callTo k) f this vs).run m.enter).2.leave) := run_deeper_ok h

theorem invoke_dotCall (call : Caller) (s : Nat) (f : Callee) (w this : Value) (vs : List Value) :
    invoke call (.dotCall s f) w (this :: vs) = call (.function f) this vs := rfl

theorem run_dotCall (h : m.depth + 1 < maxCallDepth) :
    (callTo (k + 2) (.function (.dotCall s f)) w (this :: vs)).run m =
      (((invoke (callTo k) f this vs).run m.enter.enter).1,
      ((invoke (callTo k) f this vs).run m.enter.enter).2.leave.leave) := by
  have henter : m.enter.depth < maxCallDepth := h
  rw [run_callTo (by omega), invoke_dotCall, run_callTo henter]

theorem run_dotCall_last (h : m.depth + 1 = maxCallDepth) :
    (callTo (k + 2) (.function (.dotCall s f)) w (this :: vs)).run m = (.error (.error .callDepth),
      m.enter.leave) := by
  have hfull : maxCallDepth ≤ m.enter.depth := Nat.le_of_eq h.symm
  have hinner : (callTo (k + 1) (.function f) this vs).run m.enter = (.error (.error .callDepth),
      m.enter) := run_deeper_full hfull
  rw [run_callTo (by omega), invoke_dotCall, hinner]

/-! ## Nullish callees -/

/-- A plain call of a nullish value runs its arguments before it fails. -/
theorem run_call_nullish (hl : l.kind = .call) (hm : l.chainStart = false)
    (hc : (reference (callTo (k + 1)) env c).run m = (.ok r, n)) (hr : r.value.isNullish = true) :
    (reference (callTo (k + 1)) env (.of l (c :: ts))).run m =
      (noteCallee l c r.value >>= fun _ =>
        failAfter (callTo (k + 1)) env ts (.notCallable r.value)).run n := by
  have hvalue : (r.getD (.undefined, .undefined)).1 = r.value := by cases r <;> rfl
  have hmisfit (f : Callee) : r.value ≠ .function f := by
    intro e
    rw [e] at hr
    cases hr
  rw [reference_call (Label.kind_plain_call hl), run_bind_ok hc,
    through_plain (by rw [hl]; rfl) hm, hvalue]
  refine congrArg (fun x => (noteCallee l c r.value >>= fun _ => x).run n) ?_
  rw [← apply_misfit hmisfit, ← hvalue]

end Eval

namespace Grown

open Eval

variable {call : Caller} {env : Env} {l : Label} {i j : NodeId} {x : Grown} {args : List Grown}
    {v : Value} {d : Lowering}
  {m n : Machine}

/-- A call of the member of a nullish value fails before its arguments. -/
theorem run_member_nullish (src : Label) (hl : l.kind = .call) (hm : l.chainStart = false)
    (hx : (value call env x.toTree).run m = (.ok v, n)) (hv : v.isNullish = true) :
    (reference call env
      (node i l (node j (.made .getProp (some "call") src) [x] :: args)).toTree).run m =
        (.error (.error (.readOfNullish v "call")), n) := by
  rw [reference_member src x args hl hm, run_bind_ok hx]
  change (applyMember call env (args.map toTree) v).run n = _
  rw [applyMember_nullish hv]
  rfl

/-- So does a chain that is called and ends early. -/
theorem reference_called (u : Temp) (dot : NodeId) (src : Label) (i : NodeId) (args : List Grown)
    (hl : l.kind = .call) (hm : l.chainStart = false) (hd : d.rest.children ≠ []) :
    reference call env (d.called u dot src i l args).toTree =
      guarded call env (reference call env (keeping (some u) d.rest).toTree >>= fun r =>
        applyMember call env (u.use.toTree :: args.map toTree) r.value)
          (fail (.readOfNullish .undefined "call")) d.receivers := by
  rw [Lowering.called_eq _ _ _ _ _ _ hd, reference_member src _ _ hl hm, value_close_bind]
  rfl

end Grown

end ChainLowering
