import ChainLowering.Proofs.Remains
import ChainLowering.Proofs.RunRules

/-!
# How links and guards are run

A link is run in two steps: the tree that it is put on, and what the link
makes of the reference that this leaves. So a tower is run from below, and
guards are a sequence of tests before the tree that they guard.
-/

namespace ChainLowering

theorem Label.plain_plain (l : Label) : l.plain.plain = l.plain := by
  unfold Label.plain
  cases l.kind <;> rfl

theorem Label.isGet_plain {l : Label} (h : l.kind.isGet = true) : l.plain.kind.isGet = true := by
  change (l.kind.plain?.getD l.kind).isGet = true
  revert h; cases l.kind <;> decide

theorem Label.kind_plain_call {l : Label} (h : l.kind = .call) : l.plain.kind = .call := by
  rw [Label.plain, h]
  rfl

namespace Eval

section
variable (call : Caller) (env : Env)

/-- What a link makes of the reference before it, if the link is followed. -/
def through (l : Label) (k : Value × Value → Eval Reference) (r : Reference) : Eval Reference :=
  match receiver l r with
  | none => return none
  | some p => k p

def keyOf (l : Label) (keys : List Tree) : Eval String :=
  if l.plain.kind = .getProp then pure (l.text.getD "")
    else Value.text <$> value call env (keys.getD 0 .absent)

def access (l : Label) (keys : List Tree) (v : Value) : Eval Reference := do
  let key ← keyOf call env l keys
  return some (← property v key, v)

def apply (args : List Tree) (p : Value × Value) : Eval Reference := do
  let vs ← args.mapM (value call env)
  return plain (← call p.1 p.2 vs)

/-- Goes on with `x` if none of some trees has a nullish value. -/
def guarded {α : Type} (x stop : Eval α) : List Tree → Eval α
  | [] => x
  | r :: rs => do if (← value call env r).isNullish then stop else guarded x stop rs

end

variable {α β : Type} {call : Caller} {env : Env} {l : Label} {o c : Tree} {ts rs ss : List Tree}
    {p : Value × Value}
  {k : Value × Value → Eval Reference} {x stop : Eval α}

/-! ## Links -/

theorem mapM_args (f : Tree → Eval β) (ts : List Tree) :
    (List.range ts.length).mapM (fun i => f (ts.getD i .absent)) = ts.mapM f := by
  induction ts with
  | nil => rfl
  | cons t ts ih =>
    rw [List.length_cons, List.range_succ_eq_map, List.mapM_cons, List.mapM_cons, List.mapM_map]
    exact congrArg (f t >>= ·) (funext fun v => congrArg (· >>= fun vs => pure (v :: vs)) ih)

theorem access_plain (v : Value) : access call env l.plain ts v = access call env l ts v := by
  rw [access, keyOf, Label.plain_plain]
  rfl

theorem reference_access (hl : l.plain.kind.isGet = true) :
    reference call env (.of l (o :: ts)) = reference call env o >>= through l fun p =>
      access call env l ts p.1 := by
  have hkinds : l.kind = .getProp ∨ l.kind = .getElem ∨ l.kind = .chainProp ∨
      l.kind = .chainElem := by
    change (l.kind.plain?.getD l.kind).isGet = true at hl
    revert hl; cases l.kind <;> decide
  rw [Tree.of, reference]
  rcases hkinds with hk | hk | hk | hk <;> rw [hk] <;> refine congrArg (reference call env o >>= ·)
    (funext fun r => ?_) <;>
    rw [through] <;> rcases receiver l r with _ | ⟨v, this⟩ <;>
      first | rfl | simp [access, keyOf, Label.plain, hk, Kind.plain?, value]

theorem reference_call (hl : l.plain.kind = .call) :
    reference call env (.of l (c :: ts)) =
      reference call env c >>= through l fun p => noteCallee l c p.1 >>= fun _ =>
      apply call env ts p := by
  have hkinds : l.kind = .call ∨ l.kind = .chainCall := by
    change l.kind.plain?.getD l.kind = .call at hl
    revert hl; cases l.kind <;> decide
  rw [Tree.of, reference]
  rcases hkinds with hk | hk <;> rw [hk] <;> refine congrArg (reference call env c >>= ·)
    (funext fun r => ?_) <;>
    rw [through] <;> rcases receiver l r with _ | ⟨f, this⟩ <;>
      first | rfl | (dsimp only; unfold apply; rw [← mapM_args]; rfl)

theorem through_none (hl : l.kind.isChain = true) : through l k none = pure none := by
  simp [through, receiver, hl]

theorem through_plain (hl : l.kind.isChain = false) (hm : l.chainStart = false) (r : Reference) :
    through l k r = k (r.getD (.undefined, .undefined)) := by
  simp [through, receiver, Option.filter, hl, hm]

theorem through_unmarked (hm : l.chainStart = false) : through l k (some p) = k p := by
  simp [through, receiver, Option.filter, hm]

theorem through_marked (hl : l.kind.isChain = true) (hm : l.chainStart = true) :
    through l k (some p) = if p.1.isNullish then pure none else k p := by
  cases hp : p.1.isNullish <;> simp [through, receiver, Option.filter, hl, hm, hp]

/-! ## Guards -/

theorem guarded_bind (f : α → Eval β) (x stop : Eval α) (rs : List Tree) :
    guarded call env x stop rs >>= f = guarded call env (x >>= f) (stop >>= f) rs := by
  induction rs with
  | nil => rfl
  | cons r rs ih =>
    rw [guarded, guarded, bind_assoc]
    refine congrArg (value call env r >>= ·) (funext fun v => ?_)
    cases v.isNullish
    · exact ih
    · rfl

theorem guarded_append (x stop : Eval α) (rs ss : List Tree) :
    guarded call env x stop (rs ++ ss) = guarded call env (guarded call env x stop ss) stop rs := by
  induction rs with
  | nil => rfl
  | cons r rs ih => rw [List.cons_append, guarded, ih, guarded]

end Eval

namespace Grown

open Eval

variable {call : Caller} {env : Env} {z : Temp} {e t : Grown} {g : Guard} {d : Lowering}

theorem reference_use (z : Temp) :
    reference call env z.use.toTree = plain <$> variableOf env z.name := rfl

theorem value_use (z : Temp) : value call env z.use.toTree = variableOf env z.name := by
  rw [value, reference_use, ← comp_map]
  exact id_map _

theorem reference_keep (z : Temp) (e : Grown) : reference call env (z.keep e).toTree =
    do let v ← value call env e.toTree; assign env z.name v; return plain v := by
  rw [Temp.keep, toTree_node, Tree.of, reference]
  rfl

theorem value_test (g : Guard) :
    value call env g.test.toTree = (fun v => .bool v.isNullish) <$>
      value call env g.receiver.toTree := by
  have hnull (v : Value) : Eval.compare .eq v .null = v.isNullish := by
    unfold Eval.compare Value.looseEquals
    cases v <;> rfl
  have hrun : value call env g.test.toTree =
    Reference.value <$> (value call env g.receiver.toTree >>= fun v =>
      pure (plain (.bool (Eval.compare .eq v .null)))) := by
    rw [Guard.test, toTree_node, Tree.of, value, reference]
    rfl
  rw [hrun]
  simp [hnull, plain, Reference.value]

theorem reference_guard (g : Guard) (t : Grown) : reference call env (g.frame.fill t).toTree =
    value call env g.receiver.toTree >>= fun v =>
      if v.isNullish then pure (plain .undefined) else plain <$> value call env t.toTree := by
  have hrun : reference call env (g.frame.fill t).toTree = value call env g.test.toTree >>= fun v =>
      if v.toBool then plain <$> value call env g.undefined.toTree
      else plain <$> value call env t.toTree := by
    simp only [map_eq_pure_bind]
    rw [Frame.fill, toTree_node, Tree.of, reference]
    rfl
  rw [hrun, value_test, bind_map_left]
  rfl

theorem plain_value_guard (g : Guard) (t : Grown) :
    reference call env (g.frame.fill t).toTree =
      plain <$> value call env (g.frame.fill t).toTree := by
  rw [value, reference_guard, map_bind, map_bind]
  refine congrArg (value call env g.receiver.toTree >>= ·) (funext fun v => ?_)
  cases v.isNullish <;> simp [Reference.value, plain]

def Lowering.receivers (d : Lowering) : List Tree := d.guards.map fun g => g.receiver.toTree

theorem value_close (d : Lowering) :
    value call env d.close.toTree = guarded call env (value call env d.rest.toTree)
      (pure .undefined) d.receivers := by
  obtain ⟨xs, gs, t⟩ := d
  induction gs with
  | nil => rfl
  | cons g gs ih =>
    rw [Lowering.close_cons, value, reference_guard, map_bind]
    refine congrArg (value call env g.receiver.toTree >>= ·) (funext fun v => ?_)
    cases v.isNullish
    · refine Eq.trans ?_ ih
      simp [plain, Reference.value]
    · rfl

theorem value_close_bind {β : Type} (f : Value → Eval β) : value call env d.close.toTree >>= f =
    guarded call env (reference call env d.rest.toTree >>= fun r =>
      f r.value) (f .undefined) d.receivers := by
  rw [value_close, guarded_bind, value, bind_map_left, pure_bind]

theorem label_close (h : d.guards ≠ []) : d.close.label.kind = .hook := by
  obtain ⟨xs, gs, t⟩ := d
  obtain ⟨g, gs, rfl⟩ := List.exists_cons_of_ne_nil h
  rw [Lowering.close_cons]
  rfl

theorem reference_close (h : d.guards ≠ []) :
    reference call env d.close.toTree = plain <$> value call env d.close.toTree := by
  obtain ⟨xs, gs, t⟩ := d
  obtain ⟨g, gs, rfl⟩ := List.exists_cons_of_ne_nil h
  rw [Lowering.close_cons]
  exact plain_value_guard ..

/-! ## Accesses that keep their object -/

def Temp.kept (env : Env) : Option Temp → Value → Eval Unit
  | some z, v => assign env z.name v
  | none, _ => pure ()

variable {l : Label} {i j : NodeId} {m : Label} {o x : Grown} {keys args : List Grown}

theorem reference_plainAccess (hl : l.kind.isGet = true) (hm : l.chainStart = false) (i : NodeId)
    (o : Grown) (keys : List Grown) :
    reference call env (node i l (o :: keys)).toTree = value call env o.toTree >>=
      access call env l (keys.map toTree) := by
  have hchain : l.kind.isChain = false := not_isChain_of_isGet hl
  rw [toTree_node, List.map_cons, reference_access (Label.isGet_plain hl), value, bind_map_left]
  refine congrArg (reference call env o.toTree >>= ·) (funext fun r => ?_)
  rw [through_plain hchain hm]
  cases r <;> rfl

theorem reference_keeping (hl : l.kind.isGet = true) (hm : l.chainStart = false) (u : Option Temp)
    (i : NodeId) (o : Grown) (keys : List Grown) :
    reference call env (keeping u (node i l (o :: keys))).toTree =
      value call env o.toTree >>= fun v => Temp.kept env u v >>= fun _ =>
      access call env l (keys.map toTree) v := by
  cases u with
  | none => exact reference_plainAccess hl hm i o keys
  | some z =>
    rw [keeping_some, reference_plainAccess hl hm, value, reference_keep, map_bind, bind_assoc]
    refine congrArg (value call env o.toTree >>= ·) (funext fun v => ?_)
    rw [map_bind, bind_assoc]
    rfl

theorem reference_member (src : Label) (x : Grown) (args : List Grown) (hl : l.kind = .call)
    (hm : l.chainStart = false) :
    reference call env (node i l (node j (.made .getProp (some "call") src) [x] :: args)).toTree =
      value call env x.toTree >>= fun f => property f "call" >>= fun w =>
      apply call env (args.map toTree) (w, f) := by
  rw [toTree_node, List.map_cons, reference_call (Label.kind_plain_call hl),
    reference_plainAccess rfl rfl, bind_assoc]
  refine congrArg (value call env x.toTree >>= ·) (funext fun f => ?_)
  have hmember : access call env (.made .getProp (some "call") src) [] f = property f "call" >>=
      fun w => pure (some (w, f)) := rfl
  have hnote : noteCallee l (node j (.made .getProp (some "call") src) [x]).toTree = fun _ =>
      pure () := by
    funext w
    simp [noteCallee, callForm?, hl, Kind.isChain, toTree_node, Tree.of, Tree.kind?, Label.made]
  rw [List.map_nil, hmember, bind_assoc]
  refine congrArg (property f "call" >>= ·) (funext fun w => ?_)
  rw [pure_bind, through_plain (by rw [hl]; rfl) hm, hnote]
  rfl

theorem guarded_keep {α : Type} (z : Temp) (e : Grown) (x stop : Eval α) :
    guarded call env x stop [(z.keep e).toTree] = reference call env e.toTree >>= fun r =>
      assign env z.name r.value >>= fun _ => if r.value.isNullish then stop else x := by
  rw [guarded, value, reference_keep, map_bind, bind_assoc, value, bind_map_left]
  refine congrArg (reference call env e.toTree >>= ·) (funext fun r => ?_)
  rw [map_bind, bind_assoc]
  rfl

end Grown

end ChainLowering
