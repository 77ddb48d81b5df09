import ChainLowering.Proofs.Values

/-!
# What a run keeps

A class of computations that holds the accesses to the machine, and all that
is put together from computations in it, holds whole runs. So an invariant of
machines that every access keeps is kept by runs, whether they end with a
value or with an error.
-/

namespace ChainLowering

/-- What a call returns whose body ends so. -/
def Completion.result : Completion → Value
  | normal => .undefined
  | returned v => v

def Native.answer (n : Native) (args : List Value) : Eval Value := do
  modify (·.print (n args).1)
  match (n args).2 with
  | .ok v => return v
  | .error e => Eval.fail e

/-- The machine without its findings, which no run looks at. -/
def Machine.bare (m : Machine) : Machine := { m with findings := #[] }

@[simp] theorem Machine.bare_bare (m : Machine) : m.bare.bare = m.bare := rfl

/-- Stands for nothing that was made. -/
def Value.IsPlain : Value → Prop
  | object _ | function _ => False
  | _ => True

namespace Eval

section
variable {α β : Type} {x : Eval α} {f : α → Eval β} {m n : Machine}

theorem run_bind_ok {v : α} (h : x.run m = (.ok v, n)) : (x >>= f).run m = (f v).run n := by
  rw [ExceptT.run_bind]
  change StateT.bind x.run _ m = _
  simp only [StateT.bind, h]
  rfl

theorem run_bind_error {e : Halt RuntimeError} (h : x.run m = (.error e, n)) :
    (x >>= f).run m = (.error e, n) := by
  rw [ExceptT.run_bind]
  change StateT.bind x.run _ m = _
  simp only [StateT.bind, h]
  rfl

end

theorem invoke_closure (call : Caller) (i : Nat) (this : Value) (args : List Value) :
    invoke call (.closure i) this args = (do
    let c := (← get).closures.getD i {}
    let env ← innerEnv c.env (bindParams args [("this", this)] c.params)
    Completion.result <$> execBody call env c.body) := by
  rw [invoke]
  refine congrArg (MonadState.get >>= ·)
    (funext fun m => congrArg (innerEnv _ _ >>= ·) (funext fun env => ?_))
  rw [map_eq_pure_bind]
  exact congrArg (execBody call env _ >>= ·) (funext fun r => by cases r <;> rfl)

/-- Goes on with what a name stands for. A name that stands for nothing is an error. -/
def orUnbound {α β : Type} (name : String) (f : α → Eval β) : Option α → Eval β
  | some a => f a
  | none => fail (.unbound name)

theorem variableOf_eq (env : Env) (name : String) : variableOf env name = (do
    let m ← get
    orUnbound name pure (m.lookup env name)) :=
  congrArg (MonadState.get >>= ·) (funext fun m => by cases m.lookup env name <;> rfl)

theorem assign_eq (env : Env) (name : String) (v : Value) : assign env name v = (do
    let m ← get
    orUnbound name (fun f => modify (·.putIn f name v)) (m.frameOf? env name)) :=
  congrArg (MonadState.get >>= ·) (funext fun m => by cases m.frameOf? env name <;> rfl)

/-- What a run may come across. -/
structure Realm where
  /-- A tree may be run in an environment. -/
  tree : Env → Tree → Prop
  /-- A name may be looked up there. -/
  name : Env → String → Prop
  frame : FrameId → Prop
  value : Value → Prop
  child {env : Env} {l : Label} {n : Nat} {c : Nat → Tree} : tree env (.node l n c) →
    ∀ i, tree env (c i)
  text {env : Env} {l : Label} {n : Nat} {c : Nat → Tree} : tree env (.node l n c) →
    l.kind = .name → name env (l.text.getD "")
  this (env : Env) : name env "this"
  plain {v : Value} : v.IsPlain → value v
  target {k : Nat} {f : Callee} : value (.function (.dotCall k f)) → value (.function f)

namespace Realm

variable (R : Realm)

def env (e : Env) : Prop := ∀ f ∈ e, R.frame f

def bindings (bs : Bindings) : Prop := ∀ s v, bs.lookup s = some v → R.value v

/-- In the second environment may be run what may be run in the first one. -/
def inner (e e' : Env) : Prop := R.env e' ∧ ∀ t, R.tree e t → R.tree e' t

def closure (c : Closure) : Prop := R.env c.env ∧ ∀ t ∈ c.body, R.tree c.env t

/-- Answers with what may come across when it is given such. -/
def native (n : Native) : Prop :=
  ∀ args, (∀ a ∈ args, R.value a) → ∀ v, (n args).2 = .ok v → R.value v

def reference (r : Reference) : Prop := ∀ p ∈ r, R.value p.1 ∧ R.value p.2

def place (e : Env) : Place → Prop
  | .variableNamed s => R.name e s
  | .property o _ => R.value o

def caller (C : {α : Type} → (α → Prop) → Eval α → Prop) (call : Caller) : Prop :=
  ∀ v this args, R.value v → R.value this → (∀ a ∈ args, R.value a) → C R.value (call v this args)

variable {R}

theorem reference_plain {v : Value} (h : R.value v) : R.reference (Eval.plain v) :=
  fun _ hp => Option.some.inj hp ▸ ⟨h, R.plain trivial⟩

theorem reference_none : R.reference none := fun _ h => nomatch h

theorem reference.value {r : Reference} (h : R.reference r) : R.value r.value := by
  cases r with
  | none => exact R.plain trivial
  | some p => exact (h p rfl).1

theorem reference.receiver {r : Reference} (h : R.reference r) (l : Label) :
    R.reference (receiver l r) := by
  intro p hp
  obtain ⟨hp, -⟩ := Option.filter_eq_some_iff.mp hp
  cases r with
  | some q =>
    split_ifs at hp <;> exact Option.some.inj hp ▸ h q rfl
  | none =>
    split_ifs at hp
    cases Option.some.inj hp
    exact ⟨R.plain trivial, R.plain trivial⟩

theorem bindings_nil : R.bindings [] := fun _ _ h => nomatch h

theorem bindings.put {bs : Bindings} {v : Value} (h : R.bindings bs) (hv : R.value v) (s : String) :
    R.bindings (bs.put s v) := by
  intro k w hw
  rw [Bindings.lookup_put] at hw
  split_ifs at hw
  · exact Option.some.inj hw ▸ hv
  · exact h k w hw

theorem bindings.getD {bs : Bindings} (h : R.bindings bs) (s : String) :
    R.value ((bs.lookup s).getD .undefined) := by
  cases hs : bs.lookup s with
  | none => exact R.plain trivial
  | some v => exact h s v hs

theorem bindings.entries {es : List (String × Value)} (hes : ∀ e ∈ es, R.value e.2) {bs : Bindings}
    (h : R.bindings bs) :
    R.bindings (es.foldl (fun bs e => bs.put e.1 e.2) bs) := by
  induction es generalizing bs with
  | nil => exact h
  | cons e es ih =>
    obtain ⟨he, hes⟩ := List.forall_mem_cons.mp hes
    exact ih hes (h.put he e.1)

theorem bindings.params {args : List Value} (hargs : ∀ a ∈ args, R.value a) {bs : Bindings}
    (h : R.bindings bs) (ps : List String) : R.bindings (bindParams args bs ps) := by
  induction ps generalizing args bs with
  | nil => exact h
  | cons p ps ih =>
    refine ih (fun a ha => hargs a (List.mem_of_mem_tail ha)) (h.put ?_ p)
    cases args with
    | nil => exact R.plain trivial
    | cons a args => exact hargs a List.mem_cons_self

end Realm

/-- A judgment on computations, with what holds of their results. It holds of the steps that a run
in a realm is put together from, and of whatever is put together from such. -/
structure Steps (R : Realm) (C : {α : Type} → (α → Prop) → Eval α → Prop) : Prop where
  pure : ∀ {α : Type} {Q : α → Prop} {v : α}, Q v → C Q (pure v)
  fail : ∀ {α : Type} {Q : α → Prop} (e : RuntimeError), C Q (fail e)
  bind : ∀ {α β : Type} {P : α → Prop} {Q : β → Prop} {x : Eval α} {f : α → Eval β},
    C P x → (∀ v, P v → C Q (f v)) → C Q (x >>= f)
  lookup : ∀ {α : Type} {Q : α → Prop} {f : Option Value → Eval α} {env : Env} {s : String},
    R.env env → R.name env s →
    (∀ o, (∀ v ∈ o, R.value v) → C Q (f o)) → C Q (do f ((← get).lookup env s))
  owner : ∀ {α : Type} {Q : α → Prop} {f : Option FrameId → Eval α} {env : Env} {s : String},
    R.env env → R.name env s →
    (∀ o, (∀ i ∈ o, R.frame i) → C Q (f o)) → C Q (do f ((← get).frameOf? env s))
  object : ∀ {α : Type} {Q : α → Prop} {f : Bindings → Eval α} {i : Nat}, R.value (.object i) →
    (∀ bs, R.bindings bs → C Q (f bs)) → C Q (do f ((← get).objects.getD i []))
  native : ∀ {α : Type} {Q : α → Prop} {f : Native → Eval α} {i : Nat},
    R.value (.function (.native i)) →
    (∀ n, R.native n → C Q (f n)) → C Q (do f (((← get).natives[i]?).getD Native.inert))
  body : ∀ {α : Type} {Q : α → Prop} {f : Closure → Eval α} {i : Nat},
    R.value (.function (.closure i)) →
    (∀ c, R.closure c → C Q (f c)) → C Q (do f ((← get).closures.getD i {}))
  declare : ∀ {env : Env} (s : String) {v : Value}, R.env env → R.value v →
    C (fun _ => True) (declare env s v)
  put : ∀ {f : FrameId} (s : String) {v : Value}, R.frame f → R.value v →
    C (fun _ => True) (modify (·.putIn f s v))
  newFrame : ∀ {bs : Bindings}, R.bindings bs →
    C (fun f => R.frame f ∧ ∀ env t, R.tree env t → R.tree (f :: env) t) (make (·.newFrame bs))
  newObject : ∀ {bs : Bindings}, R.bindings bs → C R.value (make (·.newObject bs))
  newDotCall : ∀ {f : Callee}, R.value (.function f) → C R.value (make (·.newDotCall f))
  setObject : ∀ {i : Nat} (s : String) {v : Value}, R.value (.object i) → R.value v →
    C (fun _ => True) (modify fun m => { m with objects := m.objects.modify i (Bindings.put s v) })
  print : ∀ lines, C (fun _ => True) (modify (·.print lines))
  newClosure : ∀ {c : Closure}, R.closure c → C R.value (make (·.newClosure c))
  note : ∀ form v, C (fun _ => True) (modify (·.note form v))

namespace Steps

section
variable {α β : Type} {R : Realm} {C : {α : Type} → (α → Prop) → Eval α → Prop} {P : α → Prop}
    {Q : β → Prop} {x y : Eval α}
variable {env : Env} (hC : Steps R C)
include hC

/-! ## Putting together -/

theorem map {g : α → β} (hx : C P x) (hg : ∀ v, P v → Q (g v)) : C Q (g <$> x) := by
  rw [map_eq_pure_bind]
  exact hC.bind hx fun v hv => hC.pure (hg v hv)

omit hC in
theorem ite {c : Prop} [Decidable c] (hx : C P x) (hy : C P y) : C P (if c then x else y) := by
  by_cases h : c
  · rw [if_pos h]; exact hx
  · rw [if_neg h]; exact hy

theorem mapM {γ : Type} {g : γ → Eval α} (l : List γ) (hg : ∀ a ∈ l, C P (g a)) :
    C (fun vs => ∀ v ∈ vs, P v) (l.mapM g) := by
  induction l with
  | nil => exact hC.pure fun _ h => nomatch h
  | cons a l ih =>
    rw [List.mapM_cons]
    refine hC.bind (hg a List.mem_cons_self) fun v hv => ?_
    refine hC.bind (ih fun b hb => hg b (List.mem_cons_of_mem _ hb)) fun vs hvs => ?_
    exact hC.pure (List.forall_mem_cons.mpr ⟨hv, hvs⟩)

theorem forM {γ : Type} {g : γ → Eval Unit} (l : List γ) (hg : ∀ a ∈ l, C (fun _ => True) (g a)) :
    C (fun _ => True) (l.forM g) := by
  induction l with
  | nil => exact hC.pure trivial
  | cons a l ih =>
    refine hC.bind (hg a List.mem_cons_self) fun _ _ => ?_
    exact ih fun b hb => hg b (List.mem_cons_of_mem _ hb)

theorem inOrder {xs : List (Eval Completion)} (h : ∀ x ∈ xs, C (fun r => R.value r.result) x) :
    C (fun r => R.value r.result) (inOrder xs) := by
  induction xs with
  | nil => exact hC.pure (R.plain trivial)
  | cons x xs ih =>
    refine hC.bind (h x List.mem_cons_self) fun r hr => ?_
    cases r with
    | normal => exact ih fun y hy => h y (List.mem_cons_of_mem _ hy)
    | returned v => exact hC.pure hr

/-! ## Access to the machine -/

theorem orUnbound {name : String} {f : α → Eval β} {o : Option α} (hf : ∀ a ∈ o, C Q (f a)) :
    C Q (orUnbound name f o) := by
  cases o with
  | none => exact hC.fail _
  | some a => exact hf a rfl

theorem variableOf {name : String} (he : R.env env) (hn : R.name env name) :
    C R.value (variableOf env name) := by
  rw [variableOf_eq]
  exact hC.lookup he hn fun o ho => hC.orUnbound fun v hv => hC.pure (ho v hv)

theorem assign {name : String} {v : Value} (he : R.env env) (hn : R.name env name)
    (hv : R.value v) :
    C (fun _ => True) (assign env name v) := by
  rw [assign_eq]
  exact hC.owner he hn fun o ho => hC.orUnbound fun f hf => hC.put name (ho f hf) hv

theorem innerEnv {bs : Bindings} (he : R.env env) (hbs : R.bindings bs) :
    C (R.inner env) (innerEnv env bs) := by
  refine hC.bind (hC.newFrame hbs) fun f hf => hC.pure ⟨?_, hf.2 env⟩
  exact List.forall_mem_cons.mpr ⟨hf.1, he⟩

theorem property {v : Value} (hv : R.value v) (key : String) : C R.value (property v key) := by
  cases v with
  | object i => exact hC.object hv fun bs hbs => hC.pure (hbs.getD key)
  | function f => exact ite (hC.newDotCall hv) (hC.pure (R.plain trivial))
  | undefined | null => exact hC.fail _
  | bool | number | string => exact hC.pure (R.plain trivial)

theorem setProperty {v new : Value} (hv : R.value v) (key : String) (hnew : R.value new) :
    C (fun _ => True) (setProperty v key new) := by
  cases v with
  | object i => exact hC.setObject key hv hnew
  | undefined | null => exact hC.fail _
  | function | bool | number | string => exact hC.pure trivial

theorem store {v : Value} {p : Place} (he : R.env env) (hp : R.place env p) (hv : R.value v) :
    C (fun _ => True) (store env v p) := by
  cases p with
  | variableNamed name => exact hC.assign he hp hv
  | property o key => exact hC.setProperty hp key hv

theorem noteCallee (l : Label) (callee : Tree) (v : Value) :
    C (fun _ => True) (noteCallee l callee v) := by
  unfold Eval.noteCallee
  cases callForm? l callee with
  | none => exact hC.pure trivial
  | some form => exact hC.note form v

omit hC in
theorem children {t : Tree} (h : R.tree env t) : ∀ u ∈ t.children, R.tree env u := by
  cases t with
  | absent | dangling => exact fun _ hu => nomatch hu
  | node l n c =>
    intro u hu
    obtain ⟨i, -, rfl⟩ := List.mem_map.mp hu
    exact R.child h i

theorem closure {l : Label} {n : Nat} {c : Nat → Tree} (he : R.env env)
    (h : R.tree env (.node l n c)) :
    C R.value (Eval.closure env c) :=
  hC.newClosure ⟨he, children (R.child h 2)⟩

end

/-! ## Trees -/

section
variable {R : Realm} {C : {α : Type} → (α → Prop) → Eval α → Prop} {call : Caller}
variable (hC : Steps R C) (hcall : R.caller C call)
include hC hcall

theorem reference (t : Tree) :
    ∀ env, R.env env → R.tree env t → C R.reference (reference call env t) ∧
    C (R.place env) (place call env t) ∧ C (fun e => R.value e.2) (entry call env t) := by
  induction t with
  | absent | dangling => exact fun _ _ _ => ⟨hC.fail _, hC.fail _, hC.fail _⟩
  | node l n c ih =>
    intro env he ht
    have hr : ∀ i, C R.reference (Eval.reference call env (c i)) :=
      fun i => (ih i env he (R.child ht i)).1
    have hv : ∀ i, C R.value (Reference.value <$> Eval.reference call env (c i)) :=
      fun i => hC.map (hr i) fun _ h => h.value
    -- one operand, or two
    have h₁ {β : Type} {Q : β → Prop} (f : Value → Eval β)
      (hf : ∀ v, R.value v → C Q (f v)) (i : Nat) :
        C Q ((Reference.value <$> Eval.reference call env (c i)) >>= f) := hC.bind (hv i) hf
    have hlast (i : Nat) : C R.reference ((Reference.value <$> Eval.reference call env (c i)) >>=
        fun v => Pure.pure (plain v)) :=
      h₁ _ (fun v hv => hC.pure (R.reference_plain hv)) i
    have hatom {v : Value} (hv : v.IsPlain) : C R.reference (Pure.pure (plain v)) :=
      hC.pure (R.reference_plain (R.plain hv))
    refine ⟨?_, ?_, hC.bind (hr 0) fun _ h => hC.pure h.value⟩
    · unfold Eval.reference
      dsimp only
      split
      · rename_i hk
        exact hC.bind (hC.variableOf he (R.text ht hk)) fun v hv => hC.pure (R.reference_plain hv)
      iterate 5 exact hatom trivial
      · refine hC.lookup (f := fun o => Pure.pure (plain (o.getD .undefined))) he (R.this env)
          fun o ho => ?_
        cases o with
        | none => exact hatom trivial
        | some v => exact hC.pure (R.reference_plain (ho v rfl))
      iterate 2
        refine h₁ _ (fun _ _ => ?_) 0
        exact hatom trivial
      iterate 4
        refine h₁ _ (fun _ _ => h₁ _ (fun _ _ => ?_) 1) 0
        exact hatom trivial
      · exact h₁ _ (fun v hv => ite (hlast 1) (hC.pure (R.reference_plain hv))) 0
      · exact h₁ _ (fun v hv => ite (hC.pure (R.reference_plain hv)) (hlast 1)) 0
      · exact h₁ _ (fun _ _ => hlast 1) 0
      · exact h₁ _ (fun _ _ => ite (hlast 1) (hlast 2)) 0
      · refine hC.bind (ih 0 env he (R.child ht 0)).2.1 fun p hp => h₁ _ (fun v hv => ?_) 1
        exact hC.bind (hC.store he hp hv) fun _ _ => hC.pure (R.reference_plain hv)
      · refine hC.bind (hC.mapM _ fun i _ => (ih i env he (R.child ht i)).2.2) fun es hes => ?_
        refine hC.bind (hC.newObject (Realm.bindings_nil.entries hes)) fun v hv =>
          hC.pure (R.reference_plain hv)
      · exact hC.bind (hC.closure he ht) fun v hv => hC.pure (R.reference_plain hv)
      iterate 2
        refine hC.bind (hr 0) fun r h => ?_
        split
        · exact hC.pure Realm.reference_none
        · rename_i o this hrec
          have ho := (h.receiver l _ hrec).1
          exact hC.bind (hC.property ho _) fun v hv => hC.pure fun _ hp =>
            Option.some.inj hp ▸ ⟨hv, ho⟩
      iterate 2
        refine hC.bind (hr 0) fun r h => ?_
        split
        · exact hC.pure Realm.reference_none
        · rename_i o this hrec
          have ho := (h.receiver l _ hrec).1
          refine h₁ _ (fun _ _ => ?_) 1
          exact hC.bind (hC.property ho _) fun v hv => hC.pure fun _ hp =>
            Option.some.inj hp ▸ ⟨hv, ho⟩
      iterate 2
        refine hC.bind (hr 0) fun r h => ?_
        split
        · exact hC.pure Realm.reference_none
        · rename_i f this hrec
          obtain ⟨hf, hthis⟩ := h.receiver l _ hrec
          refine hC.bind (hC.noteCallee ..) fun _ _ =>
            hC.bind (hC.mapM _ fun i _ => hv (i + 1)) fun args hargs => ?_
          exact hC.bind (hcall f this args hf hthis hargs) fun v hv =>
            hC.pure (R.reference_plain hv)
      · exact hC.fail _
    · unfold place
      dsimp only
      split
      · rename_i hk
        exact hC.pure (R.text ht hk)
      · refine h₁ _ (fun o ho => ?_) 0
        exact hC.pure ho
      · refine h₁ _ (fun o ho => h₁ _ (fun _ _ => ?_) 1) 0
        exact hC.pure ho
      · exact hC.fail _

variable {env : Env}

theorem value {t : Tree} (he : R.env env) (ht : R.tree env t) : C R.value (value call env t) :=
  hC.map (hC.reference hcall t env he ht).1 fun _ h => h.value

omit hcall in
theorem hoist {ts : List Tree} (he : R.env env) (hts : ∀ t ∈ ts, R.tree env t) :
    C (fun _ => True) (hoist env ts) := by
  refine hC.forM ts fun t ht => ?_
  cases t with
  | absent | dangling => exact hC.pure trivial
  | node l n c =>
      exact ite (hC.bind (hC.closure he (hts _ ht)) fun v hv => hC.declare _ he hv)
        (hC.pure trivial)

theorem declareOne {t : Tree} (he : R.env env) (ht : R.tree env t) :
    C (fun _ => True) (declareOne call env t) := by
  cases t with
  | absent | dangling => exact hC.declare _ he (R.plain trivial)
  | node l n c =>
    unfold Eval.declareOne
    dsimp only
    refine ite (hC.bind (hC.pure (R.plain trivial)) fun v hv => hC.declare _ he hv) ?_
    exact hC.bind (hC.value hcall he (R.child ht 0)) fun v hv => hC.declare _ he hv

theorem exec (t : Tree) :
    ∀ env, R.env env → R.tree env t → C (fun r => R.value r.result) (exec call env t) := by
  induction t with
  | absent | dangling => exact fun _ _ _ => hC.fail _
  | node l n c ih =>
    intro env he ht
    have hc : ∀ i, R.tree env (c i) := R.child ht
    have hv : ∀ i, C R.value (Eval.value call env (c i)) := fun i => hC.value hcall he (hc i)
    have hnormal : C (fun r => R.value r.result) (Pure.pure Completion.normal) :=
      hC.pure (R.plain trivial)
    unfold Eval.exec
    split
    · refine hC.bind (hC.innerEnv he Realm.bindings_nil) fun env' h => ?_
      refine hC.bind (hC.hoist h.1 fun t hu => h.2 t (children ht t hu)) fun _ _ => ?_
      refine hC.inOrder fun x hx => ?_
      obtain ⟨i, -, rfl⟩ := List.mem_map.mp hx
      exact ih i env' h.1 (h.2 _ (hc i))
    iterate 2 exact hnormal
    · exact hC.bind (hv 0) fun _ _ => hnormal
    iterate 3
      refine hC.bind (hC.forM _ fun t h => hC.declareOne hcall he ?_) fun _ _ => hnormal
      exact children ht t h
    · refine ite (hC.pure (R.plain trivial)) (hC.bind (hv 0) fun v hv => ?_)
      exact hC.pure (v := Completion.returned v) hv
    · exact hC.bind (hv 0) fun _ _ => ite (ih 1 env he (hc 1)) (ite hnormal (ih 2 env he (hc 2)))
    · exact hC.fail _

theorem execBody {ts : List Tree} (he : R.env env) (hts : ∀ t ∈ ts, R.tree env t) :
    C (fun r => R.value r.result) (execBody call env ts) := by
  refine hC.bind (hC.hoist he hts) fun _ _ => hC.inOrder fun x hx => ?_
  obtain ⟨t, ht, rfl⟩ := List.mem_map.mp hx
  exact hC.exec hcall t env he (hts t ht)

theorem invoke {f : Callee} {this : Value} {args : List Value} (hf : R.value (.function f))
    (hthis : R.value this) (hargs : ∀ a ∈ args, R.value a) :
    C R.value (invoke call f this args) := by
  cases f with
  | closure i =>
    rw [invoke_closure]
    have hbody (c : Closure) (hc : R.closure c) : C R.value (do
        let env ← Eval.innerEnv c.env (bindParams args [("this", this)] c.params)
        Completion.result <$> Eval.execBody call env c.body) := by
      have hbs := (Realm.bindings_nil.put hthis "this").params hargs c.params
      refine hC.bind (hC.innerEnv hc.1 hbs) fun env he => ?_
      exact hC.map (hC.execBody hcall he.1 fun t ht => he.2 t (hc.2 t ht)) fun _ h => h
    exact hC.body hf hbody
  | native i =>
    refine hC.native (f := fun n => n.answer args) hf fun n hn => hC.bind (hC.print _) fun _ _ => ?_
    cases h : (n args).2 with
    | ok v => exact hC.pure (hn args hargs v h)
    | error e => exact hC.fail _
  | dotCall s target =>
    refine hcall _ _ _ (R.target hf) ?_ fun a ha => hargs a (List.mem_of_mem_tail ha)
    cases args with
    | nil => exact R.plain trivial
    | cons a args => exact hargs a List.mem_cons_self

end

end Steps

/-! ## Classes of computations -/

def Returns {α : Type} (x : Eval α) (v : α) : Prop := ∃ m n, x.run m = (.ok v, n)

section
variable {α β : Type} {x : Eval α} {f : α → Eval β} {v w : α} {u : β}

theorem Returns.of_bind (h : Returns (x >>= f) u) : ∃ v, Returns x v ∧ Returns (f v) u := by
  obtain ⟨m, n, h⟩ := h
  rcases hx : x.run m with ⟨e | v, m'⟩
  · rw [run_bind_error hx] at h
    cases h
  · rw [run_bind_ok hx] at h
    exact ⟨v, ⟨m, m', hx⟩, m', n, h⟩

theorem Returns.of_pure (h : Returns (pure v) w) : w = v := by
  obtain ⟨m, n, h⟩ := h
  cases h
  rfl

theorem not_returns_fail (e : RuntimeError) : ¬ Returns (fail e) v := by
  rintro ⟨m, n, h⟩
  cases h

end

/-- What happens to a machine whose findings and depth stay as they are, and that may log. -/
structure Quiet (m n : Machine) : Prop where
  findings : n.findings = m.findings
  output : m.output.toList <+: n.output.toList
  depth : n.depth = m.depth
  peak : n.peak = m.peak

theorem quiet_data (m : Machine) (fs os : Array Bindings) (cs : Array Closure) (k : Nat) :
    Quiet m { m with frames := fs, objects := os, closures := cs, stamps := k } :=
      ⟨rfl, List.prefix_rfl, rfl, rfl⟩

theorem quiet_print (m : Machine) (lines : List String) : Quiet m (m.print lines) :=
  ⟨rfl, by simp [Machine.print], rfl, rfl⟩

/-- A class of computations that holds whatever is put together from them. Findings are not looked
at. -/
structure Closed (C : {α : Type} → Eval α → Prop) : Prop where
  pure : ∀ {α : Type} (v : α), C (pure v)
  fail : ∀ {α : Type} (e : RuntimeError), C (fail e : Eval α)
  bind : ∀ {α β : Type} {x : Eval α} {f : α → Eval β}, C x →
    (∀ v, Returns x v → C (f v)) → C (x >>= f)
  look : ∀ {α : Type} {f : Machine → Eval α}, (∀ m, f m.bare = f m) → (∀ m, C (f m)) → C (get >>= f)
  access : ∀ {α : Type} {f : Machine → α × Machine},
    (∀ m, (f m.bare).1 = (f m).1 ∧ (f m.bare).2.bare = (f m).2.bare) →
    (∀ m, Quiet m (f m).2) → C (make f)
  note : ∀ form v, C (modify (·.note form v))

/-- Here a run may come across anything. -/
def Realm.all : Realm where
  tree _ _ := True
  name _ _ := True
  frame _ := True
  value _ := True
  child _ _ := trivial
  text _ _ := trivial
  this _ := trivial
  plain _ := trivial
  target _ := trivial

/-- In `C`, and with results in `Q` only. -/
structure Within (C : {α : Type} → Eval α → Prop) {α : Type} (Q : α → Prop) (x : Eval α) :
    Prop where
  mem : C x
  returns : ∀ v, Returns x v → Q v

namespace Closed

variable {α β : Type} {C : {α : Type} → Eval α → Prop} {call : Caller} {env : Env} {x : Eval α}
    (hC : Closed C)
include hC

theorem within_look {Q : α → Prop} {f : Machine → Eval α} (hb : ∀ m, f m.bare = f m)
    (hf : ∀ m, Within C Q (f m)) :
    Within C Q (get >>= f) := by
  refine ⟨hC.look hb fun m => (hf m).mem, fun v hv => ?_⟩
  obtain ⟨m, -, hv⟩ := hv.of_bind
  exact (hf m).returns v hv

theorem within_access {Q : α → Prop} {f : Machine → α × Machine}
    (hb : ∀ m, (f m.bare).1 = (f m).1 ∧ (f m.bare).2.bare = (f m).2.bare)
    (hf : ∀ m, Quiet m (f m).2) (hQ : ∀ v, Q v) :
    Within C Q (make f) := ⟨hC.access hb hf, fun v _ => hQ v⟩

/-- Changes of frames, objects, functions and stamps, and lines that are logged, are accesses. -/
theorem steps : Steps .all (Within C) where
  pure hv := ⟨hC.pure _, fun _ h => h.of_pure ▸ hv⟩
  fail e := ⟨hC.fail e, fun _ h => absurd h (not_returns_fail e)⟩
  bind hx hf := by
    refine ⟨hC.bind hx.mem fun v hv => (hf v (hx.returns v hv)).mem, fun w hw => ?_⟩
    obtain ⟨v, hv, hw⟩ := hw.of_bind
    exact (hf v (hx.returns v hv)).returns w hw
  lookup _ _ hf := hC.within_look (fun _ => rfl) fun _ => hf _ fun _ _ => trivial
  owner _ _ hf := hC.within_look (fun _ => rfl) fun _ => hf _ fun _ _ => trivial
  object _ hf := hC.within_look (fun _ => rfl) fun _ => hf _ fun _ _ _ => trivial
  native _ hf := hC.within_look (fun _ => rfl) fun _ => hf _ fun _ _ _ _ => trivial
  body _ hf := hC.within_look (fun _ => rfl) fun _ => hf _ ⟨fun _ _ => trivial, fun _ _ => trivial⟩
  declare {env} s v _ _ := by
    refine hC.within_access (f := fun m => ((), m.declare env s v)) (fun m => ?_)
      (fun m => ?_) fun _ => trivial
    · cases env <;> exact ⟨rfl, rfl⟩
    · cases env <;> exact quiet_data ..
  put {f} s v _ _ :=
    hC.within_access (f := fun m => ((), m.putIn f s v)) (fun _ => ⟨rfl, rfl⟩)
      (fun _ => quiet_data ..) fun _ => trivial
  newFrame _ := hC.within_access (fun _ => ⟨rfl, rfl⟩) (fun _ => quiet_data ..) fun _ =>
    ⟨trivial, fun _ _ h => h⟩
  newObject _ := hC.within_access (fun _ => ⟨rfl, rfl⟩) (fun _ => quiet_data ..) fun _ => trivial
  newDotCall _ := hC.within_access (fun _ => ⟨rfl, rfl⟩) (fun _ => quiet_data ..) fun _ => trivial
  setObject {i} s v _ _ :=
    hC.within_access
      (f := fun m => ((), { m with objects := m.objects.modify i (Bindings.put s v) }))
      (fun _ => ⟨rfl, rfl⟩) (fun _ => quiet_data ..) fun _ => trivial
  print lines :=
    hC.within_access (f := fun m => ((), m.print lines)) (fun _ => ⟨rfl, rfl⟩) (quiet_print · lines)
      fun _ => trivial
  newClosure _ := hC.within_access (fun _ => ⟨rfl, rfl⟩) (fun _ => quiet_data ..) fun _ => trivial
  note form v := ⟨hC.note form v, fun _ _ => trivial⟩

theorem map {g : α → β} (hx : C x) : C (g <$> x) := by
  rw [map_eq_pure_bind]
  exact hC.bind hx fun _ _ => hC.pure _

theorem mapM {γ : Type} {g : γ → Eval α} (l : List γ) (hg : ∀ a ∈ l, C (g a)) : C (l.mapM g) :=
  (hC.steps.mapM l fun a ha => ⟨hg a ha, fun _ _ => trivial⟩ : Within C (fun vs => ∀ v ∈ vs, True)
    (l.mapM g)).mem

theorem property (v : Value) (key : String) : C (property v key) :=
  (hC.steps.property trivial key).mem

section
variable (hcall : ∀ v this args, C (call v this args))
include hcall

omit hC in
theorem caller : Realm.all.caller (Within C) call :=
  fun v this args _ _ _ => ⟨hcall v this args, fun _ _ => trivial⟩

theorem value (env : Env) (t : Tree) : C (value call env t) :=
  (hC.steps.value (caller hcall) (fun _ _ => trivial) trivial).mem

theorem execBody (env : Env) (ts : List Tree) : C (execBody call env ts) :=
  (hC.steps.execBody (caller hcall) (fun _ _ => trivial) fun _ _ => trivial).mem

theorem invoke (f : Callee) (this : Value) (args : List Value) : C (invoke call f this args) :=
  (hC.steps.invoke (caller hcall) trivial trivial fun _ _ => trivial).mem

end

end Closed

section
variable {α : Type} {x : Eval α} {m : Machine}

/-! ## Calls -/

theorem run_deeper_ok {m : Machine} (h : m.depth < maxCallDepth) :
    (deeper x).run m = ((x.run m.enter).1, (x.run m.enter).2.leave) := by
  have hrun : (deeper x).run m = ((do
      modify Machine.enter
      let result ← ExceptT.lift (ExceptT.run x)
      modify Machine.leave
      deeper.liftExcept result : Eval α).run m) := by
    rw [deeper, run_bind_ok (x := MonadState.get) (m := m) (v := m) rfl, if_neg (Nat.not_le.mpr h)]
  have hx : (ExceptT.lift x.run : Eval (Except (Halt RuntimeError) α)).run m.enter =
      (.ok (x.run m.enter).1, (x.run m.enter).2) := rfl
  have henter : (modify Machine.enter : Eval Unit).run m = (.ok (), m.enter) := rfl
  rw [hrun, run_bind_ok henter, run_bind_ok hx]
  rcases x.run m.enter with ⟨e | v, n⟩ <;> rfl

theorem run_deeper_full {m : Machine} (h : maxCallDepth ≤ m.depth) :
    (deeper x).run m = (.error (.error .callDepth), m) := by
  rw [deeper, run_bind_ok (x := MonadState.get) (m := m) (v := m) rfl, if_pos h]
  rfl

end

/-! ## Invariants -/

/-- Whatever comes of it, `I` holds afterwards. -/
structure Keeps {α : Type} (I : Machine → Prop) (x : Eval α) : Prop where
  run : ∀ m, I m → I (x.run m).2

/-- `I` is kept by every access to the machine, and calls may be nested. -/
structure Stable (I : Machine → Prop) : Prop where
  /-- What does not touch findings may log. -/
  access : ∀ {m n : Machine}, I m → n.findings = m.findings → m.output.toList <+: n.output.toList →
    m.peak ≤ n.peak → I n
  note : ∀ {m : Machine} {form v}, I m → I (m.note form v)

section
variable {α β : Type} {I : Machine → Prop} {x : Eval α} {f : α → Eval β}

theorem keeps_pure (v : α) : Keeps I (pure v : Eval α) := ⟨fun _ h => h⟩

theorem keeps_throw (e : Halt RuntimeError) : Keeps I (throw e : Eval α) := ⟨fun _ h => h⟩

theorem Keeps.bind (hx : Keeps I x) (hf : ∀ v, Returns x v → Keeps I (f v)) :
    Keeps I (x >>= f) := by
  refine ⟨fun m hm => ?_⟩
  have h := hx.run m hm
  rcases hr : x.run m with ⟨_ | v, n⟩
  · rw [hr] at h
    rw [run_bind_error hr]
    exact h
  · rw [hr] at h
    rw [run_bind_ok hr]
    exact (hf v ⟨m, n, hr⟩).run n h

theorem Stable.closed (hI : Stable I) : Closed (Keeps I) where
  pure v := keeps_pure v
  fail _ := keeps_throw _
  bind hx hf := hx.bind hf
  look _ hf := ⟨fun m hm => (hf m).run m hm⟩
  access _ hf := ⟨fun m hm =>
    let h := hf m
    hI.access hm h.findings h.output (Nat.le_of_eq h.peak.symm)⟩
  note _ _ := ⟨fun _ hm => hI.note hm⟩

variable (hI : Stable I)
include hI

theorem keeps_deeper (hx : Keeps I x) : Keeps I (deeper x) := by
  refine ⟨fun m hm => ?_⟩
  by_cases h : maxCallDepth ≤ m.depth
  · rw [run_deeper_full h]
    exact hm
  · rw [run_deeper_ok (Nat.lt_of_not_le h)]
    have henter : I m.enter := hI.access hm rfl List.prefix_rfl (Nat.le_max_left ..)
    exact hI.access (hx.run m.enter henter) rfl List.prefix_rfl (Nat.le_refl _)

theorem keeps_callTo (k : Nat) (v this : Value) (args : List Value) :
    Keeps I (callTo k v this args) := by
  induction k generalizing v this args with
  | zero => exact keeps_throw _
  | succ k ih =>
    cases v with
    | function f => exact keeps_deeper hI (hI.closed.invoke ih f this args)
    | _ => exact keeps_throw _

end

end Eval

end ChainLowering
