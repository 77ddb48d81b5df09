import Mathlib.Data.List.Find
import ChainLowering.Proofs.CallDepth
import ChainLowering.Proofs.Fresh
import ChainLowering.Proofs.Machines

/-!
# Globals that no script uses

Two machines differ in what the frame of globals says of a name `x`, and in
nothing else. Scripts in which the name does not stand never ask for it, so
they come across what hangs on the other globals, and across what they make
themselves, and not across what hangs on `x` alone. There may be functions
with the name in them there: no run calls them. So it makes no difference
whether there is a global `x`, and its value may be any.
-/

namespace ChainLowering

open Grown (slots)

/-- No name node has the text `x`. One that has no text counts as empty. -/
def Tree.Without (x : String) : Tree → Prop
  | .node l _ c => (l.kind = .name → l.text.getD "" ≠ x) ∧ ∀ i, (c i).Without x
  | _ => True

/-! ## What hangs on the other globals -/

/-- A frame, or a value. -/
inductive Machine.Item
  | frame (f : FrameId)
  | value (v : Value)

/-- What may come up in runs that start on a machine and never ask for its global `x`. What is made
later may. -/
inductive Machine.Reaches (m : Machine) (x : String) : Item → Prop
  | globals : m.Reaches x (.frame globals)
  | plain {v : Value} (h : v.IsPlain) : m.Reaches x (.value v)
  | newFrame {f : FrameId} (h : m.frames.size ≤ f) : m.Reaches x (.frame f)
  | newObject {i : Nat} (h : m.objects.size ≤ i) : m.Reaches x (.value (.object i))
  | newClosure {i : Nat} (h : m.closures.size ≤ i) : m.Reaches x (.value (.function (.closure i)))
  | «variable» {f : FrameId} {s : String} {v : Value} (h : m.Reaches x (.frame f))
      (hs : f = Machine.globals → s ≠ x) (hv : (m.frame f).lookup s = some v) :
      m.Reaches x (.value v)
  | property {i : Nat} {s : String} {v : Value} (h : m.Reaches x (.value (.object i)))
      (hv : (m.objects.getD i []).lookup s = some v) : m.Reaches x (.value v)
  | scope {i : Nat} {f : FrameId} (h : m.Reaches x (.value (.function (.closure i))))
      (hf : f ∈ (m.closures.getD i {}).env) : m.Reaches x (.frame f)
  | member {k : Nat} {f : Callee} (h : m.Reaches x (.value (.function f))) :
      m.Reaches x (.value (.function (.dotCall k f)))
  | target {k : Nat} {f : Callee} (h : m.Reaches x (.value (.function (.dotCall k f)))) :
      m.Reaches x (.value (.function f))
  | answer {i : Nat} {args : List Value} {v : Value}
      (h : m.Reaches x (.value (.function (.native i))))
      (hargs : ∀ a ∈ args, m.Reaches x (.value a))
      (hv : (((m.natives[i]?).getD Native.inert) args).2 = .ok v) :
      m.Reaches x (.value v)

/-- No function that can be reached asks for the global `x`. One whose scope does not go back to the
globals has other variables of that name. -/
def Machine.Ignores (m : Machine) (x : String) : Prop :=
  ∀ i, m.Reaches x (.value (.function (.closure i))) →
    Machine.globals ∈ (m.closures.getD i {}).env → ∀ t ∈ (m.closures.getD i {}).body, t.Without x

/-- What runs may come across that start on a machine and do not ask for its global `x`. -/
def Machine.realm (m : Machine) {x : String} (hx : x ≠ "this") : Eval.Realm where
  tree env t := Machine.globals ∈ env → t.Without x
  name env s := Machine.globals ∈ env → s ≠ x
  frame f := m.Reaches x (.frame f)
  value v := m.Reaches x (.value v)
  child h i he := (h he).2 i
  text h hk he := (h he).1 hk
  this _ _ := hx.symm
  plain := .plain
  target := .target

/-! ## Before a program runs -/

/-- Made outside of programs, or later than the machine. -/
def Callee.Outside (m : Machine) : Callee → Prop
  | closure i => m.closures.size ≤ i
  | native _ => True
  | dotCall _ f => f.Outside m

def Machine.Item.Outside (m : Machine) : Machine.Item → Prop
  | frame f => f = Machine.globals ∨ m.frames.size ≤ f
  | value (.object i) => m.objects.size ≤ i
  | value (.function f) => f.Outside m
  | value _ => True

namespace Machine

variable {m : Machine} {x : String}

section
variable (hg : ∀ s v, s ≠ x → (m.frame globals).lookup s = some v → (Item.value v).Outside m)
  (hn : ∀ (i : Nat) args v, (∀ a ∈ args, (Item.value a).Outside m) →
    (((m.natives[i]?).getD Native.inert) args).2 = .ok v → (Item.value v).Outside m)
include hg hn

theorem outside_of_reaches {i : Item} (h : m.Reaches x i) : i.Outside m := by
  induction h with
  | globals => exact .inl rfl
  | @plain v h =>
    cases v with
    | object | function => exact h.elim
    | _ => trivial
  | newFrame h => exact .inr h
  | newObject h | newClosure h | member _ h | target _ h => exact h
  | @«variable» f s v _ hs hv ih =>
    obtain rfl | hf := ih
    · exact hg s v (hs rfl) hv
    · exact absurd (lt_of_lookup hv) (Nat.not_lt.mpr hf)
  | @property i s v _ hv ih =>
    have hnone : m.objects[i]? = none := Array.getElem?_eq_none ih
    rw [Array.getD_eq_getD_getElem?, hnone] at hv
    cases hv
  | @scope i f _ hf ih =>
    have hnone : m.closures[i]? = none := Array.getElem?_eq_none ih
    rw [Array.getD_eq_getD_getElem?, hnone] at hf
    cases hf
  | @answer i args v _ _ hv _ ih => exact hn i args v ih hv

/-- Globals and functions of the host that lead to no function of a program lead to none that asks
for `x`. -/
theorem ignores_of_outside : m.Ignores x := by
  intro i hi _ t ht
  have hnone : m.closures[i]? = none := Array.getElem?_eq_none (outside_of_reaches hg hn hi)
  rw [Array.getD_eq_getD_getElem?, hnone] at ht
  cases ht

end

theorem lookup_initial {s : String} {v : Value} (h : (initial.frame globals).lookup s = some v) :
    v = .undefined ∨ v = .function (.native 0) := by
  change [("undefined", Value.undefined), ("log", .function (.native 0))].lookup s = some v at h
  rw [List.lookup_cons, List.lookup_cons, List.lookup_nil] at h
  split at h
  · exact .inl (Option.some.inj h).symm
  · split at h
    · exact .inr (Option.some.inj h).symm
    · cases h

theorem ignores_initial (hg : m.frame globals = initial.frame globals)
    (hn : m.natives = initial.natives) (x : String) :
    m.Ignores x := by
  refine ignores_of_outside (fun s v _ hv => ?_) fun i args v hargs hv => ?_
  · rw [hg] at hv
    obtain rfl | rfl := lookup_initial hv <;> trivial
  · rw [hn] at hv
    obtain rfl | hi := Nat.eq_zero_or_pos i
    · -- what is logged is handed back
      change Except.ok (args.headD .undefined) = .ok v at hv
      obtain rfl := Except.ok.inj hv
      cases args with
      | nil => trivial
      | cons a args => exact hargs a List.mem_cons_self
    · have hnone : initial.natives[i]? = none := Array.getElem?_eq_none hi
      rw [hnone] at hv
      change Except.ok Value.undefined = .ok v at hv
      obtain rfl := Except.ok.inj hv
      trivial

end Machine

/-! ## What a run keeps -/

namespace Machine

variable {x s : String} {hx : x ≠ "this"} {o m n : Machine} {fs : Array Bindings} {env : Env}
    {v : Value} {f : FrameId}

/-- A later machine in which what can be reached still leads only to what can be reached. The first
one is `o`. -/
structure Keeps (o : Machine) (hx : x ≠ "this") (m : Machine) : Prop where
  frames : o.frames.size ≤ m.frames.size
  objects : o.objects.size ≤ m.objects.size
  closures : o.closures.size ≤ m.closures.size
  natives : m.natives = o.natives
  «variable» : ∀ f s v, o.Reaches x (.frame f) → (f = globals → s ≠ x) →
    (m.frame f).lookup s = some v → o.Reaches x (.value v)
  property : ∀ i, o.Reaches x (.value (.object i)) → (o.realm hx).bindings (m.objects.getD i [])
  closure : ∀ i, o.Reaches x (.value (.function (.closure i))) →
    (o.realm hx).closure (m.closures.getD i {})

theorem Ignores.keeps (h : o.Ignores x) (hx : x ≠ "this") : o.Keeps hx o where
  frames := le_rfl
  objects := le_rfl
  closures := le_rfl
  natives := rfl
  «variable» _ _ _ := .variable
  property _ hi _ _ := .property hi
  closure i hi := ⟨fun _ => .scope hi, fun t ht he => h i hi he t ht⟩

namespace Keeps

theorem congr (h : o.Keeps hx m) (hf : n.frames = m.frames) (ho : n.objects = m.objects)
    (hc : n.closures = m.closures) (hn : n.natives = m.natives) : o.Keeps hx n where
  frames := hf ▸ h.frames
  objects := ho ▸ h.objects
  closures := hc ▸ h.closures
  natives := hn.trans h.natives
  «variable» f s v := by rw [frame, hf]; exact h.variable f s v
  property := ho ▸ h.property
  closure := hc ▸ h.closure

theorem native (h : o.Keeps hx m) {i : Nat} (hi : o.Reaches x (.value (.function (.native i)))) :
    (o.realm hx).native ((m.natives[i]?).getD Native.inert) := by
  rw [h.natives]
  exact fun args hargs v hv => .answer hi hargs hv

theorem putIn (h : o.Keeps hx m) (f : FrameId) (s : String) (hv : o.Reaches x (.value v)) :
    o.Keeps hx (m.putIn f s v) where
  __ := h
  frames := by simpa [Machine.putIn] using h.frames
  «variable» g k w hg hk hw := by
    rw [frame_putIn] at hw
    split_ifs at hw
    · rw [Bindings.lookup_put] at hw
      split_ifs at hw
      · exact Option.some.inj hw ▸ hv
      · exact h.variable g k w hg hk hw
    · exact h.variable g k w hg hk hw

theorem newFrame (h : o.Keeps hx m) {bs : Bindings} (hbs : (o.realm hx).bindings bs) :
    o.Keeps hx (m.newFrame bs).2 where
  __ := h
  frames := by
    have := h.frames
    simp only [Machine.newFrame, Array.size_push]
    omega
  «variable» g k w hg hk hw := by
    rw [frame_newFrame] at hw
    split_ifs at hw
    · exact hbs k w hw
    · exact h.variable g k w hg hk hw

theorem setObject (h : o.Keeps hx m) (i : Nat) (s : String) (hv : o.Reaches x (.value v)) :
    o.Keeps hx { m with objects := m.objects.modify i (Bindings.put s v) } where
  __ := h
  objects := by simpa using h.objects
  property j hj := by
    rw [getD_modify]
    split_ifs
    · exact (h.property j hj).put hv s
    · exact h.property j hj

theorem newObject (h : o.Keeps hx m) {bs : Bindings} (hbs : (o.realm hx).bindings bs) :
    o.Keeps hx (m.newObject bs).2 where
  __ := h
  objects := by
    have := h.objects
    simp only [Machine.newObject, Array.size_push]
    omega
  property j hj := by
    simp only [Machine.newObject, getD_push]
    split_ifs
    · exact hbs
    · exact h.property j hj

theorem newClosure (h : o.Keeps hx m) {c : Closure} (hc : (o.realm hx).closure c) :
    o.Keeps hx (m.newClosure c).2 where
  __ := h
  closures := by
    have := h.closures
    simp only [Machine.newClosure, Array.size_push]
    omega
  closure j hj := by
    simp only [Machine.newClosure, getD_push]
    split_ifs
    · exact hc
    · exact h.closure j hj

end Keeps

/-! ## Machines that differ in a global -/

/-- Frames that say the same as those of a machine, but for what the globals say of `x`. -/
structure Reframes (o : Machine) (hx : x ≠ "this") (m : Machine) (fs : Array Bindings) :
    Prop extends o.Keeps hx m where
  size : fs.size = m.frames.size
  lookup : ∀ f s, (f = globals → s ≠ x) → (fs.getD f []).lookup s = (m.frame f).lookup s

namespace Reframes

theorem lookup_eq (h : o.Reframes hx m fs) (hs : (o.realm hx).name env s) :
    { m with frames := fs }.lookup env s = m.lookup env s := by
  induction env with
  | nil => rfl
  | cons f env ih =>
    have hf : (fs.getD f []).lookup s = (m.frames.getD f []).lookup s :=
      h.lookup f s fun e => hs (e ▸ List.mem_cons_self)
    have hrest := ih fun he => hs (List.mem_cons_of_mem _ he)
    unfold Machine.lookup at hrest ⊢
    rw [List.findSome?_cons, List.findSome?_cons, hf, hrest]

theorem frameOf?_eq (h : o.Reframes hx m fs) (hs : (o.realm hx).name env s) :
    { m with frames := fs }.frameOf? env s = m.frameOf? env s :=
  List.find?_congr fun f hf => congrArg Option.isSome (h.lookup f s fun e => hs (e ▸ hf))

theorem reaches_lookup (h : o.Reframes hx m fs) (he : (o.realm hx).env env)
    (hs : (o.realm hx).name env s) (hv : m.lookup env s = some v) : o.Reaches x (.value v) := by
  obtain ⟨f, hf, hv⟩ := List.exists_of_findSome?_eq_some hv
  exact h.variable f s v (he f hf) (fun e => hs (e ▸ hf)) hv

theorem withKeeps (h : o.Reframes hx m fs) (hn : o.Keeps hx n) (hf : n.frames = m.frames) :
    o.Reframes hx n fs where
  toKeeps := hn
  size := hf ▸ h.size
  lookup f s hs := by rw [frame, hf]; exact h.lookup f s hs

theorem putIn (h : o.Reframes hx m fs) (f : FrameId) (s : String) (hv : o.Reaches x (.value v)) :
    o.Reframes hx (m.putIn f s v) (fs.modify f (Bindings.put s v)) where
  toKeeps := h.toKeeps.putIn f s hv
  size := by simpa [Machine.putIn] using h.size
  lookup g k hk := by
    rw [frame_putIn, getD_modify, h.size]
    by_cases hg : g = f ∧ f < m.frames.size
    · rw [if_pos hg, if_pos hg, Bindings.lookup_put, Bindings.lookup_put, h.lookup g k hk]
    · rw [if_neg hg, if_neg hg, h.lookup g k hk]

theorem newFrame (h : o.Reframes hx m fs) {bs : Bindings} (hbs : (o.realm hx).bindings bs) :
    o.Reframes hx (m.newFrame bs).2 (fs.push bs) where
  toKeeps := h.toKeeps.newFrame hbs
  size := by simpa [Machine.newFrame] using h.size
  lookup g k hk := by
    rw [frame_newFrame, getD_push, h.size]
    by_cases hg : g = m.frames.size
    · rw [if_pos hg, if_pos hg]
    · rw [if_neg hg, if_neg hg, h.lookup g k hk]

end Reframes

end Machine

/-! ## Runs -/

namespace Eval

variable {α β : Type} {x : String} {hx : x ≠ "this"} {o : Machine} {y : Eval α} {f : α → Eval β}
    {P Q : α → Prop}
  {S : β → Prop}

/-- Does not notice what the globals say of `x`. Its results are in `Q`. -/
structure Unaware (o : Machine) (hx : x ≠ "this") {α : Type} (Q : α → Prop) (y : Eval α) :
    Prop where
  run : ∀ (m : Machine) (fs : Array Bindings), o.Reframes hx m fs →
    ∃ gs, y.run { m with frames := fs } = ((y.run m).1, { (y.run m).2 with frames := gs }) ∧
      o.Reframes hx (y.run m).2 gs ∧ ∀ v, (y.run m).1 = .ok v → Q v

theorem unaware_pure {v : α} (hv : Q v) : Unaware o hx Q (pure v) :=
  ⟨fun _ fs h => ⟨fs, rfl, h, fun _ hw => Except.ok.inj hw ▸ hv⟩⟩

theorem unaware_throw (e : Halt RuntimeError) : Unaware o hx Q (throw e) :=
  ⟨fun _ fs h => ⟨fs, rfl, h, fun _ hw => nomatch hw⟩⟩

theorem Unaware.bind (hy : Unaware o hx P y) (hf : ∀ v, P v → Unaware o hx S (f v)) :
    Unaware o hx S (y >>= f) := by
  refine ⟨fun m fs h => ?_⟩
  obtain ⟨gs, hrun, hgs, hv⟩ := hy.run m fs h
  rcases hr : y.run m with ⟨e | v, n⟩ <;> rw [hr] at hrun hgs hv
  · rw [run_bind_error hr, run_bind_error hrun]
    exact ⟨gs, rfl, hgs, fun _ hw => nomatch hw⟩
  · rw [run_bind_ok hr, run_bind_ok hrun]
    exact (hf v (hv v rfl)).run n gs hgs

theorem unaware_make {g : Machine → α × Machine}
    (hg : ∀ m fs, g { m with frames := fs } = ((g m).1, { (g m).2 with frames := fs }))
    (hf : ∀ m, (g m).2.frames = m.frames)
      (hk : ∀ m, o.Keeps hx m → o.Keeps hx (g m).2 ∧ Q (g m).1) :
    Unaware o hx Q (make g) := by
  refine ⟨fun m fs h => ⟨fs, ?_, h.withKeeps (hk m h.toKeeps).1 (hf m), fun v hv => ?_⟩⟩
  · change (Except.ok (g { m with frames := fs }).1, (g { m with frames := fs }).2) = _
    rw [hg]
    rfl
  · exact Except.ok.inj hv ▸ (hk m h.toKeeps).2

theorem unaware_put {v : Value} (f : FrameId) (s : String) (hv : o.Reaches x (.value v)) :
    Unaware o hx (fun _ => True) (modify (·.putIn f s v)) :=
  ⟨fun _ _ h => ⟨_, rfl, h.putIn f s hv, fun _ _ => trivial⟩⟩

theorem steps_unaware (hx : x ≠ "this") (ho : 0 < o.frames.size) :
    Steps (o.realm hx) (Unaware o hx) where
  pure := unaware_pure
  fail _ := unaware_throw _
  bind := Unaware.bind
  lookup {α Q f env s} he hs hf := ⟨fun m fs h => by
    change ∃ gs, (f ({ m with frames := fs }.lookup env s)).run _ = _ ∧ _
    rw [h.lookup_eq hs]
    exact (hf _ fun v hv => h.reaches_lookup he hs hv).run m fs h⟩
  owner {α Q f env s} he hs hf := ⟨fun m fs h => by
    change ∃ gs, (f ({ m with frames := fs }.frameOf? env s)).run _ = _ ∧ _
    rw [h.frameOf?_eq hs]
    exact (hf _ fun i hi => he i (List.mem_of_find?_eq_some hi)).run m fs h⟩
  object hi hf := ⟨fun m fs h => (hf _ (h.property _ hi)).run m fs h⟩
  native hi hf := ⟨fun m fs h => (hf _ (h.native hi)).run m fs h⟩
  body hi hf := ⟨fun m fs h => (hf _ (h.closure _ hi)).run m fs h⟩
  declare {env} s v _ hv := by
    cases env with
    | nil => exact ⟨fun _ fs h => ⟨fs, rfl, h, fun _ _ => trivial⟩⟩
    | cons f env => exact unaware_put f s hv
  put {f} s v _ hv := unaware_put f s hv
  newFrame {bs} hbs := ⟨fun m fs h => by
    refine ⟨fs.push bs, ?_, h.newFrame hbs, fun f hf => ?_⟩
    · change (Except.ok fs.size, _) = (Except.ok m.frames.size, _)
      rw [h.size]
      rfl
    · -- the new frame is not the one of the globals
      obtain rfl := Except.ok.inj hf
      refine ⟨.newFrame h.frames, fun env t ht he => ht ?_⟩
      obtain he | he := List.mem_cons.mp he
      · have hpos := ho.trans_le h.frames
        exact absurd he.symm (Nat.ne_of_gt hpos)
      · exact he⟩
  newObject hbs :=
    unaware_make (fun _ _ => rfl) (fun _ => rfl) fun m h => ⟨h.newObject hbs, .newObject h.objects⟩
  newDotCall hf :=
    unaware_make (fun _ _ => rfl) (fun _ => rfl) fun m h => ⟨h.congr rfl rfl rfl rfl, .member hf⟩
  setObject {i} s v _ hv :=
    unaware_make (g := fun m => ((), { m with objects := m.objects.modify i (Bindings.put s v) }))
      (fun _ _ => rfl)
      (fun _ => rfl) fun m h => ⟨h.setObject i s hv, trivial⟩
  print lines :=
    unaware_make (g := fun m => ((), m.print lines)) (fun _ _ => rfl) (fun _ => rfl) fun m h =>
    ⟨h.congr rfl rfl rfl rfl, trivial⟩
  newClosure hc := unaware_make (fun _ _ => rfl) (fun _ => rfl) fun m h =>
    ⟨h.newClosure hc, .newClosure h.closures⟩
  note form v :=
    unaware_make (g := fun m => ((), m.note form v)) (fun _ _ => rfl) (fun _ => rfl) fun m h =>
    ⟨h.congr rfl rfl rfl rfl, trivial⟩

theorem Unaware.deeper (hy : Unaware o hx Q y) : Unaware o hx Q (deeper y) := by
  refine ⟨fun m fs h => ?_⟩
  by_cases hfull : maxCallDepth ≤ m.depth
  · rw [run_deeper_full hfull, run_deeper_full (m := { m with frames := fs }) hfull]
    exact ⟨fs, rfl, h, fun _ hv => nomatch hv⟩
  · rw [run_deeper_ok (Nat.lt_of_not_le hfull),
      run_deeper_ok (m := { m with frames := fs }) (Nat.lt_of_not_le hfull)]
    obtain ⟨gs, hrun, hgs, hv⟩ :=
      hy.run m.enter fs (h.withKeeps (h.toKeeps.congr rfl rfl rfl rfl) rfl)
    change y.run { m with frames := fs }.enter = _ at hrun
    rw [hrun]
    exact ⟨gs, rfl, hgs.withKeeps (hgs.toKeeps.congr rfl rfl rfl rfl) rfl, hv⟩

theorem unaware_callTo (hx : x ≠ "this") (ho : 0 < o.frames.size) (k : Nat) :
    (o.realm hx).caller (Unaware o hx) (callTo k) := by
  induction k with
  | zero => exact fun _ _ _ _ _ _ => unaware_throw _
  | succ k ih =>
    intro v this args hv hthis hargs
    cases v with
    | function f => exact ((steps_unaware hx ho).invoke ih hv hthis hargs).deeper
    | _ => exact unaware_throw _

end Eval

namespace Machine

variable {x : String} {o m : Machine} {fs : Array Bindings} {t : Tree} {ts : List Tree}

theorem runScript_reframed {hx : x ≠ "this"} (ho : 0 < o.frames.size) (ht : t.Without x)
    (h : o.Reframes hx m fs) :
    ∃ gs, { m with frames := fs }.runScript t =
      ((m.runScript t).1, { (m.runScript t).2 with frames := gs }) ∧
      o.Reframes hx (m.runScript t).2 gs := by
  have hS := Eval.steps_unaware hx ho
  have he : (o.realm hx).env [globals] := by
    rintro f hf
    obtain rfl := List.mem_singleton.mp hf
    exact .globals
  have htree : (o.realm hx).tree [globals] t := fun _ => ht
  have hbody : Eval.Unaware o hx _ (Eval.execBody Eval.call [globals] t.children) :=
    hS.execBody (Eval.unaware_callTo hx ho _) he (Eval.Steps.children htree)
  have hscript : Eval.Unaware o hx (fun _ => True)
      (discard (Eval.execBody Eval.call [globals] t.children)) :=
    hS.map hbody fun _ _ => trivial
  obtain ⟨gs, hrun, hgs, -⟩ := hscript.run m fs h
  exact ⟨gs, hrun, hgs⟩

/-- Two scripts end alike, after the same lines, and all globals but `x` have the same values then.
-/
structure EndsAlike (x : String) (r r' : Except (Halt RuntimeError) Unit × Machine) : Prop where
  result : r'.1 = r.1
  output : r'.2.output = r.2.output
  globals : ∀ s ≠ x, r'.2.global? s = r.2.global? s

theorem EndsAlike.refl (x : String) (r : Except (Halt RuntimeError) Unit × Machine) :
    EndsAlike x r r :=
  ⟨rfl, rfl, fun _ _ => rfl⟩

theorem runScripts_reframed {hx : x ≠ "this"} (ho : 0 < o.frames.size) (hts : ∀ t ∈ ts, t.Without x)
    (h : o.Reframes hx m fs) :
    List.Forall₂ (EndsAlike x) (m.runScripts ts) ({ m with frames := fs }.runScripts ts) := by
  induction ts generalizing m fs with
  | nil => exact .nil
  | cons t ts ih =>
    obtain ⟨ht, hts⟩ := List.forall_mem_cons.mp hts
    obtain ⟨gs, hrun, hgs⟩ := runScript_reframed ho ht h
    rw [runScripts, runScripts, hrun]
    exact .cons ⟨rfl, rfl, fun s hs => hgs.lookup_eq fun _ => hs⟩ (ih hts hgs)

theorem Ignores.reframes (h : m.Ignores x) (hx : x ≠ "this") (v : Value) :
    m.Reframes hx m (m.defineGlobal x v).frames where
  toKeeps := h.keeps hx
  size := by simp [defineGlobal, putIn]
  lookup f s hs := by
    change ((m.putIn Machine.globals x v).frame f).lookup s = _
    rw [frame_putIn]
    split_ifs with hf
    · rw [Bindings.lookup_put, if_neg (hs hf.1)]
    · rfl

theorem runScripts_defineGlobal (h : m.Ignores x) (hx : x ≠ "this")
    (hts : ∀ t ∈ ts, t.Without x) (v : Value) :
    List.Forall₂ (EndsAlike x) (m.runScripts ts) ((m.defineGlobal x v).runScripts ts) := by
  obtain hsize | hsize := Nat.eq_zero_or_pos m.frames.size
  · -- without a frame for globals nothing is defined
    have hsame : m.defineGlobal x v = m := by
      have hnone : m.frames.modify globals (Bindings.put x v) = m.frames := by
        rw [Array.eq_empty_of_size_eq_zero hsize]
        rfl
      rw [defineGlobal, putIn, hnone]
    rw [hsame]
    exact List.forall₂_same.mpr fun r _ => .refl x r
  · exact runScripts_reframed hsize hts (h.reframes hx v)

end Machine

/-! ## Scripts that were read -/

theorem Rule.exists_text {part : Part} {l : Label} {parts : List Part} (h : Rule part l parts)
    (hk : l.kind = .name) :
    ∃ w, l.text = some w := by
  induction h with
  | name | unnamed | binding => exact ⟨_, rfl⟩
  | inner _ ih | named _ ih | «variable» _ ih | closure _ ih | target _ _ ih | chain _ _ ih =>
      exact ih hk
  | declaration _ kind | constant kind | unary kind | binary kind =>
    dsimp only at hk
    subst hk
    cases kind
  | property kind | element kind | call _ kind =>
    dsimp only at hk
    subst hk
    rcases kind with h | h <;> cases h
  | _ => cases hk

theorem Grown.without {t : Grown} {x : String} {part : Part} (h : Tree.Is part t.toTree)
    (hx : x ∉ t.names) : t.toTree.Without x := by
  induction t generalizing part with
  | node i l ts ih =>
    rw [toTree_node] at h ⊢
    rw [names_node, List.mem_append, not_or] at hx
    obtain ⟨parts, rule, hparts⟩ := h.exists_rule
    refine ⟨fun hk => ?_, fun k => ?_⟩
    · obtain ⟨w, hw⟩ := rule.exists_text hk
      change l.text = some w at hw
      rw [hw, Option.getD_some]
      rintro rfl
      exact hx.1 (by simp [Label.name?, hk, hw])
    · dsimp only
      rw [List.getD_eq_getElem?_getD, List.getElem?_map]
      cases hk : ts[k]? with
      | none => trivial
      | some t =>
        have ht := List.mem_of_getElem? hk
        obtain ⟨q, -, hq⟩ := Tree.exists_part hparts (List.mem_map_of_mem ht)
        exact ih t ht hq fun hmem => hx.2 (List.mem_flatMap.mpr ⟨t, ht, hmem⟩)

variable {a b : Arena} {sources : List String} {roots scripts : List Ref}

/-- Scripts that do not use `x` log the same lines, end in the same way and leave the same values in
all other globals whether there is a global `x` or not. Its value may be any, a function that uses
`x` too, as long as the other globals do not lead to one. -/
theorem unused_global (hr : a.readAll sources = some (roots, b)) (hs : ∀ s ∈ scripts, s ∈ roots)
    {x : String} (hthis : x ≠ "this")
    (hx : ∀ s ∈ scripts, ∀ i ∈ b.preorder s, b.isName (some i) = true → b.text? (some i) ≠ some x)
    (m : Machine) (hm : m.Ignores x) (v : Value) :
    List.Forall₂ (Machine.EndsAlike x) (m.runScripts (scripts.map b.tree))
      ((m.defineGlobal x v).runScripts (scripts.map b.tree)) := by
  obtain ⟨ts, R, rfl, hts, hold⟩ := Arena.readAll_is hr
  refine Machine.runScripts_defineGlobal hm hthis (fun u hu => ?_) v
  obtain ⟨s, hmem, rfl⟩ := List.mem_map.mp hu
  obtain ⟨t, ht, rfl⟩ := List.mem_map.mp (hs s hmem)
  obtain ⟨S, hold⟩ := Arena.holds_of_mem ht hold
  rw [Arena.tree_eq hold]
  refine Grown.without (hts t ht) fun hname => ?_
  rw [← Names.filterMap_nameAt? hold.shows] at hname
  obtain ⟨i, hi, hi'⟩ := List.mem_filterMap.mp hname
  rw [Names.nameAt?, Option.ite_none_right_eq_some] at hi'
  exact hx _ hmem i (by rwa [Arena.preorder_tree hold]) hi'.1 hi'.2

/-- The function `function spare() { return spare; }` of the globals. -/
def Closure.spare : Closure where
  body := [.node { kind := .returnStmt } 1 fun _ =>
    .node { kind := .name, text := some "spare" } 0 fun _ => .absent]
  env := [Machine.globals]

/-- The second script fails, and the third one calls a function of the first. The global is a
function that uses itself. -/
theorem unused_global_sample : ∃ roots b,
    ({} : Arena).readAll ["var o = \x7b m: log \x7d; function f(p) \x7b o.m(p); \x7d", "o.n.p;",
      "f(o);"] = some (roots, b) ∧
    (∀ s ∈ roots, s ∈ roots) ∧ "spare" ≠ "this" ∧
    (∀ s ∈ roots, ∀ i ∈ b.preorder s, b.isName (some i) = true → b.text? (some i) ≠ some "spare") ∧
    (¬ ∀ t ∈ Closure.spare.body, t.Without "spare") ∧
    (Machine.initial.newClosure .spare).1 = .function (.closure 0) ∧
    (Machine.initial.newClosure .spare).2.Ignores "spare" ∧
    List.Forall₂ (Machine.EndsAlike "spare")
      ((Machine.initial.newClosure .spare).2.runScripts (roots.map b.tree))
      (((Machine.initial.newClosure .spare).2.defineGlobal "spare"
        (.function (.closure 0))).runScripts (roots.map b.tree)) := by
  have hread : ∃ roots b,
      ({} : Arena).readAll ["var o = \x7b m: log \x7d; function f(p) \x7b o.m(p); \x7d", "o.n.p;",
        "f(o);"] = some (roots, b) ∧
      ∀ s ∈ roots, ∀ i ∈ b.preorder s, b.isName (some i) = true → b.text? (some i) ≠ some "spare" :=
    Arena.exists_of_readAll (by decide +kernel)
  obtain ⟨roots, b, hr, hx⟩ := hread
  have hthis : "spare" ≠ "this" := by decide
  have hspare : ¬ ∀ t ∈ Closure.spare.body, t.Without "spare" :=
    fun h => ((h _ List.mem_cons_self).2 0).1 rfl rfl
  have hm : (Machine.initial.newClosure .spare).2.Ignores "spare" :=
    Machine.ignores_initial (m := (Machine.initial.newClosure .spare).2) rfl rfl "spare"
  exact ⟨roots, b, hr, fun _ h => h, hthis, hx, hspare, rfl, hm,
    unused_global hr (fun _ h => h) hthis hx _ hm _⟩

end ChainLowering
