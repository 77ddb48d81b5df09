import ChainLowering.Proofs.Machines
import ChainLowering.Proofs.RunRules

/-!
# Simulation

Two computations simulate each other when they end alike on related machines.
There are two ways out: the first one meets a callee that does not fit, and
will fail then, or the second one nests so many calls that it has to fail.
-/

namespace ChainLowering

/-- What a run with its machine comes to. -/
abbrev Outcome (α : Type) := Except (Halt RuntimeError) α × Machine

section
variable {α β γ δ : Type}

/-- How two computations end. -/
inductive Relates (P : Change) (W : World) (Q : Stamps → α → β → Prop) :
    Outcome α → Outcome β → Prop
  | done {σ : Stamps} {a : α} {b : β} {n n' : Machine} (hσ : W.stamps ≤ σ)
      (h : Machine.Related P (W.grown σ) n n') (hq : Q σ a b) : Relates P W Q (.ok a, n) (.ok b, n')
  | failed {σ : Stamps} (e : Halt RuntimeError) {n n' : Machine} (hσ : W.stamps ≤ σ)
      (h : Machine.Related P (W.grown σ) n n') : Relates P W Q (.error e, n) (.error e, n')
  | spoiled {e : Halt RuntimeError} {n : Machine} {r : Outcome β} (h : ¬ n.Fits) :
      Relates P W Q (.error e, n) r
  | exceeded {r : Outcome α} {n' : Machine} (h : maxCallDepth ≤ n'.peak) :
      Relates P W Q r (.error (.error .callDepth), n')

/-- Both computations end alike on related machines. -/
def Sim (P : Change) (W : World) (x : Eval α) (y : Eval β) (Q : Stamps → α → β → Prop) : Prop :=
  ∀ m m', Machine.Related P W m m' → Relates P W Q (x.run m) (y.run m')

variable {P : Change} {V W : World} {Q R : Stamps → α → β → Prop} {S : Stamps → γ → δ → Prop}
variable {x : Eval α} {y : Eval β} {f : α → Eval γ} {g : β → Eval δ}

namespace Relates

variable {r : Outcome α} {s : Outcome β}

theorem forget (h : Relates P V Q r s) (hV : W.Extends V) : Relates P W Q r s := by
  cases h with
  | done hσ h hq =>
    refine .done (le_trans hV.stamps hσ) (h.forget (W := W) ?_) hq
    exact hV.trans (World.extends_grown V hσ)
  | failed e hσ h =>
    refine .failed e (le_trans hV.stamps hσ) (h.forget (W := W) ?_)
    exact hV.trans (World.extends_grown V hσ)
  | spoiled h => exact .spoiled h
  | exceeded h => exact .exceeded h

end Relates

namespace Sim

theorem pure {a : α} {b : β} (h : Q W.stamps a b) : Sim P W (pure a) (pure b) Q :=
  fun _ _ hm => .done (le_refl _) hm h

theorem throw (e : Halt RuntimeError) : Sim P W (throw e : Eval α) (throw e : Eval β) Q :=
  fun _ _ hm => .failed e (le_refl _) hm

theorem fail (e : RuntimeError) : Sim P W (Eval.fail e : Eval α) (Eval.fail e : Eval β) Q :=
  .throw _

theorem bind (hx : Sim P W x y Q)
    (hf : ∀ σ, W.stamps ≤ σ → ∀ a b, Q σ a b → Sim P (W.grown σ) (f a) (g b) S) :
    Sim P W (x >>= f) (y >>= g) S := by
  intro m m' hm
  have h := hx m m' hm
  rcases hr : x.run m with ⟨e | a, n⟩
  · rw [Eval.run_bind_error hr]
    rw [hr] at h
    generalize hs : y.run m' = s at h
    cases h with
    | failed _ hσ h => rw [Eval.run_bind_error hs]; exact .failed e hσ h
    | spoiled h => exact .spoiled h
    | exceeded h => rw [Eval.run_bind_error hs]; exact .exceeded h
  · rw [Eval.run_bind_ok hr]
    rw [hr] at h
    generalize hs : y.run m' = s at h
    cases h with
    | done hσ h hq =>
      rw [Eval.run_bind_ok hs]
      exact (hf _ hσ _ _ hq _ _ h).forget (World.extends_grown W hσ)
    | exceeded h => rw [Eval.run_bind_error hs]; exact .exceeded h

theorem map {k : α → γ} {k' : β → δ} (hx : Sim P W x y Q)
    (hk : ∀ σ, W.stamps ≤ σ → ∀ a b, Q σ a b → S σ (k a) (k' b)) :
    Sim P W (k <$> x) (k' <$> y) S := by
  rw [map_eq_pure_bind, map_eq_pure_bind]
  exact hx.bind fun σ hσ a b hq => .pure (hk σ hσ a b hq)

theorem get {f : Machine → Eval α} {g : Machine → Eval β}
    (h : ∀ m m', Machine.Related P W m m' → Relates P W Q ((f m).run m) ((g m').run m')) :
    Sim P W (get >>= f) (get >>= g) Q := h

theorem right {z : Eval γ} {c : γ} {k : γ → Eval β} (hV : W.Extends V)
    (hz : ∀ m m', Machine.Related P W m m' → ∃ n',
      z.run m' = (.ok c, n') ∧ Machine.Related P V m n')
    (h : Sim P V x (k c) Q) : Sim P W x (z >>= k) Q := by
  intro m m' hm
  obtain ⟨n', hrun, hn⟩ := hz m m' hm
  rw [Eval.run_bind_ok hrun]
  exact (h m n' hn).forget hV

theorem left {z : Eval γ} {c : γ} {k : γ → Eval α} (hV : W.Extends V)
    (hz : ∀ m m', Machine.Related P W m m' → ∃ n, z.run m = (.ok c, n) ∧ Machine.Related P V n m')
    (h : Sim P V (k c) y Q) : Sim P W (z >>= k) y Q := by
  intro m m' hm
  obtain ⟨n, hrun, hn⟩ := hz m m' hm
  rw [Eval.run_bind_ok hrun]
  exact (h n m' hn).forget hV

theorem update {k k' : Machine → Machine}
    (h : ∀ m m', Machine.Related P W m m' → Machine.Related P W (k m) (k' m')) :
    Sim P W (modify k : Eval Unit) (modify k' : Eval Unit) fun _ _ _ => True :=
  fun m m' hm => .done (le_refl _) (h m m' hm) trivial

theorem mapM {ε ε' : Type} {l : List ε} {l' : List ε'} {k : ε → Eval α} {k' : ε' → Eval β}
    (hQ : ∀ {σ τ a b}, Q σ a b → σ ≤ τ → Q τ a b)
    (h : List.Forall₂ (fun a a' => ∀ σ, W.stamps ≤ σ → Sim P (W.grown σ) (k a) (k' a') Q) l l')
    (hσ : W.stamps ≤ σ) :
    Sim P (W.grown σ) (l.mapM k) (l'.mapM k') fun σ => List.Forall₂ (Q σ) := by
  induction h generalizing σ with
  | nil => exact .pure .nil
  | cons ha _ ih =>
    rw [List.mapM_cons, List.mapM_cons]
    refine (ha σ hσ).bind fun τ hτ v v' hv => ?_
    refine (ih (le_trans hσ hτ)).bind fun υ hυ vs vs' hvs => .pure (.cons (hQ hv hυ) hvs)

theorem forM {ε ε' : Type} {l : List ε} {l' : List ε'} {k : ε → Eval Unit} {k' : ε' → Eval Unit}
    (h : List.Forall₂
      (fun a a' => ∀ σ, W.stamps ≤ σ → Sim P (W.grown σ) (k a) (k' a') fun _ _ _ => True) l l')
    (hσ : W.stamps ≤ σ) : Sim P (W.grown σ) (l.forM k) (l'.forM k') fun _ _ _ => True := by
  induction h generalizing σ with
  | nil => exact .pure trivial
  | cons ha _ ih => exact Sim.bind (ha σ hσ) fun τ hτ _ _ _ => ih (le_trans hσ hτ)

/-! ## Access to the machines -/

section
variable {env : Env} {name : String} {v v' : Value} {fr : FrameId}

theorem variableOf (hn : name ∉ P.temps) :
    Sim P W (Eval.variableOf env name) (Eval.variableOf env name) Value.Related := by
  refine .get fun m m' hm => ?_
  have h := hm.lookup env hn
  generalize m.lookup env name = o, m'.lookup env name = o' at h
  cases h with
  | none => exact .failed _ (le_refl _) hm
  | some hv => exact .done (le_refl _) hm hv

theorem declare (hn : name ∉ P.temps) (hv : v.Related W.stamps v') :
    Sim P W (Eval.declare env name v) (Eval.declare env name v') fun _ _ _ => True :=
  .update fun m m' hm => by
    cases env with
    | nil => exact hm
    | cons f env => exact hm.putIn f hn hv

theorem assign (hn : name ∉ P.temps) (hv : v.Related W.stamps v') :
    Sim P W (Eval.assign env name v) (Eval.assign env name v') fun _ _ _ => True := by
  refine .get fun m m' hm => ?_
  rw [hm.frameOf?_eq hn]
  cases m.frameOf? env name with
  | none => exact .failed _ (le_refl _) hm
  | some f => exact .done (le_refl _) (hm.putIn f hn hv) trivial

theorem innerEnv {bs bs' : Bindings} {k : Env → Eval α} {k' : Env → Eval β}
    (hbs : bs.Related P.temps W.stamps bs')
    (h : ∀ f, W.frames ≤ f → (∀ p ∈ W.pins, p.frame ≠ f) →
      Sim P (W.inner f) (k (f :: env)) (k' (f :: env)) Q) :
    Sim P W (Eval.innerEnv env bs >>= k) (Eval.innerEnv env bs' >>= k') Q := by
  intro m m' hm
  have hpins : ∀ p ∈ W.pins, p.frame ≠ m.frames.size := by
    intro p hp
    obtain ⟨-, w, hw, -⟩ := hm.pins p hp
    have := Machine.lt_of_lookup hw
    rw [hm.size_frames] at this
    exact Nat.ne_of_lt this
  have hrun : ∀ (m : Machine) (bs : Bindings),
      (Eval.innerEnv env bs).run m = (.ok (m.frames.size :: env), (m.newFrame bs).2) :=
    fun _ _ => rfl
  rw [Eval.run_bind_ok (hrun m bs), Eval.run_bind_ok (hrun m' bs'), hm.size_frames]
  exact (h _ hm.frames_le hpins _ _ (hm.newFrame hbs)).forget (World.extends_inner W hm.frames_le)

theorem property (key : String) (hv : v.Related W.stamps v') :
    Sim P W (Eval.property v key) (Eval.property v' key) Value.Related := by
  cases hv with
  | undefined | null => exact .fail _
  | bool | number | string => exact .pure .undefined
  | object i =>
    refine .get fun m m' hm => .done (le_refl _) hm ?_
    have h := hm.object i key (List.not_mem_nil)
    unfold Machine.object at h
    generalize (m.objects.getD i []).lookup key = o, (m'.objects.getD i []).lookup key = o' at h
    cases h with
    | none => exact .undefined
    | some hv => exact hv
  | function hf =>
    unfold Eval.property
    by_cases hk : key = "call"
    · dsimp only
      rw [if_pos hk, if_pos hk]
      intro m m' hm
      refine .done (fun _ _ => .inl) hm.newStamps (.function (.dotCall (.inr ⟨rfl, rfl⟩) ?_))
      exact hf.mono fun _ _ => .inl
    · dsimp only
      rw [if_neg hk, if_neg hk]
      exact .pure .undefined

theorem setProperty {w w' : Value} (key : String) (hv : v.Related W.stamps v')
    (hw : w.Related W.stamps w') :
    Sim P W (Eval.setProperty v key w) (Eval.setProperty v' key w') fun _ _ _ => True := by
  cases hv with
  | undefined | null => exact .fail _
  | bool | number | string | function => exact .pure trivial
  | object i => exact .update fun m m' hm => hm.setObject i key hw

theorem closure {c c' : Nat → Tree} (hp : Tree.paramNames c' = Tree.paramNames c)
    (hb : P.bodies (c 2).children (c' 2).children) :
    Sim P W (Eval.closure env c) (Eval.closure env c') Value.Related := by
  intro m m' hm
  have hc : Closure.Related P ⟨Tree.paramNames c, (c 2).children, env⟩
      ⟨Tree.paramNames c', (c' 2).children, env⟩ :=
    ⟨hp, rfl, hb⟩
  refine .done (le_refl _) (hm.newClosure hc) ?_
  rw [hm.size_closures]
  exact .function (.closure _)

theorem newObject {bs bs' : Bindings} (hbs : bs.Related [] W.stamps bs') :
    Sim P W (Eval.make (·.newObject bs)) (Eval.make (·.newObject bs')) Value.Related := by
  intro m m' hm
  refine .done (le_refl _) (hm.newObject hbs) ?_
  rw [hm.size_objects]
  exact .object _

/-! ## Temporaries -/

theorem declareTemp {k : Unit → Eval β} (hn : name ∈ P.temps) (hf : fr < W.frames)
    (hfree : ∀ p ∈ W.pins, p.frame = fr → p.name = name → p.value = none)
    (h : Sim P (W.pin ⟨fr, name, none⟩) x (k ()) Q) :
    Sim P W x (Eval.declare (fr :: env) name v >>= k) Q :=
  .right (World.extends_pin W _) (fun _ _ hm => ⟨_, rfl, hm.putTemp hn hf hfree (by simp)⟩) h

theorem assignTemp {k : Unit → Eval β} (hp : ⟨fr, name, none⟩ ∈ W.pins) (hf : fr < W.frames)
    (hfree : ∀ p ∈ W.pins, p.frame = fr → p.name = name → p.value = none)
    (h : Sim P (W.pin ⟨fr, name, some v⟩) x (k ()) Q) :
    Sim P W x (Eval.assign (fr :: env) name v >>= k) Q := by
  refine .right (c := ()) (World.extends_pin W ⟨fr, name, some v⟩) ?_ h
  intro m m' hm
  obtain ⟨hn, w, hw, -⟩ := hm.pins _ hp
  refine ⟨m'.putIn fr name v, ?_, hm.putTemp hn hf hfree ?_⟩
  · rw [Eval.assign, Eval.run_bind_ok (x := MonadState.get) (m := m') (v := m') rfl,
      Machine.frameOf?_head hw]
    rfl
  · simp

theorem readTemp {k : Value → Eval β} (hp : ⟨fr, name, some v⟩ ∈ W.pins) (h : Sim P W x (k v) Q) :
    Sim P W x (Eval.variableOf (fr :: env) name >>= k) Q := by
  refine .right (World.Extends.refl W) (fun m m' hm => ⟨m', ?_, hm⟩) h
  obtain ⟨-, w, hw, hval⟩ := hm.pins _ hp
  obtain rfl : w = v := hval v rfl
  rw [Eval.variableOf, Eval.run_bind_ok (x := MonadState.get) (m := m') (v := m') rfl,
    Machine.lookup_head hw]
  rfl

theorem readCall {f : Callee} {k : Value → Eval β}
    (h : ∀ s, Sim P W x (k (.function (.dotCall s f))) Q) :
    Sim P W x (Eval.property (.function f) "call" >>= k) Q := by
  intro m m' hm
  have hrun : (Eval.property (.function f) "call").run m' =
      (.ok (.function (.dotCall m'.stamps f)), { m' with stamps := m'.stamps + 1 }) := rfl
  rw [Eval.run_bind_ok hrun]
  exact h _ _ _ hm.newStamp

end

end Sim

end

end ChainLowering
