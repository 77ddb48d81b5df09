import ChainLowering.Proofs.CallSound
import ChainLowering.Proofs.EvalRules
import ChainLowering.Proofs.Soundness

/-!
# Links side by side

A link makes related references of related ones. Where lowering keeps a value
in a temporary the changed program assigns to it, and what it holds is pinned
until the link that needs it is run.
-/

namespace ChainLowering

open Eval Grown

namespace World

/-- Temporaries that are declared in a frame and hold nothing that is to stay. -/
def Open (W : World) (f : FrameId) (names : List String) : Prop :=
  ∀ s ∈ names, ⟨f, s, none⟩ ∈ W.pins ∧ ∀ p ∈ W.pins, p.frame = f → p.name = s → p.value = none

/-- `V` says more than `W`, but of a frame only what some temporaries hold. -/
structure Fills (W : World) (f : FrameId) (names : List String) (V : World) : Prop where
  more : W.Extends V
  pins : ∀ p ∈ V.pins, p ∈ W.pins ∨ p.frame = f ∧ p.name ∈ names

variable {U V W : World} {f : FrameId} {xs ys : List String} {s : String} {σ : Stamps}

theorem fills_refl (W : World) : W.Fills f xs W := ⟨.refl W, fun _ hp => .inl hp⟩

theorem Fills.trans (h : U.Fills f xs V) (h' : V.Fills f xs W) : U.Fills f xs W :=
  ⟨h.more.trans h'.more, fun p hp => (h'.pins p hp).elim (h.pins p) .inr⟩

theorem Fills.subset (h : W.Fills f xs V) (hs : xs ⊆ ys) : W.Fills f ys V :=
  ⟨h.more, fun p hp => (h.pins p hp).imp_right fun h => ⟨h.1, hs h.2⟩⟩

theorem fills_pin (hs : s ∈ xs) (o : Option Value) : W.Fills f xs (W.pin ⟨f, s, o⟩) := by
  refine ⟨extends_pin W _, fun p hp => ?_⟩
  rcases List.mem_cons.mp hp with rfl | hp
  · exact .inr ⟨rfl, hs⟩
  · exact .inl hp

theorem fills_grown (hσ : W.stamps ≤ σ) : W.Fills f xs (W.grown σ) :=
  ⟨extends_grown W hσ, fun _ hp => .inl hp⟩

theorem Fills.open (h : W.Fills f xs V) (ho : W.Open f ys) (hd : ∀ s ∈ ys, s ∉ xs) :
    V.Open f ys := by
  intro s hs
  obtain ⟨hmem, hnone⟩ := ho s hs
  refine ⟨h.more.pins hmem, fun p hp hf hn => ?_⟩
  rcases h.pins p hp with hp | ⟨-, hx⟩
  · exact hnone p hp hf hn
  · exact absurd (hn ▸ hx) (hd s hs)

end World

section
variable {α β : Type} {P : Change} {V W : World} {Q : Stamps → α → β → Prop} {x : Eval α}
    {fr : FrameId} {env : Env}
  {names : List String} {call call' : Caller} {d d' : Nat} {v v' : Value} {p p' : Value × Value}
    {l : Label} {ts ts' : List Tree}

/-! ## Temporaries -/

theorem Sim.assignOpen {s : String} {k : Unit → Eval β} (ho : W.Open fr names) (hs : s ∈ names)
    (hf : fr < W.frames) (h : Sim P (W.pin ⟨fr, s, some v⟩) x (k ()) Q) :
    Sim P W x (Eval.assign (fr :: env) s v >>= k) Q :=
  .assignTemp (ho s hs).1 hf (ho s hs).2 h

theorem Sim.kept {k : Unit → Eval β} (u : Option Temp) (ho : W.Open fr names)
    (hu : ∀ z ∈ u, z.name ∈ names) (hf : fr < W.frames)
    (h : ∀ V, W.Fills fr names V → (∀ z ∈ u, ⟨fr, z.name, some v⟩ ∈ V.pins) → Sim P V x (k ()) Q) :
    Sim P W x (Temp.kept (fr :: env) u v >>= k) Q := by
  cases u with
  | none => exact h W (World.fills_refl W) fun _ hz => nomatch hz
  | some z =>
    refine .assignOpen ho (hu z rfl) hf (h _ (World.fills_pin (hu z rfl) _) ?_)
    intro y hy
    obtain rfl := Option.some.inj hy
    exact List.mem_cons_self

theorem Sim.readUse {z : Temp} {k : Value → Eval β} (hz : ⟨fr, z.name, some v⟩ ∈ W.pins)
    (h : Sim P W x (k v) Q) :
    Sim P W x (value call' (fr :: env) z.use.toTree >>= k) Q := by
  rw [value_use]
  exact .readTemp hz h

/-! ## Links -/

/-- Trees that have related values, whatever stamps belong together by then. -/
def Alike (P : Change) (W : World) (call call' : Caller) (env : Env) (t t' : Tree) : Prop :=
  ∀ σ, W.stamps ≤ σ → Sim P (W.grown σ) (value call env t) (value call' env t') Value.Related

/-- Two references that are there. -/
structure Pair (σ : Stamps) (p p' : Value × Value) : Prop where
  value : p.1.Related σ p'.1
  this : p.2.Related σ p'.2

/-- Two references to values that no `this` belongs to. -/
inductive Results (σ : Stamps) : Reference → Reference → Prop
  | plain {v v' : Value} (h : v.Related σ v') : Results σ (plain v) (plain v')

theorem Sim.keyOf (l : Label) (hts : List.Forall₂ (Alike P W call call' env) ts ts') :
    Sim P W (keyOf call env l ts) (keyOf call' env l ts') fun _ s s' => s' = s := by
  by_cases hl : l.plain.kind = .getProp
  · rw [Eval.keyOf, Eval.keyOf, if_pos hl, if_pos hl]
    exact .pure rfl
  · rw [Eval.keyOf, Eval.keyOf, if_neg hl, if_neg hl]
    have hfirst : Alike P W call call' env (ts.getD 0 .absent) (ts'.getD 0 .absent) := by
      cases hts with
      | nil => exact fun _ _ => .map (.fail _) fun _ _ _ _ h => h
      | cons h _ => exact h
    exact .map (hfirst _ (le_refl _)) fun _ _ _ _ h => h.text_eq

theorem Sim.access (l : Label) (hv : v.Related W.stamps v')
    (hts : List.Forall₂ (Alike P W call call' env) ts ts') :
    Sim P W (access call env l ts v) (access call' env l ts' v')
      fun σ r r' => ∃ w w', r = some (w, v) ∧ r' = some (w', v') ∧ Pair σ (w, v) (w', v') := by
  refine (Sim.keyOf l hts).bind fun σ hσ s s' hs => ?_
  obtain rfl := hs
  refine (Sim.property (W := W.grown σ) s' (hv.mono hσ)).bind fun τ hτ w w' hw => .pure ?_
  exact ⟨w, w', rfl, rfl, hw, hv.mono (le_trans hσ hτ)⟩

theorem Sim.apply (hc : Calls P d d' call call') (hd : W.depth = d) (hd' : W.depth' = d')
    (hp : Pair W.stamps p p') (hts : List.Forall₂ (Alike P W call call' env) ts ts') :
    Sim P W (apply call env ts p) (apply call' env ts' p') Results := by
  refine Sim.bind (.mapM (fun h hσ => h.mono hσ) hts (le_refl _)) fun σ hσ vs vs' hvs => ?_
  refine (hc.same (W := W.grown σ) hd hd' (hp.value.mono hσ) (hp.this.mono hσ) hvs).bind
    fun τ _ w w' hw => .pure (.plain hw)

theorem Sim.member {f f' : Callee} {this this' : Value} {u : Temp} (hc : Calls P d d' call call')
    (hd : W.depth = d) (hd' : W.depth' = d') (hf : f.Related W.stamps f')
    (hthis : this.Related W.stamps this') (hu : ⟨fr, u.name, some this'⟩ ∈ W.pins)
    (hts : List.Forall₂ (Alike P W call call' (fr :: env)) ts ts') :
    Sim P W (Eval.apply call (fr :: env) ts (.function f, this))
      (Eval.property (.function f') "call" >>= fun w =>
        Eval.apply call' (fr :: env) (u.use.toTree :: ts') (w, .function f'))
      Results := by
  refine .readCall fun s => ?_
  rw [Eval.apply, Eval.apply, List.mapM_cons, bind_assoc]
  refine .readUse hu ?_
  rw [bind_assoc]
  refine Sim.bind (.mapM (fun h hσ => h.mono hσ) hts (le_refl _)) fun σ hσ vs vs' hvs => ?_
  rw [pure_bind]
  refine (hc.member (W := W.grown σ) hd hd' (hf.mono hσ) (hthis.mono hσ) hvs s (.function f')).bind
    fun τ _ w w' hw => .pure (.plain hw)

theorem spoils_apply {form : CallForm} {callee : Tree} (hc : Calls P d d' call call')
    (hform : callForm? l callee = some form) (hp : form.fits p.1 = false) :
    Spoils (noteCallee l callee p.1 >>= fun _ => Eval.apply call env ts p) := by
  rw [noteCallee, hform]
  have hargs := stable_misfit.closed.mapM ts fun t _ => stable_misfit.closed.value hc.keeps env t
  refine spoils_note hp hargs fun vs m => ?_
  obtain ⟨e, he⟩ := hc.fails hp p.2 vs m
  exact ⟨e, run_bind_error he⟩

theorem callForm?_plain (hl : l.kind.isChain = false) (c : Grown) : callForm? l c.toTree =
    if c.label.kind.isChain && c.label.plain.kind.isGet then some .calledChain else none := by
  rw [callForm?, hl, kind?_toTree]
  change _ = if c.label.kind.isChain && (c.label.kind.plain?.getD c.label.kind).isGet then _ else _
  cases c.label.kind <;> rfl

theorem callForm?_chain (hl : l.kind.isChain = true) (c : Grown) : callForm? l c.toTree =
    if l.chainStart && c.label.plain.kind.isGet then some .optionalMember else none := by
  rw [callForm?, hl, kind?_toTree]
  change _ = if l.chainStart && (c.label.kind.plain?.getD c.label.kind).isGet then _ else _
  cases l.chainStart <;> cases c.label.kind <;> rfl

theorem noteCallee_none {callee : Tree} (h : callForm? l callee = none) (v : Value) :
    noteCallee l callee v = pure () := by
  rw [noteCallee, h]

theorem Sim.noted {form : CallForm} {callee : Tree} {k : Unit → Eval α} {y : Eval β}
    (hform : callForm? l callee = some form) (hv : form.fits v = true) (h : Sim P W (k ()) y Q) :
    Sim P W (noteCallee l callee v >>= k) y Q := by
  rw [noteCallee, hform]
  exact .left (.refl W) (fun m m' hm => ⟨m.note form v, rfl, hm.note hv⟩) h

/-! ## What comes after a link -/

section
variable {γ δ : Type} {S : Stamps → γ → δ → Prop} {f : Reference → Eval γ} {g : Reference → Eval δ}

theorem Sim.accessThen (l : Label) (u : Option Temp) (ho : W.Open fr names)
    (hu : ∀ z ∈ u, z.name ∈ names) (hf : fr < W.frames) (hv : v.Related W.stamps v')
    (hts : ∀ V, W.Fills fr names V → List.Forall₂ (Alike P V call call' (fr :: env)) ts ts')
    (hgo : ∀ V w w', W.Fills fr names V → (∀ z ∈ u, ⟨fr, z.name, some v'⟩ ∈ V.pins) →
      Pair V.stamps (w, v) (w', v') → Sim P V (f (some (w, v))) (g (some (w', v'))) S) :
    Sim P W (Eval.access call (fr :: env) l ts v >>= f)
      (Temp.kept (fr :: env) u v' >>= fun _ => Eval.access call' (fr :: env) l ts' v' >>= g) S := by
  refine .kept u ho hu hf fun V hV hpins => ?_
  refine (Sim.access l (hv.mono hV.more.stamps) (hts V hV)).bind fun σ hσ r r' hr => ?_
  obtain ⟨w, w', rfl, rfl, hpair⟩ := hr
  exact hgo (V.grown σ) w w' (hV.trans (World.fills_grown hσ)) hpins hpair

/-- A call that needs its object, and what lowering makes of it. -/
theorem Sim.callWithObject {form : CallForm} {callee : Tree} {u : Temp}
    (hc : Calls P d d' call call') (hd : W.depth = d) (hd' : W.depth' = d')
    (hform : callForm? l callee = some form) (hp : Pair W.stamps p p')
    (hn : form.fits p.1 = true → p.1.isNullish = false) (hu : ⟨fr, u.name, some p'.2⟩ ∈ W.pins)
    (hts : List.Forall₂ (Alike P W call call' (fr :: env)) ts ts') :
    Sim P W (noteCallee l callee p.1 >>= fun _ => Eval.apply call (fr :: env) ts p)
      (Eval.property p'.1 "call" >>= fun w => Eval.apply call' (fr :: env) (u.use.toTree :: ts')
        (w, p'.1)) Results := by
  by_cases hfit : form.fits p.1 = true
  · refine .noted hform hfit ?_
    obtain ⟨v, this⟩ := p
    obtain ⟨v', this'⟩ := p'
    obtain ⟨hv, hthis⟩ := hp
    cases hv with
    | function hf => exact .member hc hd hd' hf hthis hu hts
    | undefined | null => exact absurd (hn hfit) Bool.noConfusion
    | bool | number | string | object =>
        exact absurd hfit (by simp [CallForm.fits, Value.isNullish])
  · exact .spoiled (spoils_apply hc hform (by simpa using hfit))

end

end

end ChainLowering
