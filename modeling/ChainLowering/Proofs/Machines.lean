import Mathlib.Data.List.Forall2
import ChainLowering.Proofs.Values

/-!
# Related machines

A program and the one it is changed to run side by side. Their machines have
the same frames, objects and functions in the same places, with related values.
The changed program has names of its own, the temporaries; what these hold is
pinned down where it matters.
-/

namespace ChainLowering

structure Change where
  /-- Names that only the changed program uses. -/
  temps : List String
  /-- Which function bodies belong together. -/
  bodies : List Tree → List Tree → Prop
  this : "this" ∉ temps
  /-- The name of what has no name. -/
  empty : "" ∉ temps
  nil : bodies [] []

/-- A temporary that is declared in a frame, with its value if that is to stay. -/
structure Pin where
  frame : FrameId
  name : String
  value : Option Value

/-- What two runs have in common up to now. -/
structure World where
  stamps : Stamps
  pins : List Pin
  /-- There are at least so many frames. -/
  frames : Nat
  /-- Depths of calls. -/
  depth : Nat
  depth' : Nat

namespace World

def grown (W : World) (σ : Stamps) : World := { W with stamps := σ }

def pin (W : World) (p : Pin) : World := { W with pins := p :: W.pins }

def inner (W : World) (f : FrameId) : World := { W with frames := f + 1 }

def deeper (W : World) : World := { W with depth := W.depth + 1 }

def deeper' (W : World) : World := { W with depth' := W.depth' + 1 }

@[simp] theorem stamps_grown (W : World) (σ : Stamps) : (W.grown σ).stamps = σ := rfl
@[simp] theorem pins_grown (W : World) (σ : Stamps) : (W.grown σ).pins = W.pins := rfl
@[simp] theorem frames_grown (W : World) (σ : Stamps) : (W.grown σ).frames = W.frames := rfl
@[simp] theorem depth_grown (W : World) (σ : Stamps) : (W.grown σ).depth = W.depth := rfl
@[simp] theorem depth'_grown (W : World) (σ : Stamps) : (W.grown σ).depth' = W.depth' := rfl
@[simp] theorem grown_grown (W : World) (σ τ : Stamps) : (W.grown σ).grown τ = W.grown τ := rfl
@[simp] theorem grown_stamps (W : World) : W.grown W.stamps = W := rfl
@[simp] theorem stamps_pin (W : World) (p : Pin) : (W.pin p).stamps = W.stamps := rfl
@[simp] theorem pins_pin (W : World) (p : Pin) : (W.pin p).pins = p :: W.pins := rfl
@[simp] theorem frames_pin (W : World) (p : Pin) : (W.pin p).frames = W.frames := rfl
@[simp] theorem depth_pin (W : World) (p : Pin) : (W.pin p).depth = W.depth := rfl
@[simp] theorem depth'_pin (W : World) (p : Pin) : (W.pin p).depth' = W.depth' := rfl
@[simp] theorem grown_pin (W : World) (p : Pin) (σ : Stamps) :
    (W.pin p).grown σ = (W.grown σ).pin p := rfl

/-- `V` says what `W` says, and maybe more. -/
structure Extends (W V : World) : Prop where
  stamps : W.stamps ≤ V.stamps
  pins : W.pins ⊆ V.pins
  frames : W.frames ≤ V.frames
  depth : V.depth = W.depth
  depth' : V.depth' = W.depth'

theorem Extends.refl (W : World) : W.Extends W :=
  ⟨le_refl _, List.Subset.refl _, Nat.le_refl _, rfl, rfl⟩

theorem Extends.trans {U V W : World} (h : U.Extends V) (h' : V.Extends W) : U.Extends W where
  stamps := le_trans h.stamps h'.stamps
  pins := List.Subset.trans h.pins h'.pins
  frames := Nat.le_trans h.frames h'.frames
  depth := h'.depth.trans h.depth
  depth' := h'.depth'.trans h.depth'

theorem extends_pin (W : World) (p : Pin) : W.Extends (W.pin p) :=
  ⟨le_refl _, List.subset_cons_self _ _, Nat.le_refl _, rfl, rfl⟩

theorem extends_grown (W : World) {σ : Stamps} (h : W.stamps ≤ σ) : W.Extends (W.grown σ) :=
  ⟨h, List.Subset.refl _, Nat.le_refl _, rfl, rfl⟩

theorem extends_inner (W : World) {f : FrameId} (h : W.frames ≤ f) : W.Extends (W.inner f) :=
  ⟨le_refl _, List.Subset.refl _, Nat.le_succ_of_le h, rfl, rfl⟩

end World

/-- Lowering can tell the callee from other values: it is a function, or the call ends early. -/
def CallForm.fits (form : CallForm) : Value → Bool
  | .function _ => true
  | v => form = .optionalMember && v.isNullish

theorem CallForm.isNullish_of_fits {v : Value} (h : calledChain.fits v = true) :
    v.isNullish = false := by
  cases v <;> first | rfl | cases h

def Finding.fits (f : Finding) : Bool := f.form.fits f.callee

namespace Machine

def frame (m : Machine) (f : FrameId) : Bindings := m.frames.getD f []

def object (m : Machine) (i : Nat) : Bindings := m.objects.getD i []

def Fits (m : Machine) : Prop := ∀ f ∈ m.findings.toList, f.fits = true

end Machine

/-- A function that does not look at stamps. -/
def Native.Uniform (n : Native) : Prop :=
    ∀ σ args args', List.Forall₂ (Value.Related σ) args args' →
  (n args').1 = (n args).1 ∧ ((∃ v v', (n args).2 = .ok v ∧ (n args').2 = .ok v' ∧ v.Related σ v') ∨
    ∃ e, (n args).2 = .error e ∧ (n args').2 = .error e)

structure Closure.Related (P : Change) (c c' : Closure) : Prop where
  params : c'.params = c.params
  env : c'.env = c.env
  body : P.bodies c.body c'.body

/-- Both machines have what the world says, and the same of all that programs can see. -/
structure Machine.Related (P : Change) (W : World) (m m' : Machine) : Prop where
  oneToOne : W.stamps.OneToOne
  bound : ∀ {s s'}, W.stamps s s' → s < m.stamps ∧ s' < m'.stamps
  size_frames : m'.frames.size = m.frames.size
  frames_le : W.frames ≤ m.frames.size
  frame : ∀ f, (m.frame f).Related P.temps W.stamps (m'.frame f)
  size_objects : m'.objects.size = m.objects.size
  object : ∀ i, (m.object i).Related [] W.stamps (m'.object i)
  size_closures : m'.closures.size = m.closures.size
  closure : ∀ i, (m.closures.getD i {}).Related P (m'.closures.getD i {})
  natives : m'.natives = m.natives
  uniform : ∀ i : Nat, ((m.natives[i]?).getD Native.inert).Uniform
  output : m'.output = m.output
  depth : m.depth = W.depth
  depth' : m'.depth = W.depth'
  /-- Only calls of the first program are looked at. -/
  fits : m.Fits
  reached : m'.depth ≤ m'.peak
  pins : ∀ p ∈ W.pins, p.name ∈ P.temps ∧ ∃ v, (m'.frame p.frame).lookup p.name = some v ∧
    ∀ w ∈ p.value, v = w

section
variable {α : Type}

theorem getD_modify (xs : Array α) (j i : Nat) (f : α → α) (d : α) :
    (xs.modify j f).getD i d = if i = j ∧ j < xs.size then f (xs.getD i d) else xs.getD i d := by
  simp only [Array.getD_eq_getD_getElem?, Array.getElem?_modify]
  by_cases hi : j = i
  · subst hi
    by_cases hj : j < xs.size
    · simp [hj]
    · simp [hj]
  · have : ¬i = j := fun e => hi e.symm
    simp [hi, this]

theorem getD_push (xs : Array α) (x : α) (i : Nat) (d : α) :
    (xs.push x).getD i d = if i = xs.size then x else xs.getD i d := by
  simp only [Array.getD_eq_getD_getElem?, Array.getElem?_push]
  by_cases hi : i = xs.size
  · simp [hi]
  · simp [hi]

end

namespace Machine

variable {m : Machine} {f g : FrameId} {name : String} {v : Value}

theorem frame_putIn (m : Machine) (f : FrameId) (name : String) (v : Value) (g : FrameId) :
    (m.putIn f name v).frame g = if g = f ∧
      f < m.frames.size then (m.frame g).put name v else m.frame g :=
  getD_modify ..

theorem frame_newFrame (m : Machine) (bs : Bindings) (g : FrameId) :
    (m.newFrame bs).2.frame g = if g = m.frames.size then bs else m.frame g :=
  getD_push ..

theorem lt_of_lookup (h : (m.frame f).lookup name = some v) : f < m.frames.size := by
  by_contra hf
  have : m.frame f = [] := by simp [frame, hf]
  rw [this] at h
  cases h

theorem fits_note {form : CallForm} (h : m.Fits) (hv : form.fits v = true) :
    (m.note form v).Fits := by
  intro f hf
  simp only [Machine.note, Array.toList_push, List.mem_append, List.mem_singleton] at hf
  rcases hf with hf | rfl
  · exact h f hf
  · exact hv

/-! ## The innermost frame of a name -/

theorem lookup_eq (m : Machine) (env : Env) (name : String) :
    m.lookup env name = (m.frameOf? env name).bind fun f => (m.frame f).lookup name := by
  unfold lookup frameOf?
  induction env with
  | nil => rfl
  | cons f env ih =>
    rw [List.findSome?_cons, List.find?_cons]
    cases h : (m.frames.getD f []).lookup name with
    | none => exact ih
    | some v => exact h.symm

theorem frameOf?_head {env : Env} (h : (m.frame f).lookup name = some v) :
    m.frameOf? (f :: env) name = some f := by
  have : ((m.frames.getD f []).lookup name).isSome = true := by
    rw [show (m.frames.getD f []).lookup name = some v from h]
    rfl
  exact List.find?_cons_of_pos this

theorem lookup_head {env : Env} (h : (m.frame f).lookup name = some v) :
    m.lookup (f :: env) name = some v := by
  rw [lookup_eq, frameOf?_head h]
  exact h

end Machine

namespace Machine.Related

variable {P : Change} {W : World} {m m' : Machine} {σ : Stamps} {env : Env} {name : String}
    {v v' : Value}

theorem isSome_lookup (h : Related P W m m') (f : FrameId) (hn : name ∉ P.temps) :
    ((m'.frame f).lookup name).isSome = ((m.frame f).lookup name).isSome := by
  have := h.frame f name hn
  generalize (m.frame f).lookup name = o, (m'.frame f).lookup name = o' at this
  cases this <;> rfl

theorem frameOf?_eq (h : Related P W m m') (hn : name ∉ P.temps) :
    m'.frameOf? env name = m.frameOf? env name := by
  unfold frameOf?
  congr
  funext f
  exact h.isSome_lookup f hn

theorem lookup (h : Related P W m m') (env : Env) (hn : name ∉ P.temps) :
    Option.Rel (Value.Related W.stamps) (m.lookup env name) (m'.lookup env name) := by
  rw [lookup_eq, lookup_eq, h.frameOf?_eq hn]
  cases m.frameOf? env name with
  | none => exact .none
  | some f => exact h.frame f name hn

theorem forget {V : World} (h : Related P V m m') (hV : W.Extends V) :
    Related P (W.grown V.stamps) m m' where
  __ := h
  frames_le := Nat.le_trans hV.frames h.frames_le
  depth := h.depth.trans hV.depth
  depth' := h.depth'.trans hV.depth'
  pins p hp := h.pins p (hV.pins hp)

theorem putIn (h : Related P W m m') (f : FrameId) (hn : name ∉ P.temps)
    (hv : v.Related W.stamps v') :
    Related P W (m.putIn f name v) (m'.putIn f name v') where
  __ := h
  size_frames := by simpa [Machine.putIn] using h.size_frames
  frames_le := by simpa [Machine.putIn] using h.frames_le
  frame g := by
    rw [frame_putIn, frame_putIn, h.size_frames]
    by_cases hg : g = f ∧ f < m.frames.size
    · rw [if_pos hg, if_pos hg]; exact (h.frame g).put name hv
    · rw [if_neg hg, if_neg hg]; exact h.frame g
  pins p hp := by
    obtain ⟨hname, w, hw, hval⟩ := h.pins p hp
    refine ⟨hname, w, ?_, hval⟩
    rw [frame_putIn]
    by_cases hg : p.frame = f ∧ f < m'.frames.size
    · rw [if_pos hg, Bindings.lookup_put, if_neg fun e : p.name = name => hn (e ▸ hname)]; exact hw
    · rw [if_neg hg]; exact hw

theorem putTemp {f : FrameId} {o : Option Value} (h : Related P W m m') (hn : name ∈ P.temps)
    (hf : f < W.frames) (hpin : ∀ p ∈ W.pins, p.frame = f → p.name = name → p.value = none)
    (ho : ∀ w ∈ o, v = w) :
    Related P (W.pin ⟨f, name, o⟩) m (m'.putIn f name v) where
  __ := h
  size_frames := by simpa [Machine.putIn] using h.size_frames
  frame g := by
    rw [frame_putIn]
    by_cases hg : g = f ∧ f < m'.frames.size
    · rw [if_pos hg]; exact (h.frame g).put_right hn v
    · rw [if_neg hg]; exact h.frame g
  pins p hp := by
    have hlt : f < m'.frames.size := by
      rw [h.size_frames]
      exact Nat.lt_of_lt_of_le hf h.frames_le
    rcases List.mem_cons.mp hp with rfl | hp
    · refine ⟨hn, v, ?_, ho⟩
      rw [frame_putIn, if_pos ⟨rfl, hlt⟩, Bindings.lookup_put, if_pos rfl]
    · obtain ⟨hname, w, hw, hval⟩ := h.pins p hp
      rw [frame_putIn]
      -- a pin about the same temporary says no value, so it is true of any
      by_cases hg : p.frame = f ∧ f < m'.frames.size
      · rw [if_pos hg, Bindings.lookup_put]
        by_cases he : p.name = name
        · rw [if_pos he]
          refine ⟨hname, v, rfl, fun u hu => ?_⟩
          rw [hpin p hp hg.1 he] at hu
          cases hu
        · rw [if_neg he]; exact ⟨hname, w, hw, hval⟩
      · rw [if_neg hg]; exact ⟨hname, w, hw, hval⟩

theorem newFrame {bs bs' : Bindings} (h : Related P W m m')
    (hbs : bs.Related P.temps W.stamps bs') :
    Related P (W.inner m.frames.size) (m.newFrame bs).2 (m'.newFrame bs').2 where
  __ := h
  size_frames := by simpa [Machine.newFrame] using h.size_frames
  frames_le := by simp [Machine.newFrame, World.inner]
  frame g := by
    rw [frame_newFrame, frame_newFrame, h.size_frames]
    by_cases hg : g = m.frames.size
    · rw [if_pos hg, if_pos hg]; exact hbs
    · rw [if_neg hg, if_neg hg]; exact h.frame g
  pins p hp := by
    obtain ⟨hname, w, hw, hval⟩ := h.pins p hp
    have hlt := lt_of_lookup hw
    refine ⟨hname, w, ?_, hval⟩
    rw [frame_newFrame, if_neg (Nat.ne_of_lt hlt)]
    exact hw

theorem setObject (h : Related P W m m') (i : Nat) (key : String) (hv : v.Related W.stamps v') :
    Related P W { m with objects := m.objects.modify i (Bindings.put key v) }
      { m' with objects := m'.objects.modify i (Bindings.put key v') } where
  __ := h
  size_objects := by simpa using h.size_objects
  object j := by
    simp only [Machine.object, getD_modify, h.size_objects]
    by_cases hj : j = i ∧ i < m.objects.size
    · rw [if_pos hj, if_pos hj]; exact (h.object j).put key hv
    · rw [if_neg hj, if_neg hj]; exact h.object j

theorem newObject {bs bs' : Bindings} (h : Related P W m m') (hbs : bs.Related [] W.stamps bs') :
    Related P W (m.newObject bs).2 (m'.newObject bs').2 where
  __ := h
  size_objects := by simpa [Machine.newObject] using h.size_objects
  object j := by
    simp only [Machine.object, Machine.newObject, getD_push, h.size_objects]
    by_cases hj : j = m.objects.size
    · rw [if_pos hj, if_pos hj]; exact hbs
    · rw [if_neg hj, if_neg hj]; exact h.object j

theorem newClosure {c c' : Closure} (h : Related P W m m') (hc : c.Related P c') :
    Related P W (m.newClosure c).2 (m'.newClosure c').2 where
  __ := h
  size_closures := by simpa [Machine.newClosure] using h.size_closures
  closure j := by
    simp only [Machine.newClosure, getD_push, h.size_closures]
    by_cases hj : j = m.closures.size
    · rw [if_pos hj, if_pos hj]; exact hc
    · rw [if_neg hj, if_neg hj]; exact h.closure j

theorem newStamps (h : Related P W m m') :
    Related P (W.grown fun s s' => W.stamps s s' ∨ s = m.stamps ∧ s' = m'.stamps)
      { m with stamps := m.stamps + 1 } { m' with stamps := m'.stamps + 1 } where
  __ := h
  oneToOne := by
    intro s s' t t' hs ht
    -- stamps that were given before are below the counters, so they are not the new ones
    rcases hs with hs | ⟨rfl, rfl⟩
    · rcases ht with ht | ⟨rfl, rfl⟩
      · exact h.oneToOne hs ht
      · have := h.bound hs; omega
    · rcases ht with ht | ⟨rfl, rfl⟩
      · have := h.bound ht; omega
      · simp
  bound := by
    intro s s' hs
    rcases hs with hs | ⟨rfl, rfl⟩
    · have := h.bound hs
      exact ⟨by simp only; omega, by simp only; omega⟩
    · exact ⟨by simp, by simp⟩
  frame f := (h.frame f).mono fun _ _ => .inl
  object i := (h.object i).mono fun _ _ => .inl

theorem newStamp (h : Related P W m m') : Related P W m { m' with stamps := m'.stamps + 1 } where
  __ := h
  bound e := ⟨(h.bound e).1, Nat.lt_succ_of_lt (h.bound e).2⟩

theorem print (h : Related P W m m') (lines : List String) :
    Related P W (m.print lines) (m'.print lines) where
  __ := h
  output := by simp [Machine.print, h.output]

theorem enter (h : Related P W m m') : Related P W.deeper.deeper' m.enter m'.enter where
  __ := h
  depth := congrArg (· + 1) h.depth
  depth' := congrArg (· + 1) h.depth'
  reached := Nat.le_max_right ..

theorem enterRight (h : Related P W m m') : Related P W.deeper' m m'.enter where
  __ := h
  depth' := congrArg (· + 1) h.depth'
  reached := Nat.le_max_right ..

theorem leave (h : Related P W.deeper.deeper' m m') : Related P W m.leave m'.leave where
  __ := h
  depth := congrArg (· - 1) h.depth
  depth' := congrArg (· - 1) h.depth'
  reached := Nat.le_trans (Nat.sub_le _ _) h.reached

theorem leaveRight (h : Related P W.deeper' m m') : Related P W m m'.leave where
  __ := h
  depth' := congrArg (· - 1) h.depth'
  reached := Nat.le_trans (Nat.sub_le _ _) h.reached

theorem note {form : CallForm} (h : Related P W m m') (hv : form.fits v = true) :
    Related P W (m.note form v) m' where
  __ := h
  fits := fits_note h.fits hv

end Machine.Related

end ChainLowering
