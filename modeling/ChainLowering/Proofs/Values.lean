import Mathlib.Order.Basic
import ChainLowering.Run.Eval

/-!
# Related values

Two runs may read `call` from functions at different times, so the functions
that come of it have other stamps. Values are related when they are the same
up to such stamps.
-/

namespace ChainLowering

/-- Which stamps of two runs belong together. -/
abbrev Stamps := Nat → Nat → Prop

def Stamps.OneToOne (σ : Stamps) : Prop := ∀ {s s' t t'}, σ s s' → σ t t' → (s = t ↔ s' = t')

inductive Callee.Related (σ : Stamps) : Callee → Callee → Prop
  | closure (i : Nat) : Related σ (closure i) (closure i)
  | native (i : Nat) : Related σ (native i) (native i)
  | dotCall {s s' : Nat} {f f' : Callee} (hs : σ s s') (h : Related σ f f') :
      Related σ (dotCall s f) (dotCall s' f')

inductive Value.Related (σ : Stamps) : Value → Value → Prop
  | undefined : Related σ undefined undefined
  | null : Related σ null null
  | bool (b : Bool) : Related σ (bool b) (bool b)
  | number (x : Float) : Related σ (number x) (number x)
  | string (s : String) : Related σ (string s) (string s)
  | object (i : Nat) : Related σ (object i) (object i)
  | function {f f' : Callee} (h : f.Related σ f') : Related σ (function f) (function f')

/-- The same names with related values, some names left out. -/
def Bindings.Related (skip : List String) (σ : Stamps) (bs bs' : Bindings) : Prop :=
  ∀ name, name ∉ skip → Option.Rel (Value.Related σ) (bs.lookup name) (bs'.lookup name)

section
variable {σ τ : Stamps} {f f' g g' : Callee} {v v' w w' : Value} {skip : List String}
    {bs bs' : Bindings} {name : String}

theorem Callee.Related.mono (h : f.Related σ f') (hσ : σ ≤ τ) : f.Related τ f' := by
  induction h with
  | closure i => exact .closure i
  | native i => exact .native i
  | dotCall hs _ ih => exact .dotCall (hσ _ _ hs) ih

theorem Callee.Related.eq_iff (hσ : σ.OneToOne) (hf : f.Related σ f') (hg : g.Related σ g') :
    f = g ↔ f' = g' := by
  induction hf generalizing g g' with
  | closure i => cases hg <;> simp
  | native i => cases hg <;> simp
  | dotCall hs _ ih =>
    cases hg with
    | closure i => simp
    | native i => simp
    | dotCall ht hg => simp only [Callee.dotCall.injEq, hσ hs ht, ih hg]

namespace Value.Related

theorem mono (h : v.Related σ v') (hσ : σ ≤ τ) : v.Related τ v' := by
  cases h with
  | function h => exact .function (h.mono hσ)
  | _ => constructor

theorem text_eq (h : v.Related σ v') : v'.text = v.text := by
  cases h <;> rfl

theorem isNullish_eq (h : v.Related σ v') : v'.isNullish = v.isNullish := by
  cases h <;> rfl

theorem toBool_eq (h : v.Related σ v') : v'.toBool = v.toBool := by
  cases h <;> rfl

theorem strictEquals_eq (hσ : σ.OneToOne) (hv : v.Related σ v') (hw : w.Related σ w') :
    v'.strictEquals w' = v.strictEquals w := by
  cases hv with
  | function hf =>
    cases hw with
    | function hg =>
      unfold Value.strictEquals
      exact decide_eq_decide.mpr (hf.eq_iff hσ hg).symm
    | _ => rfl
  | _ => cases hw <;> rfl

theorem looseEquals_eq (hσ : σ.OneToOne) (hv : v.Related σ v') (hw : w.Related σ w') :
    v'.looseEquals w' = v.looseEquals w := by
  have hs := strictEquals_eq hσ hv hw
  unfold Value.looseEquals
  rw [hv.isNullish_eq, hw.isNullish_eq]
  by_cases hn : (v.isNullish || w.isNullish) = true
  · rw [if_pos hn, if_pos hn]
  · rw [if_neg hn, if_neg hn]
    cases hv <;> cases hw <;> first | rfl | exact hs

theorem compare_eq (hσ : σ.OneToOne) (k : Kind) (hv : v.Related σ v') (hw : w.Related σ w') :
    Eval.compare k v' w' = Eval.compare k v w := by
  unfold Eval.compare
  rw [looseEquals_eq hσ hv hw, strictEquals_eq hσ hv hw]

end Value.Related

/-! ## Bindings -/

theorem Bindings.lookup_put (name : String) (v : Value) (bs : Bindings) (k : String) :
    (bs.put name v).lookup k = if k = name then some v else bs.lookup k := by
  induction bs with
  | nil =>
    unfold Bindings.put
    rw [List.lookup_cons]
    by_cases h : k = name
    · simp [h]
    · simp [beq_false_of_ne h, h]
  | cons b bs ih =>
    obtain ⟨n, w⟩ := b
    unfold Bindings.put
    by_cases hn : n = name
    · subst hn
      rw [if_pos rfl, List.lookup_cons, List.lookup_cons]
      by_cases h : k = n
      · simp [h]
      · simp [beq_false_of_ne h, h]
    · rw [if_neg hn, List.lookup_cons, List.lookup_cons, ih]
      by_cases h : k = n
      · subst h; simp [hn]
      · simp [beq_false_of_ne h]

namespace Bindings.Related

theorem mono (h : Bindings.Related skip σ bs bs') (hσ : σ ≤ τ) :
    Bindings.Related skip τ bs bs' := by
  intro name hn
  have := h name hn
  generalize bs.lookup name = o, bs'.lookup name = o' at this
  cases this with
  | none => exact .none
  | some hv => exact .some (hv.mono hσ)

theorem nil : Bindings.Related skip σ [] [] := fun _ _ => .none

theorem put (h : Bindings.Related skip σ bs bs') (name : String) (hv : v.Related σ v') :
    Bindings.Related skip σ (bs.put name v) (bs'.put name v') := by
  intro k hk
  rw [lookup_put, lookup_put]
  by_cases he : k = name
  · rw [if_pos he, if_pos he]; exact .some hv
  · rw [if_neg he, if_neg he]; exact h k hk

theorem put_right (h : Bindings.Related skip σ bs bs') (hn : name ∈ skip) (v : Value) :
    Bindings.Related skip σ bs (bs'.put name v) := by
  intro k hk
  have hne : k ≠ name := fun e => hk (e ▸ hn)
  rw [lookup_put, if_neg hne]
  exact h k hk

end Bindings.Related

end

end ChainLowering
