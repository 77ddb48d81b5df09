import ChainLowering.Lowering.Pass
import ChainLowering.Proofs.Desugar
import ChainLowering.Proofs.EditSound

/-!
# Rules for lowering

`Does x w Q` says that `x` goes through from `w`, with no error and no fault,
and that `Q` holds of its result and of the work after it.
-/

namespace ChainLowering

open Grown

namespace Lower

variable {σ α β : Type} {w : Work σ}

def Does (x : Lower σ α) (w : Work σ) (Q : α → Work σ → Prop) : Prop :=
  ∃ v w', x.run w = (.ok v, w') ∧ Q v w'

theorem Does.mono {x : Lower σ α} {P Q : α → Work σ → Prop} (h : Does x w P)
    (hPQ : ∀ v w', P v w' → Q v w') :
    Does x w Q := by
  obtain ⟨v, w', hx, hP⟩ := h
  exact ⟨v, w', hx, hPQ _ _ hP⟩

theorem run_bind {x : Lower σ α} {f : α → Lower σ β} {v : α} {w' : Work σ}
    (h : x.run w = (.ok v, w')) : (x >>= f).run w = (f v).run w' := by
  rw [ExceptT.run_bind]
  change StateT.bind x.run _ w = _
  simp only [StateT.bind, h]
  rfl

theorem Does.congr {x y : Lower σ α} {Q : α → Work σ → Prop} (e : x.run w = y.run w)
    (h : Does y w Q) : Does x w Q := by
  rwa [Does, e]

theorem Does.bind {x : Lower σ α} {f : α → Lower σ β} {Q : β → Work σ → Prop}
    (h : Does x w fun v w' => Does (f v) w' Q) : Does (x >>= f) w Q := by
  obtain ⟨v, w', hx, u, w'', hf, hQ⟩ := h
  exact ⟨u, w'', by rw [run_bind hx, hf], hQ⟩

theorem does_pure {v : α} {Q : α → Work σ → Prop} (h : Q v w) : Does (pure v) w Q := ⟨v, w, rfl, h⟩

theorem does_discard {x : Lower σ α} {Q : Unit → Work σ → Prop} (h : Does x w fun _ w' => Q () w') :
    Does (discard x) w Q := by
  obtain ⟨v, w', hx, hQ⟩ := h
  exact ⟨(), w', run_bind (f := fun _ => pure ()) hx, hQ⟩

theorem does_arena {Q : Arena → Work σ → Prop} (h : Q w.arena w) : Does arena w Q := ⟨_, w, rfl, h⟩

theorem does_checked {v : α} {Q : α → Work σ → Prop} (h : Q v w) : Does (checked (.ok v)) w Q :=
  ⟨v, w, rfl, h⟩

theorem does_edited {v : α} {Q : α → Work σ → Prop} (h : Q v w) : Does (edited (.ok v)) w Q :=
  ⟨v, w, rfl, h⟩

theorem does_modify {f : Work σ → Work σ} {Q : Unit → Work σ → Prop} (h : Q () (f w)) :
    Does (modify f : Lower σ Unit) w Q :=
  ⟨(), f w, rfl, h⟩

theorem does_edit {f : Arena → Arena.Edited Arena} {a : Arena} {Q : Unit → Work σ → Prop}
    (hf : f w.arena = .ok a) (h : Q () { w with arena := a }) : Does (edit f) w Q := by
  refine .bind (does_arena (.bind ?_))
  rw [hf]
  exact does_edited (does_modify h)

theorem does_build {f : Arena → Arena.Edited (α × Arena)} {v : α} {a : Arena}
    {Q : α → Work σ → Prop} (hf : f w.arena = .ok (v, a)) (h : Q v { w with arena := a }) :
    Does (build f) w Q := by
  refine .bind (does_arena (.bind ?_))
  rw [hf]
  exact does_edited (.bind (does_modify (does_pure h)))

theorem does_freshName [NameSource σ] {Q : String → Work σ → Prop}
    (h : Q (NameSource.fresh w.names).1 { w with names := (NameSource.fresh w.names).2 }) :
    Does freshName w Q :=
  ⟨_, _, rfl, h⟩

end Lower

end ChainLowering
