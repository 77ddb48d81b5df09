import ChainLowering.Proofs.Simulation

/-!
# Callees that do not fit

A run only ever adds to its findings. When a callee does not fit, the
arguments are still evaluated and then the call fails, whatever they do.
-/

namespace ChainLowering

namespace Eval

theorem stable_misfit : Stable fun m => ¬ m.Fits where
  access h hf _ _ := by rwa [Machine.Fits, hf]
  note h hn := h fun f hf => hn f (by simp [Machine.note, hf])

section
variable {α β : Type} {form : CallForm} {v : Value} {x : Eval β}

/-- Finds a callee that does not fit, and fails. -/
def Spoils (x : Eval α) : Prop := ∀ m, ∃ e n, x.run m = (.error e, n) ∧ ¬ n.Fits

theorem not_fits_note (m : Machine) (hv : form.fits v = false) : ¬ (m.note form v).Fits := by
  intro h
  have : form.fits v = true := h ⟨form, v, m.output.size⟩ (by simp [Machine.note])
  rw [hv] at this
  cases this

theorem spoils_note {k : β → Eval α} (hv : form.fits v = false) (hx : Keeps (fun m => ¬ m.Fits) x)
    (hk : ∀ b m, ∃ e, (k b).run m = (.error e, m)) :
    Spoils (modify (·.note form v) >>= fun _ => x >>= k) := by
  intro m
  have hnote : (modify (·.note form v) : Eval Unit).run m = (.ok (), m.note form v) := rfl
  have hlater := hx.run _ (not_fits_note m hv)
  rw [run_bind_ok hnote]
  rcases hr : x.run (m.note form v) with ⟨e | b, n⟩
  · rw [hr] at hlater
    exact ⟨e, n, run_bind_error hr, hlater⟩
  · rw [hr] at hlater
    obtain ⟨e, he⟩ := hk b n
    exact ⟨e, n, (run_bind_ok hr).trans he, hlater⟩

end

end Eval

/-- What is missed after that does not matter. -/
theorem Sim.spoiled {α β : Type} {P : Change} {W : World} {Q : Stamps → α → β → Prop}
    {x : Eval α} {y : Eval β} (hx : Eval.Spoils x) : Sim P W x y Q := by
  intro m m' _
  obtain ⟨e, n, hrun, hn⟩ := hx m
  rw [hrun]
  exact .spoiled hn

end ChainLowering
