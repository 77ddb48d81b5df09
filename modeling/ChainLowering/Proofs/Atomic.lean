import ChainLowering.Proofs.PassSound
import ChainLowering.Proofs.Rejection

/-!
# Errors leave no trace

A chain is lowered as a whole or the work stays as it was. A pass over
scripts that fails has lowered the chains that it came to before, in their
order, and nothing else.
-/

namespace ChainLowering

open Grown Arena

namespace Lower

variable {σ α β : Type} {w w' : Work σ} {e : Halt LoweringError}

/-! ## Where a computation stops -/

def error? : Except (Halt LoweringError) α × Work σ → Option LoweringError
  | (.error (.error d), _) => some d
  | _ => none

theorem error?_eq_some {x : Except (Halt LoweringError) α × Work σ} {d : LoweringError} :
    error? x = some d ↔ ∃ w', x = (.error (.error d), w') := by
  match x with
  | (.ok v, m) => simp [error?]
  | (.error (.fault f), m) => simp [error?]
  | (.error (.error d), m) => simp [error?]

theorem error_of_bind {x : Lower σ α} {f : α → Lower σ β} (h : (x >>= f).run w = (.error e, w')) :
    x.run w = (.error e, w') ∨ ∃ v m, x.run w = (.ok v, m) ∧ (f v).run m = (.error e, w') := by
  match hx : x.run w with
  | (.ok v, m) =>
    rw [run_bind hx] at h
    exact .inr ⟨v, m, rfl, h⟩
  | (.error d, m) =>
    rw [run_bind_error hx] at h
    obtain ⟨he, rfl⟩ := Prod.mk.inj h
    obtain rfl := Except.error.inj he
    exact .inl rfl

theorem ok_of_bind {x : Lower σ α} {f : α → Lower σ β} {u : β} (h : (x >>= f).run w = (.ok u, w')) :
    ∃ v m, x.run w = (.ok v, m) ∧ (f v).run m = (.ok u, w') := by
  match hx : x.run w with
  | (.ok v, m) =>
    rw [run_bind hx] at h
    exact ⟨v, m, rfl, h⟩
  | (.error d, m) =>
    rw [run_bind_error hx] at h
    cases (Prod.mk.inj h).1

theorem error_of_discard {x : Lower σ α} (h : (discard x).run w = (.error e, w')) :
    x.run w = (.error e, w') := by
  rcases error_of_bind (f := fun _ => pure ()) h with h | ⟨v, m, -, h⟩
  · exact h
  · cases h

theorem error_of_forM {f : α → Lower σ Unit} {xs : List α}
    (h : (xs.forM f).run w = (.error e, w')) :
    ∃ us x vs m, xs = us ++ x :: vs ∧ (us.forM f).run w = (.ok (), m) ∧
      (f x).run m = (.error e, w') := by
  induction xs generalizing w with
  | nil => cases h
  | cons x xs ih =>
    rw [List.forM_eq_forM, List.forM_cons] at h
    rcases error_of_bind h with h | ⟨_, m, hx, h⟩
    · exact ⟨[], x, xs, w, rfl, rfl, h⟩
    · obtain ⟨us, y, vs, m', rfl, hus, hy⟩ := ih h
      refine ⟨x :: us, y, vs, m', rfl, ?_, hy⟩
      rw [List.forM_eq_forM, List.forM_cons, run_bind hx]
      exact hus

/-! ## Chain after chain -/

section
variable {c : NodeId} {cs ds : List NodeId} {w m w' : Work Names}

theorem chains_cons : chains (c :: cs) = discard (guardChain (some c)) >>= fun _ => chains cs := rfl

theorem chains_append (h : (chains cs).run w = (.ok (), m))
    (h' : (chains ds).run m = (.ok (), w')) : (chains (cs ++ ds)).run w = (.ok (), w') := by
  induction cs generalizing w with
  | nil =>
    obtain ⟨-, rfl⟩ := Prod.mk.inj h
    exact h'
  | cons c cs ih =>
    rw [chains_cons] at h
    obtain ⟨_, m', hc, h⟩ := ok_of_bind h
    rw [List.cons_append, chains_cons, run_bind hc]
    exact ih h

theorem forest_chains (hf : Forest w.arena) (h : (chains cs).run w = (.ok (), w')) :
    Forest w'.arena := by
  induction cs generalizing w with
  | nil =>
    obtain ⟨-, rfl⟩ := Prod.mk.inj h
    exact hf
  | cons c cs ih =>
    rw [chains_cons] at h
    obtain ⟨_, m, hc, h⟩ := ok_of_bind h
    obtain ⟨v, m', hg, hm⟩ := ok_of_bind (f := fun _ => pure ()) hc
    obtain ⟨-, rfl⟩ := Prod.mk.inj hm
    exact ih (forest_guardChain hf hg) h

end

/-! ## Script after script -/

/-- The chains of some scripts are lowered, and these are their ends, which are looked for when the
turn of a script comes. -/
inductive Passes : Work Names → List Ref → List NodeId → Work Names → Prop
  | nil (w : Work Names) : Passes w [] [] w
  | cons {w m w' : Work Names} {r : Ref} {rs : List Ref} {cs : List NodeId}
      (first : (chains (w.arena.chainEnds r)).run w = (.ok (), m)) (rest : Passes m rs cs w') :
      Passes w (r :: rs) (w.arena.chainEnds r ++ cs) w'

theorem Passes.chains {w w' : Work Names} {rs : List Ref} {cs : List NodeId}
    (h : Passes w rs cs w') : (Lower.chains cs).run w = (.ok (), w') := by
  induction h with
  | nil => rfl
  | cons first _ ih => exact chains_append first ih

/-- A pass from `w` over the scripts stops with `e` and leaves `w'`: a chain is rejected there, and
those that were found before it are lowered. -/
def Stops (w : Work Names) (roots : List Ref) (e : LoweringError) (w' : Work Names) : Prop :=
  ∃ pre r post done m cs c ds, roots = pre ++ r :: post ∧ Passes w pre done m ∧
    m.arena.chainEnds r = cs ++ c :: ds ∧ (chains (done ++ cs)).run w = (.ok (), w') ∧
    Rejects w'.arena (some c) e

theorem script_error {w w' : Work Names} {root : Ref} (h : (script root).run w = (.error e, w')) :
    ∃ cs c ds m, w.arena.chainEnds root = cs ++ c :: ds ∧ (chains cs).run w = (.ok (), m) ∧
      (guardChain (some c)).run m = (.error e, w') := by
  rcases error_of_bind h with h | ⟨a, m, ha, h⟩
  · cases h
  · obtain ⟨hx, rfl⟩ := Prod.mk.inj ha
    obtain rfl := Except.ok.inj hx
    rcases error_of_bind h with h | ⟨-, m, -, h⟩
    · obtain ⟨cs, c, ds, m, hends, hcs, hc⟩ := error_of_forM h
      exact ⟨cs, c, ds, m, hends, hcs, error_of_discard hc⟩
    · cases h

theorem script_ok {w w' : Work Names} {root : Ref} {n : Nat}
    (h : (script root).run w = (.ok n, w')) :
    (chains (w.arena.chainEnds root)).run w = (.ok (), w') := by
  obtain ⟨a, m, ha, h⟩ := ok_of_bind h
  obtain ⟨hx, rfl⟩ := Prod.mk.inj ha
  obtain rfl := Except.ok.inj hx
  obtain ⟨_, m, hm, h⟩ := ok_of_bind h
  obtain ⟨-, rfl⟩ := Prod.mk.inj h
  exact hm

theorem scripts_error {w w' : Work Names} {roots : List Ref} {n : Nat} (hf : Forest w.arena)
    {e : LoweringError}
    (h : (roots.foldlM (fun n root => return n + (← script root)) n : Lower Names Nat).run w =
      (.error (.error e), w')) :
    Stops w roots e w' := by
  induction roots generalizing w n with
  | nil => cases h
  | cons r roots ih =>
    rw [List.foldlM_cons] at h
    rcases error_of_bind h with h | ⟨k, m, hk, h⟩
    · rcases error_of_bind h with h | ⟨j, m, -, h⟩
      · obtain ⟨cs, c, ds, m, hends, hcs, hc⟩ := script_error h
        obtain ⟨hreject, rfl⟩ := (guardChain_error_iff (forest_chains hf hcs)).mp hc
        exact ⟨[], r, roots, [], w, cs, c, ds, rfl, .nil w, hends, hcs, hreject⟩
      · cases h
    · obtain ⟨j, m', hj, hm⟩ := ok_of_bind hk
      obtain ⟨-, rfl⟩ := Prod.mk.inj hm
      have hfirst := script_ok hj
      obtain ⟨pre, s, post, done, m', cs, c, ds, rfl, hdone, hends, hchains, hreject⟩ :=
        ih (forest_chains hf hfirst) h
      refine ⟨r :: pre, s, post, _, m', cs, c, ds, rfl, .cons hfirst hdone, hends, ?_, hreject⟩
      rw [List.append_assoc]
      exact chains_append hfirst hchains

theorem lower_error {a : Arena} {names : Names} {options : Options} {roots : List Ref}
    {e : LoweringError} {w' : Work Names} (hf : Forest a)
    (h : a.lower names options roots = (.error (.error e), w')) :
    Stops { arena := a, names := reserveAll a roots names } roots e w' := by
  rw [Arena.lower, scripts] at h
  split_ifs at h with ho
  · cases h
  · rcases error_of_bind h with h | ⟨_, m, hm, h⟩
    · cases h
    · obtain ⟨-, rfl⟩ := Prod.mk.inj hm
      rcases error_of_bind h with h | ⟨n, m, -, h⟩
      · exact scripts_error (w := { arena := a, names := reserveAll a roots names }) hf h
      · cases h

/-- An error comes of a chain just when it is rejected, and then the work is as it was. A pass that
fails has lowered, in their order, the chains that were found before the one that is rejected. -/
theorem errors_exact [NameSource σ] (hf : Forest w.arena) :
    (∀ r e w', (guardChain r).run w = (.error (.error e), w') ↔ Rejects w.arena r e ∧ w' = w) ∧
      (∀ r e w', (guardChain r).run w = (.error (.error e), w') →
        e.defect ≠ .receiverStillOptional) ∧
      ∀ names options roots e w', w.arena.lower names options roots = (.error (.error e), w') →
        Stops { arena := w.arena, names := reserveAll w.arena roots names } roots e w' :=
  ⟨fun _ _ _ => guardChain_error_iff hf,
    fun _ _ _ h => ((guardChain_error_iff hf).mp h).1.defect_ne, fun _ _ _ _ _ => lower_error hf⟩

/-- `a?.b; x.c;`, where the second chain was built without a mark. -/
def brokenEdits : List Edit :=
  [.addNode { kind := .name, text := "a" } [],
    .addNode { kind := .chainProp, text := "b", chainStart := true } [0],
    .addNode { kind := .exprStmt } [1], .addNode { kind := .name, text := "x" } [],
    .addNode { kind := .chainProp, text := "c" } [3], .addNode { kind := .exprStmt } [4],
    .addNode { kind := .script } [2, 5]]

theorem errors_exact_sample : ∃ a, Edit.run? Edit.isApart brokenEdits {} = some a ∧ a.Forest ∧
    (∀ r e w', (guardChain r).run (⟨a, {}, {}⟩ : Work Names) = (.error (.error e), w') ↔
      Rejects a r e ∧ w' = ⟨a, {}, {}⟩) ∧
    (∀ r e w', (guardChain r).run (⟨a, {}, {}⟩ : Work Names) = (.error (.error e), w') →
      e.defect ≠ .receiverStillOptional) ∧
    (∃ w', a.lower {} { target := .es5 } [some 6] =
        (.error (.error ⟨.inconsistentSegment, { node := some 3, kind := some .name }⟩), w')) ∧
      ∀ names options roots e w', a.lower names options roots = (.error (.error e), w') →
        Stops { arena := a, names := reserveAll a roots names } roots e w' := by
  obtain ⟨a, ha⟩ : ∃ a, Edit.run? Edit.isApart brokenEdits {} = some a :=
    Option.isSome_iff_exists.mp (by decide +kernel)
  have hlower : (Edit.run? Edit.isApart brokenEdits {}).bind
      (fun a => error? (a.lower {} { target := .es5 } [some 6])) =
      some ⟨.inconsistentSegment, { node := some 3, kind := some .name }⟩ := by decide +kernel
  rw [ha] at hlower
  obtain ⟨hchain, hdefect, hpass⟩ := errors_exact (w := (⟨a, {}, {}⟩ : Work Names)) (forest_run ha)
  exact ⟨a, ha, forest_run ha, hchain, hdefect, error?_eq_some.mp hlower, hpass⟩

end Lower

end ChainLowering
