import ChainLowering.Proofs.Completeness
import ChainLowering.Proofs.RunRules

/-!
# Every run ends

A call takes one from the calls that may still be nested, and a tree is run by
recursion on it. So no run meets the bound of the recursion: each ends with a
value or with an error, and the depth is then what it was before.
-/

namespace ChainLowering

open Grown (slots)

namespace Eval

/-! ## Ends -/

/-- How a computation started on `m` may end. -/
structure Ends {α : Type} (m : Machine) (r : Except (Halt RuntimeError) α × Machine) : Prop where
  result : (∃ v, r.1 = .ok v) ∨ ∃ e, r.1 = .error (.error e)
  depth : r.2.depth = m.depth
  deepest : m.peak ≤ r.2.peak
  bounded : r.2.peak ≤ max m.peak maxCallDepth

section
variable {α β : Type} {m n : Machine}

theorem ends_ok (v : α) (hd : n.depth = m.depth) (hp : n.peak = m.peak) : Ends m (Except.ok v, n) :=
  ⟨.inl ⟨v, rfl⟩, hd, hp.ge, hp.trans_le (le_max_left ..)⟩

theorem ends_error (e : RuntimeError) :
    Ends m ((.error (.error e), m) : Except (Halt RuntimeError) α × Machine) :=
  ⟨.inr ⟨e, rfl⟩, rfl, le_rfl, le_max_left ..⟩

theorem Ends.trans {r : Except (Halt RuntimeError) α × Machine}
    {s : Except (Halt RuntimeError) β × Machine} (hr : Ends m r) (hs : Ends r.2 s) : Ends m s :=
  ⟨hs.result, hs.depth.trans hr.depth, hr.deepest.trans hs.deepest,
    hs.bounded.trans (max_le hr.bounded (le_max_right ..))⟩

end

/-- Ends wherever `k` more calls may be nested at most. -/
structure Balanced {α : Type} (k : Nat) (x : Eval α) : Prop where
  run : ∀ m : Machine, maxCallDepth ≤ m.depth + k → Ends m (x.run m)

section
variable {α β : Type} {k : Nat} {x : Eval α}

theorem Balanced.bind {f : α → Eval β} (hx : Balanced k x)
    (hf : ∀ v, Returns x v → Balanced k (f v)) :
    Balanced k (x >>= f) := by
  refine ⟨fun m hm => ?_⟩
  have h := hx.run m hm
  rcases hr : x.run m with ⟨e | v, n⟩ <;> rw [hr] at h
  · rw [run_bind_error hr]
    obtain ⟨v, hv⟩ | ⟨e, he⟩ := h.result
    · cases hv
    · exact ⟨.inr ⟨e, congrArg _ (Except.error.inj he)⟩, h.depth, h.deepest, h.bounded⟩
  · rw [run_bind_ok hr]
    exact h.trans ((hf v ⟨m, n, hr⟩).run n (h.depth ▸ hm))

theorem closed_balanced (k : Nat) : Closed (Balanced k) where
  pure v := ⟨fun _ _ => ends_ok v rfl rfl⟩
  fail e := ⟨fun _ _ => ends_error e⟩
  bind hx hf := hx.bind hf
  look _ hf := ⟨fun m hm => (hf m).run m hm⟩
  access _ hf := ⟨fun m _ => ends_ok _ (hf m).depth (hf m).peak⟩
  note _ _ := ⟨fun _ _ => ends_ok _ rfl rfl⟩

/-! ## Calls -/

theorem balanced_deeper_zero (x : Eval α) : Balanced 0 (deeper x) := by
  refine ⟨fun m hm => ?_⟩
  rw [run_deeper_full (show maxCallDepth ≤ m.depth from hm)]
  exact ends_error _

theorem Balanced.deeper (hx : Balanced k x) : Balanced (k + 1) (deeper x) := by
  refine ⟨fun m hm => ?_⟩
  by_cases hfull : maxCallDepth ≤ m.depth
  · rw [run_deeper_full hfull]
    exact ends_error _
  · rw [run_deeper_ok (Nat.lt_of_not_le hfull)]
    have h := hx.run m.enter (by simp only [Machine.enter]; omega)
    have henter : max m.enter.peak maxCallDepth = max m.peak maxCallDepth := by
      simp only [Machine.enter]; omega
    exact ⟨h.result, congrArg (· - 1) h.depth, (le_max_left ..).trans h.deepest,
      h.bounded.trans_eq henter⟩

theorem balanced_callTo (k : Nat) (v this : Value) (args : List Value) :
    Balanced k (callTo (k + 1) v this args) := by
  induction k generalizing v this args with
  | zero =>
    cases v with
    | function f => exact balanced_deeper_zero _
    | _ => exact (closed_balanced 0).fail _
  | succ k ih =>
    cases v with
    | function f => exact ((closed_balanced k).invoke ih f this args).deeper
    | _ => exact (closed_balanced (k + 1)).fail _

end

end Eval

/-! ## Scripts in turn -/

namespace Machine

theorem runScript_ends (m : Machine) (t : Tree) : Eval.Ends m (m.runScript t) := by
  have hC := Eval.closed_balanced maxCallDepth
  exact (hC.map (hC.execBody (Eval.balanced_callTo maxCallDepth) [globals] t.children)).run m
    (Nat.le_add_left ..)

theorem length_runScripts (m : Machine) (ts : List Tree) :
    (m.runScripts ts).length = ts.length := by
  induction ts generalizing m with
  | nil => rfl
  | cons t ts ih => exact congrArg (· + 1) (ih _)

theorem runScripts_ends (m : Machine) (ts : List Tree) : ∀ r ∈ m.runScripts ts, Eval.Ends m r := by
  induction ts generalizing m with
  | nil => exact fun r hr => nomatch hr
  | cons t ts ih =>
    have ht := m.runScript_ends t
    intro r hr
    obtain rfl | hr := List.mem_cons.mp hr
    · exact ht
    · exact ht.trans (ih _ r hr)

end Machine

variable {a b : Arena} {sources : List String} {roots scripts : List Ref}

/-- Scripts that were read are whole trees, and all that is run of them ends: each script, and each
call however deep, with the depth that it started from. -/
theorem run_readAll_ends (hr : a.readAll sources = some (roots, b)) (hs : ∀ s ∈ scripts, s ∈ roots)
    (m : Machine) :
    (∀ s ∈ scripts, Tree.Is .script (b.tree s)) ∧
      (m.runScripts (scripts.map b.tree)).length = scripts.length ∧
      (∀ r ∈ m.runScripts (scripts.map b.tree), Eval.Ends m r) ∧
      ∀ k n v this args, maxCallDepth ≤ n.depth + k →
        Eval.Ends n ((Eval.callTo (k + 1) v this args).run n) := by
  obtain ⟨ts, R, rfl, hts, hold⟩ := Arena.readAll_is hr
  refine ⟨fun s h => ?_, ?_, m.runScripts_ends _,
    fun k n v this args => (Eval.balanced_callTo k v this args).run n⟩
  · obtain ⟨t, ht, rfl⟩ := List.mem_map.mp (hs s h)
    obtain ⟨S, ht'⟩ := Arena.holds_of_mem ht hold
    rw [Arena.tree_eq ht']
    exact hts t ht
  · rw [Machine.length_runScripts, List.length_map]

/-- The first script nests calls until no more are allowed. -/
theorem run_readAll_ends_sample :
    ∃ roots b,
      ({} : Arena).readAll ["function f() \x7b f(); \x7d f();", "log(1);"] = some (roots, b) ∧
      (∀ s ∈ roots, s ∈ roots) ∧ (∀ s ∈ roots, Tree.Is .script (b.tree s)) ∧
      (Machine.initial.runScripts (roots.map b.tree)).length = roots.length ∧
      (∀ r ∈ Machine.initial.runScripts (roots.map b.tree), Eval.Ends .initial r) ∧
      ∀ k n v this args, maxCallDepth ≤ n.depth + k →
        Eval.Ends n ((Eval.callTo (k + 1) v this args).run n) := by
  have hread : ∃ roots b,
      ({} : Arena).readAll ["function f() \x7b f(); \x7d f();", "log(1);"] = some (roots, b) ∧
      roots.length = 2 := Arena.exists_of_readAll (by decide +kernel)
  obtain ⟨roots, b, hr, -⟩ := hread
  exact ⟨roots, b, hr, fun _ h => h, run_readAll_ends hr (fun _ h => h) .initial⟩

end ChainLowering
