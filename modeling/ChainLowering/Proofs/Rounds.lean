import ChainLowering.Proofs.BesideSound

/-!
# Scripts, round by round

A script is read in rounds, one for each statement. When a text stands in a
longer one, each round that it takes on its own is a round there as well, up
to where the text ends.
-/

namespace ChainLowering

namespace Reader

inductive Rounds (step : TreeRead Bool) : Nat → TreeReader → TreeReader → Prop
  | none (r : TreeReader) : Rounds step 0 r r
  | next {n : Nat} {r r₁ r₂ : TreeReader} (first : step.run r = (.ok true, r₁))
      (rounds : Rounds step n r₁ r₂) : Rounds step (n + 1) r r₂

variable {S : Site} {step : TreeRead Bool} {m n : Nat} {r r' r₀ r₀' r₁ r₁' r₂ : TreeReader}
    {ts : List Tree}

theorem Rounds.trans (h : Rounds step m r r₁) (h' : Rounds step n r₁ r₂) :
    Rounds step (m + n) r r₂ := by
  induction h with
  | none => rwa [Nat.zero_add]
  | next first _ ih =>
    rw [Nat.succ_add]
    exact .next first (ih h')

theorem run_iterateTo_iff (toks : List Token) :
    (iterateTo (fun _ => return if ← step then some () else none) toks ()).run r = (.ok (), r₂) ↔
      ∃ m r₁, m < toks.length ∧ Rounds step m r r₁ ∧ step.run r₁ = (.ok false, r₂) := by
  induction toks generalizing r with
  | nil =>
    refine ⟨fun h => (nomatch h), ?_⟩
    rintro ⟨_, _, hm, -⟩
    cases hm
  | cons t toks ih =>
    rw [iterateTo, bind_assoc]
    constructor
    · intro h
      obtain ⟨b, r₁, hstep, h⟩ := run_bind_ok h
      cases b with
      | true =>
        obtain ⟨m, r₃, hm, hrounds, hlast⟩ := ih.mp h
        exact ⟨m + 1, r₃, Nat.succ_lt_succ hm, .next hstep hrounds, hlast⟩
      | false =>
        obtain rfl := (Prod.mk.inj h).2
        exact ⟨0, r, Nat.succ_pos _, .none r, hstep⟩
    · rintro ⟨m, r₁, hm, hrounds, hlast⟩
      cases hrounds with
      | none =>
        rw [run_bind_of_ok hlast]
        rfl
      | next first rounds =>
        rw [run_bind_of_ok first]
        exact ih.mpr ⟨_, r₁, Nat.lt_of_succ_lt_succ hm, rounds, hlast⟩

theorem run_scriptStep_false : scriptStep.run r = (.ok false, r₁) ↔
    r.current.tok = .eof ∧ r₁ = r := by
  rw [scriptStep, run_atEnd]
  by_cases hr : r.current.tok = .eof
  · rw [decide_eq_true hr, if_pos rfl]
    exact ⟨fun h => ⟨hr, (Prod.mk.inj h).2.symm⟩, fun h => by rw [h.2]; rfl⟩
  · rw [decide_eq_false hr, if_neg Bool.noConfusion]
    refine ⟨fun h => ?_, fun h => absurd h.1 hr⟩
    obtain ⟨_, _, -, h⟩ := run_bind_ok h
    cases h

theorem run_scriptStep_true (h : scriptStep.run r = (.ok true, r₁)) :
    r.current.tok ≠ .eof ∧ outermost.statement.run r = (.ok (), r₁) := by
  rw [scriptStep, run_atEnd] at h
  by_cases hr : r.current.tok = .eof
  · rw [decide_eq_true hr, if_pos rfl] at h
    cases h
  · rw [decide_eq_false hr, if_neg Bool.noConfusion] at h
    obtain ⟨_, _, hrun, h⟩ := run_bind_ok h
    obtain rfl := (Prod.mk.inj h).2
    exact ⟨hr, hrun⟩

theorem run_scriptStep (hr : r.current.tok ≠ .eof) (h : outermost.statement.run r = (.ok (), r₁)) :
    scriptStep.run r = (.ok true, r₁) := by
  rw [scriptStep, run_atEnd, decide_eq_false hr, if_neg Bool.noConfusion, run_bind_of_ok h]
  rfl

def scriptTree (r : TreeReader) : Tree :=
  .of { kind := .script, start := some 0, stop := some r.lastStop } r.made.reverse

theorem run_finish_script (r : TreeReader) :
    (finish { kind := .script } 0 r.made.length).run r = (.ok (),
      { r with made := [r.scriptTree] }) := by
  change (Except.ok (),
    { r with made := Tree.of _ (r.made.take r.made.length).reverse :: r.made.drop r.made.length }) =
      _
  rw [List.take_length, List.drop_length]
  rfl

theorem run_script_iff (hr : r.made = []) : script.run r = (.ok (), r₂) ↔
    ∃ m r₁, m < r.tokens.length ∧ Rounds scriptStep m r r₁ ∧ r₁.current.tok = .eof ∧
    r₂ = { r₁ with made := [r₁.scriptTree] } := by
  have hcount (r₁ : TreeReader) : r₁.made.length - r.made.length = r₁.made.length := by rw [hr]; rfl
  rw [script_eq]
  constructor
  · intro h
    obtain ⟨n, r₁, hdone, hfinish⟩ := run_bind_ok h
    obtain ⟨hrun, rfl⟩ := run_counted_iff.mp hdone
    obtain ⟨m, r₃, hm, hrounds, hlast⟩ := (run_iterateTo_iff r.tokens).mp hrun
    obtain ⟨hend, rfl⟩ := run_scriptStep_false.mp hlast
    rw [hcount, run_finish_script] at hfinish
    exact ⟨m, r₁, hm, hrounds, hend, (Prod.mk.inj hfinish).2.symm⟩
  · rintro ⟨m, r₁, hm, hrounds, hend, rfl⟩
    have hrun : (repeatedly scriptStep).run r = (.ok (), r₁) :=
      (run_iterateTo_iff r.tokens).mpr ⟨m, r₁, hm, hrounds, run_scriptStep_false.mpr ⟨hend, rfl⟩⟩
    rw [run_bind_of_ok (run_counted_iff.mpr ⟨hrun, rfl⟩), hcount, run_finish_script]

theorem readTrees_iff {source : String} {t : Tree} : readTrees source = (.ok (), [t]) ↔ ∃ toks m r,
    Lexer.tokens source = .ok toks ∧ m < toks.length ∧
    Rounds scriptStep m { tokens := toks, made := [] } r ∧ r.current.tok = .eof ∧
      t = r.scriptTree := by
  unfold readTrees
  cases Lexer.tokens source with
  | error e => simp
  | ok toks =>
    dsimp only
    constructor
    · intro h
      rcases hrun : (script : TreeRead Unit).run { tokens := toks, made := [] } with ⟨v, r₂⟩
      rw [hrun] at h
      obtain ⟨rfl, hmade⟩ := Prod.mk.inj h
      obtain ⟨m, r, hm, hrounds, hend, rfl⟩ := (run_script_iff rfl).mp hrun
      exact ⟨toks, m, r, rfl, hm, hrounds, hend, (List.cons.inj hmade).1.symm⟩
    · rintro ⟨_, m, r, htoks, hm, hrounds, hend, rfl⟩
      obtain rfl := Except.ok.inj htoks
      rw [(run_script_iff rfl).mpr ⟨m, r, hm, hrounds, hend, rfl⟩]
      rfl

/-- Statements that have been read since `r₀`. -/
structure Rows (S : Site) (r₀ : TreeReader) (ts : List Tree) (r r' : TreeReader) :
    Prop extends Beside S false r r' where
  level : r.depth = r₀.depth
  end_place : S.place r.lastStop
  trees : r.made = ts.reverse ++ r₀.made
  row : Tree.Row S.place r₀.lastStop r.lastStop ts

theorem Rows.round (h : Rows S r₀ ts r r') (hstep : scriptStep.run r = (.ok true, r₁)) :
    ∃ r₁' t, scriptStep.run r' = (.ok true, r₁') ∧ Rows S r₀ (ts ++ [t]) r₁ r₁' := by
  obtain ⟨hr, hrun⟩ := run_scriptStep_true hstep
  have hlook := h.toBeside.look hr
  obtain ⟨r₁', hrun', t, ht⟩ := (alike_nested _).statement r r' hlook () r₁ hrun
  have hr' : r'.current.tok ≠ .eof := by rwa [hlook.current]
  refine ⟨r₁', t, run_scriptStep hr' hrun', ht.toBeside, ht.level.trans h.level,
    ht.end_place, ?_, ?_⟩
  · rw [ht.trees, h.trees, List.reverse_append, List.append_assoc]
  · exact h.row.append h.le_current ht.row

theorem Rows.rounds (h : Rows S r₀ ts r r') (hrounds : Rounds scriptStep m r r₁) :
    ∃ r₁' us, Rounds scriptStep m r' r₁' ∧ Rows S r₀ us r₁ r₁' := by
  induction hrounds generalizing r' ts with
  | none r => exact ⟨r', ts, .none r', h⟩
  | next first _ ih =>
    obtain ⟨r₁', t, hstep, h₁⟩ := h.round first
    obtain ⟨r₂', us, hrounds, h₂⟩ := ih h₁
    exact ⟨r₂', us, .next hstep hrounds, h₂⟩

/-! ## Texts -/

theorem border_append {us : List Token} {e : Token} (heof : e.tok = .eof)
    (hus : ∀ u ∈ us, u.tok ≠ .eof)
    (hlast : ∀ u ∈ us.getLast?, u.tok ≠ .punct .semicolon → S.rest.head? = some (e.moved S.shift)) :
    Border S (us ++ [e]) (us.map (Token.moved S.shift) ++ S.rest) := by
  induction us with
  | nil => exact .last heof
  | cons u us ih =>
    obtain ⟨hu, hus⟩ := List.forall_mem_cons.mp hus
    cases us with
    | nil => exact .next hu (.last heof) (hlast u rfl)
    | cons v vs => exact .next hu (ih hus hlast) fun _ => rfl

def Site.whole (P : Nat → Prop) (k : Nat) (e : Token) (heof : e.tok = .eof) (below : List Tree) :
    Site where
  place := P
  shift := k
  rest := [e.moved k]
  rest_some := List.cons_ne_nil _ _
  rest_else := by simp [heof]
  below := below

theorem rows_whole (r' : TreeReader) {P : Nat → Prop} {k : Nat} {e : Token} (heof : e.tok = .eof)
    {us : List Token} (hus : ∀ u ∈ us, u.tok ≠ .eof) (horder : Token.InOrder P 0 (us ++ [e]))
    (hplace : P 0) (hr' : r'.tokens = (us ++ [e]).map (Token.moved k)) (hdepth : r'.depth = 0) :
    Rows (Site.whole P k e heof r'.made) { tokens := us ++ [e], made := [] } []
      { tokens := us ++ [e], made := [] } r' where
  order := horder
  border := by
    rw [hr', List.map_append]
    exact border_append (S := Site.whole P k e heof r'.made) heof hus fun _ _ _ => rfl
  depth := hdepth
  made := rfl
  sees := Bool.noConfusion
  level := rfl
  end_place := hplace
  trees := rfl
  row := .nil le_rfl

end Reader

end ChainLowering
