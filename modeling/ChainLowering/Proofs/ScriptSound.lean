import ChainLowering.Proofs.CallDepth
import ChainLowering.Proofs.Hygiene
import ChainLowering.Proofs.StatementSound

/-!
# Scripts that are lowered run as before

What both programs do alike below a node they do alike at it, so bodies run
alike, whatever calls them, and with them whole scripts: they log the same
lines and end the same way, unless the first program finds a callee that is
no function where a chain needs its object, or the other one calls too deep.
-/

namespace ChainLowering

open Eval Grown

namespace Scene

variable {S : Scene} {b : Bool} {t : Grown}

/-- Both programs do alike what a tree says, wherever it stands. -/
structure Tracks (S : Scene) (t : Grown) : Prop where
  walks : ∀ fr env, S.Walks fr env t
  below : t.label.kind.isChain = false → ∀ fr env, ∀ u ∈ t.children, S.Follows fr env u
  exec : t.label.kind.isChain = false → ∀ fr env, S.Executes fr env t

theorem tracks (hr : S.Ready b t) : S.Tracks t := by
  -- a link goes on with the tower below it; below everything else chains end, so all children
  -- have values
  induction t generalizing b with
  | node i l ts ih =>
    cases hl : l.kind.isChain with
    | true =>
      obtain _ | ⟨t, args⟩ := ts
      · exact absurd rfl (hr.sound.children_ne (t := node i l []) (Tree.isChain_of_isLink hl))
      have hargs (fr : FrameId) (env : Env) (u : Grown) (hu : u ∈ args) : S.Follows fr env u :=
        ((ih u (List.mem_cons_of_mem _ hu) (hr.rest hu)).walks fr env).follows (hr.rest hu)
      refine ⟨fun fr env => ?_, fun h => absurd (hl.symm.trans h) Bool.noConfusion,
        fun h => absurd (hl.symm.trans h) Bool.noConfusion⟩
      exact walks_link hl ((ih t List.mem_cons_self hr.first).walks fr env)
        hr.first.sound (hargs fr env)
    | false =>
      have hready (u : Grown) (hu : u ∈ ts) : S.Ready false u := hr.child hl hu
      have htracks (u : Grown) (hu : u ∈ ts) : S.Tracks u := ih u hu (hready u hu)
      have hfollows (fr : FrameId) (env : Env) (u : Grown) (hu : u ∈ ts) : S.Follows fr env u :=
        ((htracks u hu).walks fr env).follows (hready u hu)
      have hr : S.Ready false (node i l ts) := hr.other hl
      refine ⟨fun fr env => ?_, fun _ => hfollows, fun _ fr env => ?_⟩
      · have hm : l.chainStart = false := by
          cases hm : l.chainStart with
          | false => rfl
          | true =>
            exact absurd (hl.symm.trans ((sound_node.mp hr.sound).1.marked hm)) Bool.noConfusion
        cases hlink : l.kind.isLink with
        | false =>
          refine walks_of_results hl ?_ fun hW hfree => results_node hr hlink (hfollows fr env)
            (fun u hu h => (htracks u hu).below h fr env) hW hfree
          change (l.kind.plain?.getD l.kind).isGet = false
          revert hlink
          cases l.kind <;> decide
        | true =>
          obtain _ | ⟨t, args⟩ := ts
          · exact absurd rfl (hr.sound.children_ne (t := node i l []) hlink)
          obtain ⟨ht, hargs⟩ := List.forall_mem_cons.mp (hfollows fr env)
          cases hget : l.kind.isGet with
          | true => exact walks_get hget hm ht hargs
          | false =>
            have hk : l.kind = .call := by
              revert hl hlink hget
              cases l.kind <;> decide
            exact walks_call hk hm ((htracks t List.mem_cons_self).walks fr env)
              hargs (hready t List.mem_cons_self)
      · exact executes_node hr hl (hfollows fr env) (fun u hu h => (htracks u hu).below h fr env)
          fun u hu h => (htracks u hu).exec h

end Scene

/-! ## Bodies -/

namespace Change

variable {temps : List String}

theorem lowersBody_nil : LowersBody temps [] [] := by
  have h : Distinct temps (Due.marks (duesAll [] (fun _ => default) [])) :=
    ⟨List.nodup_nil, fun m hm => by simp [duesAll, Due.marks] at hm⟩
  exact @LowersBody.of temps [] (fun _ => default) [] (by simp) (by simp) h

/-- The lowering of bodies, with some names for temporaries. -/
def lowering (this : "this" ∉ temps) (empty : "" ∉ temps) : Change where
  temps := temps
  bodies := LowersBody temps
  this := this
  empty := empty
  nil := lowersBody_nil

theorem runs_lowering (this : "this" ∉ temps) (empty : "" ∉ temps) :
    (lowering this empty).Runs := by
  rintro ts us ⟨ready, statements, distinct⟩ d d' call call' hc W f rfl rfl hf hpins env
  rename_i order choice ts
  let S : Scene :=
    ⟨lowering this empty, fun h => h, order, choice, call, call', W.depth, W.depth', hc⟩
  -- the frame of a body is new, so no pin is about it
  refine S.sim_body ready statements (fun t ht => ?_) ⟨rfl, rfl, hf⟩ ⟨distinct, fun p hp hpf => ?_⟩
  · exact (Scene.tracks (S := S) (ready t ht)).exec (statements t ht) f env
  · exact absurd hpf (hpins p hp)

end Change

/-! ## Scripts in turn -/

/-- A run that fails for a call that is nested too deep. -/
structure Eval.Exceeds {α : Type} (r : Outcome α) : Prop where
  result : r.1 = .error (.error .callDepth)
  peak : maxCallDepth ≤ r.2.peak

/-- What is known before a script is run: there are global variables, and no call is open. -/
def World.start : World where
  stamps _ _ := False
  pins := []
  frames := 1
  depth := 0
  depth' := 0

theorem Native.uniform_log : Native.log.Uniform := by
  intro σ args args' h
  have htexts : args'.map Value.text = args.map Value.text := by
    induction h with
    | nil => rfl
    | cons hv _ ih => rw [List.map_cons, List.map_cons, ih, hv.text_eq]
  refine ⟨?_, .inl ⟨_, _, rfl, rfl, related_headD h⟩⟩
  rw [Native.log, Native.log, htexts]

theorem Native.uniform_inert : Native.inert.Uniform :=
  fun _ _ _ _ => ⟨rfl, .inl ⟨_, _, rfl, rfl, .undefined⟩⟩

namespace Machine

variable {P : Change} {σ : Stamps} {m m' : Machine} {ts us : List Tree}

theorem related_initial (P : Change) : Machine.Related P .start .initial .initial where
  oneToOne h := h.elim
  bound h := h.elim
  size_frames := rfl
  frames_le := le_rfl
  frame f := by
    cases f with
    | zero =>
      exact (Bindings.Related.nil.put "undefined" .undefined).put "log" (.function (.native 0))
    | succ f => exact .nil
  size_objects := rfl
  object _ := .nil
  size_closures := rfl
  closure i := by
    have h : Machine.initial.closures.getD i {} = {} := rfl
    rw [h]
    exact ⟨rfl, rfl, P.nil⟩
  natives := rfl
  uniform i := by
    cases i with
    | zero => exact Native.uniform_log
    | succ i => exact Native.uniform_inert
  output := rfl
  depth := rfl
  depth' := rfl
  fits _ h := nomatch h
  reached := le_rfl
  pins _ h := nomatch h

theorem sim_script (hP : P.Runs) {t u : Tree} (h : P.bodies t.children u.children) :
    Sim P (World.start.grown σ) (discard (execBody Eval.call [globals] t.children))
      (discard (execBody Eval.call [globals] u.children))
      fun _ _ _ => True := by
  have hk : maxCallDepth < maxCallDepth + 1 + 0 := by omega
  have hc : Calls P 0 0 Eval.call Eval.call := calls_callTo hP _ le_rfl (Nat.zero_le _) hk hk
  exact .map (hP h hc (W := World.start.grown σ) rfl rfl Nat.one_pos (fun _ hp => nomatch hp) [])
    fun _ _ _ _ _ => trivial

/-- Scripts with related bodies log the same lines and end alike, one after the other. -/
theorem runScripts_alike (hP : P.Runs)
    (h : List.Forall₂ (fun t u => P.bodies t.children u.children) ts us)
    (hm : Machine.Related P (World.start.grown σ) m m') (hfits : ∀ r ∈ m.runScripts ts, r.2.Fits)
    (hdeep : ∀ r ∈ m'.runScripts us, ¬ Exceeds r) :
    (m'.runScripts us).map (fun r => (r.1, r.2.output)) = (m.runScripts ts).map fun r =>
      (r.1, r.2.output) := by
  induction h generalizing σ m m' with
  | nil => rfl
  | @cons t u ts us ht _ ih =>
    obtain ⟨hfit, hfits⟩ := List.forall_mem_cons.mp hfits
    obtain ⟨hbound, hdeep⟩ := List.forall_mem_cons.mp hdeep
    have hr : Relates P (World.start.grown σ) (fun _ _ _ => True) (m.runScript t)
        (m'.runScript u) := sim_script hP ht m m' hm
    rw [runScripts, runScripts, List.map_cons, List.map_cons]
    generalize m.runScript t = r, m'.runScript u = r' at hr hfit hfits hbound hdeep
    cases hr with
    | done hσ hn => exact congrArg₂ List.cons (by rw [hn.output]) (ih hn hfits hdeep)
    | failed e hσ hn => exact congrArg₂ List.cons (by rw [hn.output]) (ih hn hfits hdeep)
    | spoiled hn => exact absurd hfit hn
    | exceeded hpeak => exact absurd ⟨rfl, hpeak⟩ hbound

end Machine

/-! ## What lowering makes of scripts -/

namespace Names

open NameSource

theorem exists_candidate (n : Nat) (g : Names) : ∀ s ∈ drawn n g, ∃ k, s = candidate k := by
  induction n with
  | zero => exact fun _ hs => nomatch hs
  | succ n ih =>
    intro s hs
    rw [drawn_succ, List.mem_append, List.mem_singleton] at hs
    rcases hs with hs | rfl
    · exact ih s hs
    · exact ⟨_, rfl⟩

theorem head?_candidate (k : Nat) : (candidate k).toList.head? = some '_' := by
  rw [candidate]
  split_ifs <;> rw [String.toList_ofList] <;> rfl

theorem notMem_drawn {s : String} (hs : s.toList.head? ≠ some '_') (n : Nat) (g : Names) :
    s ∉ drawn n g := by
  intro h
  obtain ⟨k, rfl⟩ := exists_candidate n g s h
  exact hs (head?_candidate k)

end Names

namespace Lower

variable {temps : List String} {ts us : List Grown} {xs : List Temp}

theorem LowersScripts.bodies (h : LowersScripts ts xs us)
    (hts : ∀ t ∈ ts, t.Sound ∧ t.label.kind = .script) (hends : ∀ t ∈ ts, (t.endSet false).Nodup)
    (hnames : ∀ t ∈ ts, ∀ s ∈ t.names, s ∉ temps) (hxs : (xs.map Temp.name).Nodup)
    (htemps : ∀ x ∈ xs, x.name ∈ temps) :
    List.Forall₂ (fun t u => LowersBody temps t.toTree.children u.toTree.children) ts us := by
  induction h with
  | nil => exact .nil
  | @cons t u ts us xs ys first _ ih =>
    obtain ⟨⟨hs, hk⟩, hts⟩ := List.forall_mem_cons.mp hts
    obtain ⟨hend, hends⟩ := List.forall_mem_cons.mp hends
    obtain ⟨hname, hnames⟩ := List.forall_mem_cons.mp hnames
    obtain ⟨hxt, hyt⟩ := List.forall_mem_append.mp htemps
    rw [List.map_append] at hxs
    refine .cons ?_ (ih hts hends hnames (List.Nodup.of_append_right hxs) hyt)
    -- all chains of a script at once, each with a choice of its own for its names
    obtain ⟨choice, rfl, hperm⟩ := first.exists_whole hend
    refine lowersBody_owner ⟨hs, hname, fun c hc => hc⟩ (by rw [hk]; rfl) ?_
    have hmarks : (Due.marks (whole (t.ends false) choice t).dues).map Prod.fst =
        (xs.map Temp.name : Multiset String) := by
      rw [← Multiset.coe_eq_coe.mpr (hperm.map Temp.name)]
      simp [Due.marks, Function.comp_def]
    constructor
    · rw [hmarks, Multiset.coe_nodup]
      exact List.Nodup.of_append_left hxs
    · intro m hm
      have hmem : m.1 ∈ (xs.map Temp.name : Multiset String) :=
        hmarks ▸ Multiset.mem_map_of_mem Prod.fst hm
      obtain ⟨x, hx, e⟩ := List.mem_map.mp (Multiset.mem_coe.mp hmem)
      exact e ▸ hxt x hx

end Lower

namespace Arena

open Lower NameSource

variable {a b : Arena} {sources : List String} {roots : List Ref}

theorem map_tree {ts : List Grown} {R : Entries} (h : a.Holds (entriesAll none ts + R)) :
    (slots ts).map a.tree = ts.map toTree := by
  rw [slots, List.map_map, Function.comp_def]
  refine List.map_congr_left fun t ht => ?_
  obtain ⟨S, hS⟩ := holds_of_mem ht h
  exact tree_eq hS

/-- Scripts that are lowered log the same lines as before, one script after the other, and each of
them ends the same way, with the same error if there is one. That is so unless a call that needs its
object finds something in the place of a function, or calls are nested too deep. -/
theorem runs_alike (names : Names) (options : Options) (hr : a.readAll sources = some (roots, b))
    (ht : options.target.level < Target.es2020.level) :
    ∃ report w, b.lower names options roots = (.ok report, w) ∧
      ((∀ r ∈ Machine.initial.runScripts (roots.map b.tree), r.2.Fits ∧ ¬ Exceeds r) →
        (∀ r ∈ Machine.initial.runScripts (roots.map w.arena.tree), ¬ Exceeds r) →
        (Machine.initial.runScripts (roots.map w.arena.tree)).map (fun r => (r.1, r.2.output)) =
          (Machine.initial.runScripts (roots.map b.tree)).map fun r => (r.1, r.2.output)) := by
  have hn : options.needsLowering .optionalChaining = true :=
    congrArg not (decide_eq_false (not_le.mpr ht))
  obtain ⟨ts, R, rfl, hts, hold⟩ := readAll_sound hr
  obtain ⟨report, w, hrun, -, xs, us, hus, ⟨ps, h⟩, hdrawn, -⟩ :=
    Lower.scripts_sound (w := { arena := b, names := names })
      hn hts (Lower.eraseDups_slots hold) hold
  dsimp only at hdrawn
  rw [reserveAll_eq, names_below hold] at hdrawn
  refine ⟨report, w, hrun, fun hbefore hafter => ?_⟩
  obtain ⟨hnodup, hfresh⟩ :=
    Names.drawn_fresh xs.length ((ts.flatMap Grown.names).foldl Names.reserve names)
  rw [← hdrawn] at hnodup hfresh
  -- names that are drawn begin with an underscore and stand in none of the scripts
  have hthis : "this" ∉ xs.map Temp.name := hdrawn ▸ Names.notMem_drawn (by decide) _ _
  have hempty : "" ∉ xs.map Temp.name := hdrawn ▸ Names.notMem_drawn (by decide) _ _
  have hnames : ∀ t ∈ ts, ∀ s ∈ t.names, s ∉ xs.map Temp.name := by
    intro t ht s hs hx
    have hfree := hfresh s hx
    rw [Names.isReserved_foldl_reserve] at hfree
    exact hfree.1 (List.mem_flatMap.mpr ⟨t, ht, hs⟩)
  have hends : ∀ t ∈ ts, (t.endSet false).Nodup := fun t ht => by
    obtain ⟨S, hS⟩ := holds_of_mem ht hold
    exact nodup_endSet hS
  have hbodies := hus.bodies hts hends hnames hnodup fun x hx => List.mem_map_of_mem hx
  rw [map_tree hold] at hbefore ⊢
  rw [← hus.slots_eq, map_tree h] at hafter ⊢
  refine Machine.runScripts_alike (Change.runs_lowering hthis hempty) ?_ (Machine.related_initial _)
    (fun r hr => (hbefore r hr).1) hafter
  rw [List.forall₂_map_left_iff, List.forall₂_map_right_iff]
  exact hbodies

/-- All callees fit, and few calls are nested. -/
def isTame (rs : List (Outcome Unit)) : Bool :=
  rs.all fun r => r.2.findings.toList.all Finding.fits && decide (r.2.peak < maxCallDepth)

theorem tame_of_isTame {rs : List (Outcome Unit)} (h : isTame rs = true) :
    ∀ r ∈ rs, r.2.Fits ∧ ¬ Exceeds r := by
  intro r hr
  have hr := List.all_eq_true.mp h r hr
  rw [Bool.and_eq_true, decide_eq_true_eq] at hr
  exact ⟨List.all_eq_true.mp hr.1, fun he => absurd he.peak (Nat.not_le.mpr hr.2)⟩

/-- A method is called if it is there, and the last script fails in both programs. -/
theorem runs_alike_sample : ∃ roots b report w,
    ({} : Arena).readAll ["var o = \x7b m: log \x7d;", "o.m?.(o.n?.p);", "(o?.k).z;"] =
      some (roots, b) ∧
    Target.es5.level < Target.es2020.level ∧
    b.lower {} { target := .es5 } roots = (.ok report, w) ∧
    (∀ r ∈ Machine.initial.runScripts (roots.map b.tree), r.2.Fits ∧ ¬ Exceeds r) ∧
    (∀ r ∈ Machine.initial.runScripts (roots.map w.arena.tree), ¬ Exceeds r) ∧
    (Machine.initial.runScripts (roots.map w.arena.tree)).map (fun r => (r.1, r.2.output)) =
      (Machine.initial.runScripts (roots.map b.tree)).map fun r => (r.1, r.2.output) := by
  have hread : ∃ roots b,
      ({} : Arena).readAll ["var o = \x7b m: log \x7d;", "o.m?.(o.n?.p);", "(o?.k).z;"] =
        some (roots, b) ∧
      isTame (Machine.initial.runScripts (roots.map b.tree)) = true ∧
      isTame (Machine.initial.runScripts
        (roots.map (b.lower ({} : Names) { target := .es5 } roots).2.arena.tree)) = true :=
    exists_of_readAll (by decide +kernel)
  obtain ⟨roots, b, hr, hbefore, hafter⟩ := hread
  obtain ⟨report, w, hrun, hsame⟩ := runs_alike {} { target := .es5 } hr (by decide)
  rw [hrun] at hafter
  have hbefore := tame_of_isTame hbefore
  have hafter := fun r hr => (tame_of_isTame hafter r hr).2
  exact ⟨roots, b, report, w, hr, by decide, hrun, hbefore, hafter, hsame hbefore hafter⟩

end Arena

end ChainLowering
