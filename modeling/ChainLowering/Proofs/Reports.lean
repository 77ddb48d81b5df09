import ChainLowering.Proofs.Preserved

/-!
# What a pass reports

A pass reports the function or script of every chain that it lowers, as it
was before the pass, and notes in the scripts of the chains that there are
declarations now.
-/

namespace ChainLowering

open Grown Arena

namespace Changes

variable {c : Changes} {r s : Ref} {rs : List Ref}

/-- There is nothing to report of the scope any more. -/
def Knows (c : Changes) (s : Ref) : Prop := ∀ i ∈ s, i ∈ c.scopes

theorem record_of_knows (h : c.Knows s) : c.record s = c := by
  cases s with
  | none => rfl
  | some i => exact if_pos (List.contains_iff_mem.mpr (h i rfl))

theorem knows_record (c : Changes) (s : Ref) : (c.record s).Knows s := by
  rintro i rfl
  rw [record]
  split_ifs with h
  · exact List.contains_iff_mem.mp h
  · exact List.mem_append_right _ List.mem_cons_self

theorem Knows.record (h : c.Knows r) (s : Ref) : (c.record s).Knows r := by
  intro i hi
  cases s with
  | none => exact h i hi
  | some j =>
    rw [Changes.record]
    split_ifs
    · exact h i hi
    · exact List.mem_append_left _ (h i hi)

theorem Knows.foldl (h : c.Knows r) (rs : List Ref) : (rs.foldl Changes.record c).Knows r := by
  induction rs generalizing c with
  | nil => exact h
  | cons s rs ih => exact ih (h.record s)

theorem knows_foldl (c : Changes) (rs : List Ref) :
    ∀ s ∈ rs, (rs.foldl Changes.record c).Knows s := by
  induction rs generalizing c with
  | nil => exact fun _ h => nomatch h
  | cons r rs ih =>
    intro s hs
    rcases List.mem_cons.mp hs with rfl | hs
    · exact (knows_record c s).foldl rs
    · exact ih _ s hs

theorem foldl_record_of_knows (h : ∀ s ∈ rs, c.Knows s) : rs.foldl record c = c := by
  induction rs with
  | nil => rfl
  | cons s rs ih =>
    obtain ⟨hs, hrs⟩ := List.forall_mem_cons.mp h
    rw [List.foldl_cons, record_of_knows hs, ih hrs]

theorem foldl_record_flatMap {ι : Type} {f g : ι → List Ref} (xs : List ι)
    (h : ∀ x ∈ xs, f x = g x ∨ f x = [] ∧ ∀ s ∈ g x, c.Knows s) :
    (xs.flatMap f).foldl record c = (xs.flatMap g).foldl record c := by
  induction xs generalizing c with
  | nil => rfl
  | cons x xs ih =>
    obtain ⟨hx, hxs⟩ := List.forall_mem_cons.mp h
    rw [List.flatMap_cons, List.flatMap_cons, List.foldl_append, List.foldl_append]
    rcases hx with hx | ⟨hf, hg⟩
    · rw [hx]
      exact ih fun y hy => (hxs y hy).imp_right fun h => ⟨h.1, fun s hs => (h.2 s hs).foldl _⟩
    · rw [hf, foldl_record_of_knows hg]
      exact ih hxs

/-- Each scope is reported once, when it first comes up. -/
theorem scopes_foldl_record (rs : List Ref) :
    (rs.foldl record {}).scopes = (rs.filterMap id).eraseDups := by
  induction rs using List.reverseRecOn with
  | nil => rfl
  | append_singleton rs s ih =>
    rw [List.foldl_append, List.foldl_cons, List.foldl_nil, List.filterMap_append]
    generalize rs.foldl record {} = c, rs.filterMap id = is at ih
    cases s with
    | none => simpa [record] using ih
    | some i =>
      have hi : c.scopes.contains i = is.contains i := by
        rw [Bool.eq_iff_iff, List.contains_iff_mem, List.contains_iff_mem, ih, List.mem_eraseDups]
      change (if c.scopes.contains i then c else ⟨c.scopes ++ [i]⟩ : Changes).scopes =
        (is ++ [i]).eraseDups
      rw [List.eraseDups_append, hi, ← ih]
      by_cases h : i ∈ is
      · simp [List.removeAll, h]
      · simp [List.removeAll, h, List.eraseDups_cons]

end Changes

namespace Arena

variable {a b : Arena} {R S : Entries} {t : Grown}

def endScopes (a : Arena) (r : Ref) : List Ref :=
  (a.chainEnds r).map fun c => a.enclosingScope? (some c)

theorem endScopes_congr (ha : a.Holds (t.entries none + R)) (hb : b.Holds (t.entries none + S)) :
    b.endScopes (some t.id) = a.endScopes (some t.id) := by
  rw [endScopes, endScopes, chainEnds_tree ha, chainEnds_tree hb]
  exact List.map_congr_left fun c hc =>
    enclosingScope?_of_scopes_le ha hb le_rfl (mem_ids_of_mem_endSet hc)

end Arena

namespace Lower

variable {w w₁ w₂ : Work Names} {ts us : List Grown} {roots : List Ref}

theorem Turns.mem_slots (h : Turns w ts roots w₂ us) : ∀ r ∈ roots, r ∈ slots ts := by
  induction h with
  | nil => exact fun _ h => nomatch h
  | cons _ hu _ _ _ ih =>
    refine List.forall_mem_cons.mpr ⟨by simp, fun r hr => ?_⟩
    have := ih r hr
    simp only [slots_cons, slots_append, List.mem_cons, List.mem_append, hu.root.1] at this ⊢
    tauto

theorem ends_turn {t u : Grown} {left right : List Grown} {xs : List Temp} {R S : Entries} {r : Ref}
    (before : w.arena.Holds (entriesAll none (left ++ t :: right) + R))
    (hu : LowersAll t (t.ends false) xs u)
    (after : w₁.arena.Holds (entriesAll none (u :: (left ++ right)) + S))
    (hr : r ∈ slots (u :: (left ++ right))) :
    r = some t.id ∧ w₁.arena.chainEnds r = [] ∨
      r ≠ some t.id ∧ w₁.arena.chainEnds r = w.arena.chainEnds r ∧
      w₁.arena.endScopes r = w.arena.endScopes r := by
  obtain ⟨v, hv, rfl⟩ := mem_slots.mp hr
  obtain ⟨S', hS⟩ := holds_of_mem hv after
  by_cases hid : v.id = t.id
  · refine .inl ⟨congrArg some hid, ?_⟩
    have hvu : v.id ∈ u.ids := by
      rw [hid, ← hu.root.1]
      exact u.id_mem_ids
    obtain rfl := eq_of_mem_ids after hv List.mem_cons_self v.id_mem_ids hvu
    have hends := hu.endSet
    rw [Grown.endSet, left_eq_add] at hends
    rw [chainEnds_tree hS]
    exact (Multiset.coe_eq_zero _).mp hends
  · have hmem : v ∈ left ++ t :: right := by
      have hne : v ≠ u := fun e => hid (e ▸ hu.root.1)
      simp only [List.mem_append, List.mem_cons] at hv ⊢
      tauto
    obtain ⟨R', hR⟩ := holds_of_mem hmem before
    refine .inr ⟨fun e => hid (Option.some.inj e), ?_, endScopes_congr hR hS⟩
    rw [chainEnds_tree hS, chainEnds_tree hR]

theorem Turns.changes (h : Turns w ts roots w₂ us) :
    w₂.changes = (roots.flatMap w.arena.endScopes).foldl Changes.record w.changes := by
  induction h with
  | nil => rfl
  | @cons w w₁ w₂ t u left right us rs xs R S before hu reports after rest ih =>
    obtain ⟨T, hT⟩ := holds_of_mem (t := t) (by simp) before
    have hfirst : w₁.changes = (w.arena.endScopes (some t.id)).foldl Changes.record w.changes := by
      rw [reports.changes, endScopes, chainEnds_tree hT]
    rw [ih, List.flatMap_cons, List.foldl_append, ← hfirst]
    refine Changes.foldl_record_flatMap rs fun r hr => ?_
    obtain ⟨rfl, hends⟩ | ⟨-, -, hscopes⟩ := ends_turn before hu after (rest.mem_slots r hr)
    · -- all that it would report is known
      refine .inr ⟨by rw [endScopes, hends]; rfl, ?_⟩
      rw [hfirst]
      exact Changes.knows_foldl _ _
    · exact .inl hscopes

theorem Turns.features (h : Turns w ts roots w₂ us) (hone : ∀ t ∈ ts, t.scripts = 1) (r : Ref) :
    w₂.arena.featuresOf r = if r ∈ roots ∧
      w.arena.chainEnds r ≠ [] then (w.arena.featuresOf r).insert .letDeclarations
      else w.arena.featuresOf r := by
  induction h with
  | nil => simp
  | @cons w w₁ w₂ t u left right us rs xs R S before hu reports after rest ih =>
    obtain ⟨T, hT⟩ := holds_of_mem (t := t) (by simp) before
    have hone' : ∀ v ∈ u :: (left ++ right), v.scripts = 1 := by
      refine List.forall_mem_cons.mpr ⟨?_, fun v hv => hone v ?_⟩
      · exact (keeps_scripts.lowersAll none hu fun _ _ => trivial).symm.trans (hone t (by simp))
      · simp only [List.mem_append, List.mem_cons] at hv ⊢
        tauto
    have hfirst := reports.features (hone t (by simp)) r
    rw [ih hone', hfirst]
    by_cases hr : r ∈ rs
    · obtain ⟨rfl, hends⟩ | ⟨hne, hends, -⟩ := ends_turn before hu after (rest.mem_slots r hr)
      · simp [hends, chainEnds_tree hT]
      · simp [hr, hne, hends]
    · by_cases hrt : r = some t.id
      · subst hrt
        simp [hr, chainEnds_tree hT]
      · simp [hr, hrt]

end Lower

namespace Arena

open Lower

variable {a b : Arena} {sources : List String} {scripts roots : List Ref}

/-- A pass over some of the scripts that were read, in any order and perhaps more than once, reports
the function or script that was around each of their chains, each where it first comes up. The
listed scripts with chains have declarations then, and no other features change. -/
theorem reports_exact (names : Names) (options : Options)
    (hr : a.readAll sources = some (scripts, b)) (hroots : ∀ r ∈ roots, r ∈ scripts)
    (ht : options.target.level < Target.es2020.level) :
    (∀ r ∈ roots, ∀ c ∈ b.chainEnds r, (b.enclosingScope? (some c)).isSome = true) ∧
      ∃ report w, b.lower names options roots = (.ok report, w) ∧
        report.scopes = (roots.flatMap fun r => (b.chainEnds r).filterMap fun c =>
          b.enclosingScope? (some c)).eraseDups ∧
        (∀ r ∈ roots, b.chainEnds r ≠ [] → (w.arena.featuresOf r).has .letDeclarations = true ∧
          ∀ f ≠ .letDeclarations, (w.arena.featuresOf r).has f = (b.featuresOf r).has f) ∧
        ∀ r, (r ∈ roots → b.chainEnds r = []) → w.arena.featuresOf r = b.featuresOf r := by
  have hn : options.needsLowering .optionalChaining = true :=
    congrArg not (decide_eq_false (not_le.mpr ht))
  obtain ⟨ts, R, rfl, hts, hold⟩ := readAll_is hr
  refine ⟨fun r hr c hc => ?_, ?_⟩
  · obtain ⟨t, ht, rfl⟩ := mem_slots.mp (hroots r hr)
    obtain ⟨T, hT⟩ := holds_of_mem ht hold
    rw [chainEnds_tree hT] at hc
    exact isSome_enclosingScope? (kind_of_script (hts t ht)) hT (mem_ids_of_mem_endSet hc)
  · obtain ⟨report, w, hrun, hscopes, us, ps, hus, -⟩ :=
      Lower.scripts_turns (w := { arena := b, names := names }) hn hroots
      (fun t ht => ⟨(hts t ht).sound, kind_of_script (hts t ht)⟩) hold
    have hfeatures := hus.features fun t ht => scripts_of_is (hts t ht)
    refine ⟨report, w, hrun, ?_, fun r hmem hends => ?_, fun r hends => ?_⟩
    · rw [hscopes, hus.changes, Changes.scopes_foldl_record]
      simp only [List.filterMap_flatMap, endScopes, List.filterMap_map, Function.id_comp]
    · rw [hfeatures r, if_pos ⟨hmem, hends⟩]
      refine ⟨by simp, fun f hf => ?_⟩
      simp [hf.symm]
    · exact (hfeatures r).trans (if_neg fun h => h.2 (hends h.1))

/-- One of two scripts is lowered, and listed twice. It has a chain of its own and one in a
function, and no declarations at first. -/
theorem reports_exact_sample : ∃ r s b,
    ({} : Arena).readAll ["a?.b; function f() \x7b c?.d; \x7d", "x;"] = some ([r, s], b) ∧
      (∀ t ∈ [r, r], t ∈ [r, s]) ∧ Target.es5.level < Target.es2020.level ∧
      b.chainEnds r ≠ [] ∧ (b.featuresOf r).has .letDeclarations = false ∧
      (∀ t ∈ [r, r], ∀ c ∈ b.chainEnds t, (b.enclosingScope? (some c)).isSome = true) ∧
      ∃ report w, b.lower {} { target := .es5 } [r, r] = (.ok report, w) ∧ report.scopes = [10, 9] ∧
        (∀ t ∈ [r, r], b.chainEnds t ≠ [] → (w.arena.featuresOf t).has .letDeclarations = true ∧
          ∀ f ≠ .letDeclarations, (w.arena.featuresOf t).has f = (b.featuresOf t).has f) ∧
        ∀ t, (t ∈ [r, r] → b.chainEnds t = []) → w.arena.featuresOf t = b.featuresOf t := by
  have hread : ∃ scripts b,
      ({} : Arena).readAll ["a?.b; function f() \x7b c?.d; \x7d", "x;"] = some (scripts, b) ∧
      scripts = [some 10, some 13] ∧ b.chainEnds (some 10) ≠ [] ∧
      (b.featuresOf (some 10)).has .letDeclarations = false ∧
      ([some 10, some 10].flatMap fun t => (b.chainEnds t).filterMap fun c =>
        b.enclosingScope? (some c)).eraseDups = [10, 9] := exists_of_readAll (by decide +kernel)
  obtain ⟨_, b, hr, rfl, hends, hbefore, hscopes⟩ := hread
  have hroots : ∀ t ∈ [some 10, some 10], t ∈ [some 10, some 13] := by simp
  obtain ⟨hsome, report, w, hrun, hreport, hfeatures⟩ :=
    reports_exact {} { target := .es5 } hr hroots (by decide)
  exact ⟨some 10, some 13, b, hr, hroots, by decide, hends, hbefore, hsome, report, w, hrun,
    hreport.trans hscopes, hfeatures⟩

end Arena

end ChainLowering
