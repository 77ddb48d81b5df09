import ChainLowering.Proofs.Forest
import ChainLowering.Proofs.PassSound

/-!
# Lowering leaves nothing to lower

Sources that are read give sound scripts, whatever stood in the store before.
So lowering of them goes through, it lowers as many chains as end in them, and
to lower them again changes nothing.
-/

namespace ChainLowering

open Grown

namespace Arena

/-- Nothing at or below the slot belongs to an optional chain. -/
def IsLowered (a : Arena) (r : Ref) : Prop :=
  ∀ i ∈ a.preorder r, a.isChain (some i) = false ∧ a.isMarked (some i) = false

variable {a b : Arena} {R : Entries} {t : Grown} {ts : List Grown} {sources : List String}
    {roots : List Ref}

theorem holds_of_mem (ht : t ∈ ts) (h : a.Holds (entriesAll none ts + R)) :
    ∃ S, a.Holds (t.entries none + S) := by
  obtain ⟨us, vs, rfl⟩ := List.append_of_mem ht
  refine ⟨entriesAll none us + (entriesAll none vs + R), h.of_eq ?_⟩
  rw [entriesAll_append, entriesAll_cons]
  abel

theorem isLowered_of_sound (ht : t.Sound) (he : t.endSet false = 0)
    (h : a.Holds (t.entries none + R)) :
    a.IsLowered (some t.id) := by
  intro i hi
  rw [preorder_tree h] at hi
  obtain ⟨n, hn⟩ := Forest.exists_entry (p := none) hi
  have hnode : a.node? (some i) = some n := h.get (Multiset.mem_add.mpr (.inl hn))
  obtain ⟨hc, hm⟩ := ht.plain he _ hn
  exact ⟨by rw [isChain, kind?, hnode]; exact hc, by rw [isMarked, hnode]; exact hm⟩

theorem readAll_is (hr : a.readAll sources = some (roots, b)) :
    ∃ ts R, roots = slots ts ∧ (∀ t ∈ ts, Tree.Is .script t.toTree) ∧
      b.Holds (entriesAll none ts + R) := by
  obtain ⟨ts, rfl, -, hts, hold, -⟩ := readAll_holds (Forest.holds_all a) hr
  exact ⟨ts, _, rfl, hts, hold⟩

theorem readAll_sound (hr : a.readAll sources = some (roots, b)) :
    ∃ ts R, roots = slots ts ∧ (∀ t ∈ ts, t.Sound ∧ t.label.kind = .script) ∧
      b.Holds (entriesAll none ts + R) := by
  obtain ⟨ts, R, rfl, hts, hold⟩ := readAll_is hr
  exact ⟨ts, R, rfl, fun t ht => ⟨(hts t ht).sound, kind_of_script (hts t ht)⟩, hold⟩

theorem length_chainEnds (h : a.Holds (entriesAll none ts + R)) :
    ((slots ts).map fun r => (a.chainEnds r).length) = ts.map fun t => (t.ends false).length := by
  rw [slots, List.map_map]
  refine List.map_congr_left fun t ht => ?_
  obtain ⟨S, hS⟩ := holds_of_mem ht h
  exact congrArg List.length (chainEnds_tree hS)

end Arena

namespace Lower

variable {w : Work Names} {roots : List Ref} {options : Options}

theorem foldlM_script_unchanged (n : Nat) (h : ∀ r ∈ roots, w.arena.chainEnds r = []) :
    Does (roots.foldlM (fun n root => return n + (← script root)) n) w fun m w' =>
      m = n ∧ w' = w := by
  induction roots with
  | nil => exact does_pure ⟨rfl, rfl⟩
  | cons r rs ih =>
    obtain ⟨hr, hrs⟩ := List.forall_mem_cons.mp h
    rw [List.foldlM_cons]
    refine .bind (.bind ((script_unchanged hr).mono ?_))
    rintro m w' ⟨rfl, rfl⟩
    exact does_pure (ih hrs)

theorem scripts_unchanged (hn : options.needsLowering .optionalChaining = true)
    (h : ∀ r ∈ roots, w.arena.chainEnds r = []) :
    Does (scripts options roots) w fun report w' =>
      report = ⟨0, w.changes.scopes⟩ ∧ w'.arena = w.arena := by
  rw [scripts, hn]
  refine .bind (does_modify (.bind ((foldlM_script_unchanged
    (w := { w with names := reserveAll w.arena roots w.names }) 0 h).mono ?_)))
  rintro n w' ⟨rfl, rfl⟩
  exact .bind ⟨_, _, rfl, does_pure ⟨rfl, rfl⟩⟩

end Lower

namespace Arena

variable {a b : Arena} {sources : List String} {roots : List Ref}

theorem IsLowered.chainEnds_eq_nil {r : Ref} (h : a.IsLowered r) : a.chainEnds r = [] := by
  rw [chainEnds, List.filter_eq_nil_iff]
  intro i hi
  simp [isChainEnd, (h i hi).1]

/-- Whatever is read is lowered in full, and only once. -/
theorem lower_readAll (names : Names) (options : Options) (hr : a.readAll sources = some (roots, b))
    (ht : options.target.level < Target.es2020.level) :
    ∃ report w, b.lower names options roots = (.ok report, w) ∧
      report.chains = (roots.map fun r => (b.chainEnds r).length).sum ∧
      (∀ r ∈ roots, w.arena.IsLowered r) ∧
      ∀ names', ∃ w', w.arena.lower names' options roots = (.ok {}, w') ∧ w'.arena = w.arena := by
  have hn : options.needsLowering .optionalChaining = true :=
    congrArg not (decide_eq_false (not_le.mpr ht))
  obtain ⟨ts, R, rfl, hts, hold⟩ := readAll_sound hr
  obtain ⟨report, w, hrun, rfl, xs, us, hus, ⟨ps, h⟩, -⟩ :=
    Lower.scripts_sound (w := { arena := b, names := names })
      hn hts (Lower.eraseDups_slots hold) hold
  have hlow : ∀ r ∈ slots ts, w.arena.IsLowered r := by
    rw [← hus.slots_eq]
    intro r hr
    obtain ⟨u, hu, rfl⟩ := mem_slots.mp hr
    obtain ⟨S, hS⟩ := holds_of_mem hu h
    obtain ⟨hs, he⟩ := hus.done (fun t ht => (hts t ht).1) u hu
    exact isLowered_of_sound hs he hS
  refine ⟨_, w, hrun, by rw [length_chainEnds hold], hlow, fun names' => ?_⟩
  obtain ⟨report, w', hrun', rfl, hw'⟩ :=
    Lower.scripts_unchanged (w := { arena := w.arena, names := names' }) hn
    fun r hr => (hlow r hr).chainEnds_eq_nil
  exact ⟨w', hrun', hw'⟩

theorem lower_readAll_sample :
    ∃ roots b report w, ({} : Arena).readAll ["a?.b;", "f?.(a?.b);"] = some (roots, b) ∧
      Target.es5.level < Target.es2020.level ∧
      b.lower {} { target := .es5 } roots = (.ok report, w) ∧
      report.chains = 3 ∧ (∀ r ∈ roots, w.arena.IsLowered r) ∧
      ∀ names', ∃ w', w.arena.lower names' { target := .es5 } roots = (.ok {}, w') ∧
        w'.arena = w.arena := by
  have hread : ∃ roots b, ({} : Arena).readAll ["a?.b;", "f?.(a?.b);"] = some (roots, b) ∧
      (roots.map fun r => (b.chainEnds r).length).sum = 3 := exists_of_readAll (by decide +kernel)
  obtain ⟨roots, b, hr, hn⟩ := hread
  obtain ⟨report, w, hrun, hc, hlow, hagain⟩ := lower_readAll {} { target := .es5 } hr (by decide)
  exact ⟨roots, b, report, w, hr, by decide, hrun, hc.trans hn, hlow, hagain⟩

end Arena

end ChainLowering
