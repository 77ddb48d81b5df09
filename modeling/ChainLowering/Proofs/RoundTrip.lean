import ChainLowering.Proofs.GrammarSound
import ChainLowering.Proofs.Recital
import ChainLowering.Proofs.Spacing

/-!
# Printed scripts are read again

The text of a script is split into the tokens that it was put together from,
and the reader makes the same tree of them, if it does not find it nested too
deeply. Lowered scripts are no exception.
-/

namespace ChainLowering

/-- Wherever the text is read to, the tree shows the same again, or is too deep for the reader. -/
def ReadsBack (source : String) (t : Tree) : Prop :=
  ∀ a : Arena, (∃ n, (a.read source).1 = .error (.error (.tooDeep n))) ∨
    ∃ r, (a.read source).1 = .ok r ∧ ((a.read source).2.tree r).bare = t.bare

namespace Tree

variable {t : Tree}

theorem Is.readTrees_printStatement (h : Is .script t) (hp : t.Printable) :
    (∃ n ts, readTrees t.printStatement = (.error (.error (.tooDeep n)), ts)) ∨
      ∃ u, readTrees t.printStatement = (.ok (), [u]) ∧ u.bare = t.bare := by
  have hneat : Piece.Neat (statementOf t (t.pieces 0)) := h.spacedAs hp 0
  obtain ⟨tokens, htokens, htoks⟩ := Piece.tokens_text hneat.spelled hneat.apart
  have hgoes : SpokenScript t := h.spokenAs
  let begun : TreeReader := { tokens := tokens, made := [] }
  have hrun : readTrees t.printStatement = ((Reader.script.run begun).1,
      (Reader.script.run begun).2.made.reverse) := by
    rw [readTrees, printStatement, htokens]
    rfl
  obtain ⟨n, r, hr⟩ | ⟨⟨⟩, r, v, hr, hv, rfl⟩ := hgoes begun ⟨htoks, rfl, rfl⟩
  · exact .inl ⟨n, r.made.reverse, by rw [hrun, hr]⟩
  · obtain ⟨u, hu, hbare⟩ : ∃ u, r.made = [u] ∧ u.bare = t.bare := by
      obtain ⟨u, us, hm, hu, hus⟩ := List.map_eq_cons_iff.mp hv.made
      exact ⟨u, by rw [hm, List.map_eq_nil_iff.mp hus], hu⟩
    exact .inr ⟨u, by rw [hrun, hr, hu]; rfl, hbare⟩

theorem Is.readsBack (h : Is .script t) (hp : t.Printable) : ReadsBack t.printStatement t := by
  intro a
  obtain ⟨n, ts, hr⟩ | ⟨u, hr, hu⟩ := h.readTrees_printStatement hp
  · exact .inl ⟨n, a.fst_read_of_error hr⟩
  · obtain ⟨r, b, hread⟩ := a.exists_read hr
    obtain ⟨g, rfl, hg, -, hold, -⟩ := Arena.read_holds (Arena.Forest.holds_all a) hread
    rw [hread]
    have hgu : [g.toTree] = [u] := congrArg Prod.snd (hg.symm.trans hr)
    exact .inr ⟨some g.id, rfl, by rw [Arena.tree_eq hold, List.singleton_inj.mp hgu, hu]⟩

end Tree

namespace Arena

open Grown

variable {a b : Arena} {R : Entries} {ts : List Grown} {sources : List String} {roots : List Ref}

theorem readsBack_slots (hts : ∀ t ∈ ts, t.Is .script) (h : a.Holds (entriesAll none ts + R)) :
    ∀ r ∈ slots ts, (a.tree r).Printable → ReadsBack (a.print r) (a.tree r) := by
  intro r hr hp
  obtain ⟨t, ht, rfl⟩ := mem_slots.mp hr
  obtain ⟨S, hS⟩ := holds_of_mem ht h
  have hkind : a.isKind (some t.id) .script = true := hS.shows.isKind (kind_of_script (hts t ht))
  rw [print, hkind, Bool.true_or, if_pos rfl]
  rw [tree_eq hS] at hp ⊢
  exact Tree.Is.readsBack (hts t ht) hp

/-- What is read, printed and read again is the same, before it is lowered and after. -/
theorem print_readAll (names : Names) (options : Options)
    (hr : a.readAll sources = some (roots, b)) :
    (∀ r ∈ roots, (b.tree r).Printable → ReadsBack (b.print r) (b.tree r)) ∧
      ∃ report w, b.lower names options roots = (.ok report, w) ∧
        ∀ r ∈ roots, (w.arena.tree r).Printable → ReadsBack (w.arena.print r) (w.arena.tree r) := by
  obtain ⟨ts, R, rfl, hts, hold⟩ := readAll_is hr
  refine ⟨readsBack_slots hts hold, ?_⟩
  cases hn : options.needsLowering .optionalChaining with
  | false =>
    refine ⟨{}, { arena := b, names := names }, ?_, readsBack_slots hts hold⟩
    rw [lower, Lower.scripts, hn]
    rfl
  | true =>
    obtain ⟨report, w, hrun, -, xs, us, hus, ⟨ps, h⟩, hdraws⟩ :=
      Lower.scripts_sound (w := { arena := b, names := names })
        hn (fun t ht => ⟨(hts t ht).sound, kind_of_script (hts t ht)⟩)
        (Lower.eraseDups_slots hold) hold
    refine ⟨report, w, hrun, ?_⟩
    rw [← hus.slots_eq]
    exact readsBack_slots (hus.is hdraws.named hts) h

theorem print_readAll_sample :
    ∃ roots b report w, ({} : Arena).readAll ["x = \x7bk: (a?.b)(\"c\")\x7d;"] = some (roots, b) ∧
      b.lower {} { target := .es5 } roots = (.ok report, w) ∧
      ∀ r ∈ roots, ((b.tree r).Printable ∧ ReadsBack (b.print r) (b.tree r)) ∧
        (w.arena.tree r).Printable ∧ ReadsBack (w.arena.print r) (w.arena.tree r) := by
  have hread : ∃ roots b, ({} : Arena).readAll ["x = \x7bk: (a?.b)(\"c\")\x7d;"] = some (roots, b) ∧
      ∀ r ∈ roots, (b.tree r).Printable ∧
        ((b.lower {} { target := .es5 } roots).2.arena.tree r).Printable :=
    exists_of_readAll (by decide +kernel)
  obtain ⟨roots, b, hr, hp⟩ := hread
  obtain ⟨hback, report, w, hrun, hback'⟩ := print_readAll {} { target := .es5 } hr
  rw [hrun] at hp
  refine ⟨roots, b, report, w, hr, hrun, fun r hmem => ?_⟩
  obtain ⟨h, h'⟩ := hp r hmem
  exact ⟨⟨h, hback r hmem h⟩, h', hback' r hmem h'⟩

end Arena

end ChainLowering
