import Mathlib.Algebra.Group.End
import ChainLowering.Proofs.Completeness
import ChainLowering.Proofs.OneChain
import ChainLowering.Proofs.Twins

/-!
# Chains in any order

Whatever the order in which the chains of a script are lowered, all of them
are, and what comes of the script is the same up to the names of temporaries
and the order of their declarations before a statement.
-/

namespace ChainLowering

open Grown

theorem exists_exchange {α : Type} [DecidableEq α] {xs ys : List α} (h : xs.Perm ys)
    (hn : xs.Nodup) :
    ∃ ρ : Equiv.Perm α, xs.map ρ = ys ∧ ∀ x ∉ xs, ρ x = x := by
  induction h with
  | nil => exact ⟨1, rfl, fun _ _ => rfl⟩
  | @cons x xs ys _ ih =>
    obtain ⟨hx, hn⟩ := List.nodup_cons.mp hn
    obtain ⟨ρ, hmap, hfix⟩ := ih hn
    refine ⟨ρ, by rw [List.map_cons, hmap, hfix x hx],
      fun y hy => hfix y fun h => hy (List.mem_cons_of_mem x h)⟩
  | swap x y xs =>
    refine ⟨Equiv.swap x y, ?_, fun z hz => ?_⟩
    · have hfix : xs.map (Equiv.swap x y) = xs := by
        refine (List.map_congr_left fun z hz => ?_).trans (List.map_id xs)
        obtain ⟨hy, hn⟩ := List.nodup_cons.mp hn
        refine Equiv.swap_apply_of_ne_of_ne ?_ ?_
        · rintro rfl
          exact (List.nodup_cons.mp hn).1 hz
        · rintro rfl
          exact hy (List.mem_cons_of_mem x hz)
      rw [List.map_cons, List.map_cons, hfix, Equiv.swap_apply_left, Equiv.swap_apply_right]
    · simp only [List.mem_cons, not_or] at hz
      exact Equiv.swap_apply_of_ne_of_ne hz.2.1 hz.1
  | trans h _ ih ih' =>
    obtain ⟨ρ, hmap, hfix⟩ := ih hn
    obtain ⟨σ, hmap', hfix'⟩ := ih' (h.nodup_iff.mp hn)
    refine ⟨ρ.trans σ, ?_, fun x hx => ?_⟩
    · rw [← hmap', ← hmap, List.map_map]
      rfl
    · rw [Equiv.trans_apply, hfix x hx, hfix' x fun h' => hx (h.mem_iff.mpr h')]

namespace Lower

/-- A store with a new source of names that leaves out those of a script. -/
def start (b : Arena) (root : Ref) : Work Names :=
  { arena := b, names := ({} : Names).reserveIn b root }

/-- Names are exchanged, and some of them are those of temporaries. -/
def exchange (ρ : Equiv.Perm String) (temporaries : List String) : Renaming :=
  ⟨fun x y => ρ x = y, fun x => x ∈ temporaries⟩

variable {a b : Arena} {source : String} {root : Ref} {cs ds : List NodeId}
    {t : Grown} {R : Entries}

theorem notMem_drawn (h : b.Holds (t.entries none + R)) (n : Nat) :
    ∀ s ∈ t.names, s ∉ NameSource.drawn n (start b (some t.id)).names := by
  intro s hs hdrawn
  have hfree := (Names.drawn_fresh n _).2 s hdrawn
  have hmem : s ∈ (start b (some t.id)).names.reserved := by
    rw [start, Names.reserveIn_tree _ h, Names.mem_foldl_reserve]
    exact .inl hs
  rw [Names.isReserved, Bool.or_eq_false_iff] at hfree
  simp [hmem] at hfree

/-- One order in which all chains of a script are lowered. -/
theorem chains_whole (ht : t.Sound) (hk : t.label.kind = .script) (h : b.Holds (t.entries none + R))
    (hc : cs.Perm (b.chainEnds (some t.id))) :
    ∃ w choice, (chains cs).run (start b (some t.id)) = (.ok (), w) ∧
      w.arena.tree (some t.id) = (whole cs choice t).tree.toTree ∧
      w.names.generated =
      (NameSource.drawn (whole cs choice t).dues.length (start b (some t.id)).names).reverse ∧
      ((whole cs choice t).dues.map fun d => d.temp.name).Perm w.names.generated := by
  have hcs : t.endSet false = cs := by
    rw [endSet, ← Arena.chainEnds_tree h]
    exact (Multiset.coe_eq_coe.mpr hc).symm
  obtain ⟨_, w, hrun, xs, u, hu, ⟨ps, hold⟩, hnames, hrest⟩ :=
    forM_guardChain_sound (w := start b (some t.id)) ht hk hcs h
  obtain ⟨choice, htree, hperm⟩ := hu.exists_whole (nodup_endSet h)
  have hlen : (whole cs choice t).dues.length = xs.length := by simpa using hperm.length_eq
  have hgenerated : w.names.generated =
      (NameSource.drawn xs.length (start b (some t.id)).names).reverse := by
    rw [hrest, Names.generated_after, start, Names.reserveIn_tree _ h,
      Names.generated_foldl_reserve, List.append_nil]
  refine ⟨w, choice, hrun, ?_, by rw [hlen, hgenerated], ?_⟩
  · rw [htree, ← hu.root.1]
    exact Arena.tree_eq hold
  · have := hperm.map Temp.name
    rw [hnames, List.map_map] at this
    rw [hgenerated]
    exact this.trans (List.reverse_perm _).symm

/-- The chains of a script can be lowered in any order. -/
theorem chains_any_order (hr : a.read source = (.ok root, b)) (hc : cs.Perm (b.chainEnds root))
    (hd : ds.Perm (b.chainEnds root)) :
    ∃ (v w : Work Names) (ρ : Equiv.Perm String),
      (chains cs).run (start b root) = (.ok (), v) ∧ (chains ds).run (start b root) = (.ok (), w) ∧
      (∀ s ∉ v.names.generated, ρ s = s) ∧ (v.names.generated.map ρ).Perm w.names.generated ∧
      Tree.Alike (exchange ρ v.names.generated) (v.arena.tree root) (w.arena.tree root) := by
  obtain ⟨t, rfl, -, ht, h, -⟩ := Arena.read_holds (Arena.Forest.holds_all a) hr
  have hs : t.Sound := ht.sound
  have hk := kind_of_script ht
  obtain ⟨v, choice, hv, hvtree, hvdrawn, hvperm⟩ := chains_whole hs hk h hc
  obtain ⟨w, choice', hw, hwtree, hwdrawn, hwperm⟩ := chains_whole hs hk h hd
  -- both orders make the same temporaries but for their names, so the names can be paired
  obtain ⟨ps, hpaired, halike⟩ := exists_twins (hc.trans hd.symm) choice choice' t
  have hlen : (whole cs choice t).dues.length = (whole ds choice' t).dues.length := by
    rw [hpaired.left, hpaired.right, List.length_map, List.length_map]
  have hsame : w.names.generated = v.names.generated := by rw [hvdrawn, hwdrawn, hlen]
  have hnodup : v.names.generated.Nodup := by
    rw [hvdrawn, List.nodup_reverse]
    exact (Names.drawn_fresh _ _).1
  rw [hpaired.left, List.map_map] at hvperm
  rw [hpaired.right, List.map_map] at hwperm
  obtain ⟨ρ, hmap, hfix⟩ :=
    exists_exchange (hvperm.trans (hsame ▸ hwperm.symm)) (hvperm.nodup_iff.mpr hnodup)
  have hfix' : ∀ s ∉ v.names.generated, ρ s = s :=
    fun s hs => hfix s fun hs' => hs (hvperm.mem_iff.mp hs')
  refine ⟨v, w, ρ, hv, hw, hfix', ?_, ?_⟩
  · have := hvperm.map ρ
    rw [hmap] at this
    exact this.symm.trans hwperm
  · rw [hvtree, hwtree]
    refine halike _ ⟨fun s hs => hfix' s fun hg => ?_, fun q hq => ⟨?_, ?_⟩⟩
    · rw [hvdrawn, List.mem_reverse] at hg
      exact notMem_drawn h _ s hs hg
    · rw [List.map_map] at hmap
      exact (List.map_inj_left.mp hmap) q hq
    · exact hvperm.mem_iff.mp
        (List.mem_map_of_mem (f := (fun d : Due => d.temp.name) ∘ Prod.fst) hq)

theorem chains_any_order_sample : ∃ (root : Ref) (b : Arena) (c d : NodeId), c ≠ d ∧
    ({} : Arena).read "f?.(a?.b);" = (.ok root, b) ∧ [c, d].Perm (b.chainEnds root) ∧
    [d, c].Perm (b.chainEnds root) ∧
    ∃ (v w : Work Names) (ρ : Equiv.Perm String),
      (chains [c, d]).run (start b root) = (.ok (), v) ∧
      (chains [d, c]).run (start b root) = (.ok (), w) ∧ (∀ s ∉ v.names.generated, ρ s = s) ∧
      (v.names.generated.map ρ).Perm w.names.generated ∧
      Tree.Alike (exchange ρ v.names.generated) (v.arena.tree root) (w.arena.tree root) := by
  have hread : ∃ (root : Ref) (b : Arena), ({} : Arena).read "f?.(a?.b);" = (.ok root, b) ∧
      b.chainEnds root = [3, 2] := Arena.exists_of_read (by decide +kernel)
  obtain ⟨root, b, hr, hends⟩ := hread
  have hc : [3, 2].Perm (b.chainEnds root) := by rw [hends]
  have hd : [2, 3].Perm (b.chainEnds root) := by rw [hends]; exact .swap 3 2 []
  exact ⟨root, b, 3, 2, by decide, hr, hc, hd, chains_any_order hr hc hd⟩

end Lower

end ChainLowering
