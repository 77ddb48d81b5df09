import ChainLowering.Proofs.Descent
import ChainLowering.Proofs.Forest

/-!
# A forest is what trees put into a store

A store is a forest just when it holds some trees side by side, each of them
with a root that stands nowhere.
-/

namespace ChainLowering

open Grown
open Relation (TransGen)

namespace Grown

theorem ids_sublist (ts : List Grown) : (ts.map Grown.id).Sublist (ts.flatMap ids) := by
  induction ts with
  | nil => exact List.Sublist.slnil
  | cons t ts ih =>
    obtain ⟨i, l, us⟩ := t
    rw [List.map_cons, List.flatMap_cons, ids_node, List.cons_append]
    exact (ih.trans (List.sublist_append_right _ _)).cons_cons _

end Grown

namespace Arena

variable {a : Arena} {i j : NodeId} {n m : Node} {t u : Grown} {ts : List Grown} {K : Context}
    {R : Entries} {p : Ref}

/-! ## From a forest to trees -/

namespace Forest

theorem root_unique (h : Forest a) (ht : Shows a none t) (hu : Shows a none u) (hjt : j ∈ t.ids)
    (hju : j ∈ u.ids) :
    t.id = u.id := by
  induction hk : a.size - height a j using Nat.strong_induction_on generalizing j with
  | _ k ih =>
    have hroot : ∀ {t u : Grown}, Shows a none t → Shows a none u → t.id ∈ u.ids → t.id = u.id := by
      intro t u ht hu hmem
      rcases exists_parent_mem (p := none) hmem with e | ⟨m, q, hm, hq, -⟩
      · exact e
      · obtain rfl := Option.some.inj ((hu _ hm).symm.trans ht.root)
        cases hq
    rcases exists_parent_mem (p := none) hjt with rfl | ⟨m, q, hm, hq, hqt⟩
    · exact hroot ht hu hju
    · rcases exists_parent_mem (p := none) hju with rfl | ⟨m', q', hm', hq', hqu⟩
      · exact (hroot hu ht hjt).symm
      · have e : m = m' := Option.some.inj ((ht _ hm).symm.trans (hu _ hm'))
        subst e
        obtain rfl := Option.some.inj (hq.symm.trans hq')
        have hlt : height a j < height a q := h.height_lt (h.parent (ht _ hm) hq)
        have hle := height_le_size a q
        exact ih _ (by omega) hqt hqu rfl

theorem exists_trees (h : Forest a) : ∃ ts, a.Holds (entriesAll none ts) := by
  -- one tree for each node without a parent
  let roots := (List.range a.size).filter fun i => (a.parent (some i)).isNone
  obtain ⟨ts, hts, hshow⟩ := exists_children (P := Shows a none) (roots.map some) <| by
    intro c hc
    obtain ⟨i, hi, rfl⟩ := List.mem_map.mp hc
    rw [List.mem_filter, List.mem_range, Option.isNone_iff_eq_none, Arena.parent] at hi
    obtain ⟨n, hn⟩ : ∃ n, a.node? (some i) = some n := ⟨_, Array.getElem?_eq_getElem hi.1⟩
    rw [hn] at hi
    obtain ⟨t, rfl, ht⟩ := h.exists_tree hn
    exact ⟨t, rfl, hi.2 ▸ ht⟩
  have hids : ts.map Grown.id = roots := by
    have := congrArg (List.filterMap fun r : Ref => r) hts
    simpa [slots, List.filterMap_map, Function.comp_def] using this
  have hnodup : (ts.flatMap ids).Nodup := by
    rw [List.nodup_flatMap]
    refine ⟨fun t ht => h.nodup_ids (hshow t ht), ?_⟩
    have hroots : (ts.map Grown.id).Nodup := hids ▸ List.nodup_range.filter _
    rw [List.nodup_iff_pairwise_ne, List.pairwise_map] at hroots
    exact hroots.imp_of_mem fun ht hu hne j hjt hju =>
      hne (h.root_unique (hshow _ ht) (hshow _ hu) hjt hju)
  refine ⟨ts, (holds_all a).of_eq ((Multiset.Nodup.ext ?_ ?_).mpr fun e => ?_)⟩
  · exact .of_map Prod.fst (holds_all a).nodup
  · refine .of_map Prod.fst ?_
    rw [keys_entriesAll]
    exact Multiset.coe_nodup.mpr hnodup
  · rw [mem_all, mem_entriesAll]
    constructor
    · intro he
      obtain ⟨u, hu, hmem⟩ := h.exists_rooted (i := e.1) he
      have huroot : u.id ∈ roots := by
        rw [List.mem_filter, List.mem_range, hu.parent]
        exact ⟨(Array.getElem?_eq_some_iff.mp hu.root).1, rfl⟩
      obtain ⟨t, ht, hid⟩ := List.mem_map.mp (hids ▸ huroot)
      obtain ⟨R, hR⟩ := h.exists_holds hu
      obtain ⟨S, hS⟩ := h.exists_holds (hshow t ht)
      rw [← preorder_tree hR, ← hid, preorder_tree hS] at hmem
      obtain ⟨m, hm⟩ := exists_entry (p := none) hmem
      obtain ⟨i, n⟩ := e
      have e : m = n := Option.some.inj ((hshow t ht _ hm).symm.trans he)
      exact ⟨t, ht, e ▸ hm⟩
    · rintro ⟨t, ht, he⟩
      exact hshow t ht e he

end Forest

/-! ## From trees to a forest -/

theorem Holds.exists_hole (h : a.Holds (entriesAll none ts)) (hi : i < a.size) :
    ∃ K u us vs, ts = us ++ plug K u :: vs ∧ u.id = i ∧
      a.Holds ((plug K u).entries none + entriesAll none (us ++ vs)) := by
  obtain ⟨n, hn⟩ := h.exists_of_lt hi
  obtain ⟨t, ht, hn⟩ := mem_entriesAll.mp hn
  have hmem : i ∈ t.ids := by
    rw [← Multiset.mem_coe, ← keys_entries none]
    exact Multiset.mem_map_of_mem Prod.fst hn
  obtain ⟨K, u, rfl, hu⟩ := Forest.exists_plug hmem
  obtain ⟨us, vs, rfl⟩ := List.append_of_mem ht
  refine ⟨K, u, us, vs, rfl, hu, h.of_eq ?_⟩
  rw [entriesAll_append, entriesAll_cons, entriesAll_append]
  abel

theorem Holds.at_hole (h : a.Holds ((plug K t).entries none + R)) :
    a.Holds (t.entries (owner K) + (contextEntries K t.id + R)) := by
  refine h.of_eq ?_
  rw [entries_plug]
  abel

theorem Holds.nodup_ids (h : a.Holds (t.entries p + R)) : t.ids.Nodup := by
  rw [← Multiset.coe_nodup, ← keys_entries p]
  exact Multiset.nodup_of_le (Multiset.map_le_map (Multiset.le_add_right _ _)) h.nodup

theorem Holds.exists_child {c : Ref} (h : a.Holds ((plug K u).entries none + R))
    (hc : c ∈ slots u.children) :
    ∃ (f : Frame) (v : Grown), u = f.fill v ∧ f.id = u.id ∧ some v.id = c := by
  obtain ⟨i, l, us⟩ := u
  obtain ⟨v, hv, rfl⟩ := mem_slots.mp hc
  obtain ⟨left, right, e⟩ := List.append_of_mem hv
  rw [children_node] at e
  exact ⟨⟨i, l, left, right⟩, v, by rw [Frame.fill, e], rfl, rfl⟩

theorem forest_of_trees (h : a.Holds (entriesAll none ts)) : Forest a where
  child {i n c} hn hc := by
    obtain ⟨K, u, us, vs, -, rfl, hu⟩ := h.exists_hole (Array.getElem?_eq_some_iff.mp hn).1
    obtain rfl := Option.some.inj (hu.node?_hole.symm.trans hn)
    obtain ⟨f, v, rfl, hid, rfl⟩ := hu.exists_child hc
    exact ⟨v.id, _, rfl, Holds.node?_hole (K := f :: K) hu, congrArg some hid⟩
  parent {j m i} hm hp := by
    obtain ⟨K, u, us, vs, -, rfl, hu⟩ := h.exists_hole (Array.getElem?_eq_some_iff.mp hm).1
    obtain rfl := Option.some.inj (hu.node?_hole.symm.trans hm)
    cases K with
    | nil => cases hp
    | cons f K =>
      obtain rfl := Option.some.inj hp
      exact ⟨_, hu.node?_owner, by simp⟩
  nodup {i n} hn := by
    obtain ⟨K, u, us, vs, -, rfl, hu⟩ := h.exists_hole (Array.getElem?_eq_some_iff.mp hn).1
    obtain rfl := Option.some.inj (hu.node?_hole.symm.trans hn)
    have hids := hu.at_hole.nodup_ids
    obtain ⟨i, l, ws⟩ := u
    rw [ids_node, List.nodup_cons] at hids
    have := ((ids_sublist ws).nodup hids.2).map (Option.some_injective _)
    rwa [List.map_map] at this
  acyclic i hi := by
    -- what is below a node grows less from each node to its children
    have hlt : ∀ {i j}, a.Lists i j →
        (a.preorder (some j)).length < (a.preorder (some i)).length := by
      rintro i j ⟨n, hn, hj⟩
      obtain ⟨K, u, us, vs, -, rfl, hu⟩ := h.exists_hole (Array.getElem?_eq_some_iff.mp hn).1
      obtain rfl := Option.some.inj (hu.node?_hole.symm.trans hn)
      obtain ⟨f, v, rfl, -, e⟩ := hu.exists_child hj
      obtain rfl := Option.some.inj e
      rw [preorder_tree hu.at_hole, preorder_tree (Holds.at_hole (K := f :: K) hu), Frame.fill,
        ids_node, List.length_cons]
      exact Nat.lt_succ_of_le (length_ids_le_flatMap (by simp))
    have hpath : ∀ {j}, TransGen a.Lists i j →
        (a.preorder (some j)).length < (a.preorder (some i)).length := by
      intro j hij
      induction hij with
      | single hj => exact hlt hj
      | tail _ hk ih => exact (hlt hk).trans ih
    exact lt_irrefl _ (hpath hi)

end Arena

end ChainLowering
