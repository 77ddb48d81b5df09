import Mathlib.Data.Finset.Card
import Mathlib.Logic.Relation
import ChainLowering.Proofs.Desugar
import ChainLowering.Proofs.WalkSound

/-!
# Forests

A store is a forest when its links are consistent and no node is below
itself. Then every node stands in a grown tree that the store holds.
-/

namespace ChainLowering

open Grown

namespace Arena

def Lists (a : Arena) (i j : NodeId) : Prop := ∃ n, a.node? (some i) = some n ∧ some j ∈ n.children

/-- Parents and children name each other, and there are no loops. -/
structure Forest (a : Arena) : Prop where
  /-- What a node lists is a node that has it as parent. -/
  child : ∀ {i n c}, a.node? (some i) = some n → c ∈ n.children →
    ∃ j m, c = some j ∧ a.node? (some j) = some m ∧ m.parent = some i
  parent : ∀ {j m i}, a.node? (some j) = some m → m.parent = some i → a.Lists i j
  nodup : ∀ {i n}, a.node? (some i) = some n → n.children.Nodup
  acyclic : ∀ i, ¬ Relation.TransGen a.Lists i i

namespace Forest

variable {a : Arena}

noncomputable def height (a : Arena) (i : NodeId) : Nat := by
  classical
  exact ((Finset.range a.size).filter (Relation.TransGen a.Lists i)).card

theorem lt_size_of_lists (h : Forest a) {i j : NodeId} (hij : a.Lists i j) : j < a.size := by
  obtain ⟨n, hn, hj⟩ := hij
  obtain ⟨k, m, hk, hm, -⟩ := h.child hn hj
  obtain rfl := Option.some.inj hk
  exact (Array.getElem?_eq_some_iff.mp hm).1

theorem height_lt (h : Forest a) {i j : NodeId} (hij : a.Lists i j) : height a j < height a i := by
  classical
  refine Finset.card_lt_card (Finset.ssubset_iff_of_subset ?_ |>.mpr ⟨j, ?_, ?_⟩)
  · intro k hk
    rw [Finset.mem_filter] at hk ⊢
    exact ⟨hk.1, .head hij hk.2⟩
  · rw [Finset.mem_filter, Finset.mem_range]
    exact ⟨h.lt_size_of_lists hij, .single hij⟩
  · rw [Finset.mem_filter]
    exact fun hj => h.acyclic j hj.2

theorem height_le_size (a : Arena) (i : NodeId) : height a i ≤ a.size := by
  classical
  exact (Finset.card_filter_le _ _).trans (Finset.card_range _).le

/-! ## The tree below a node -/

theorem exists_children {P : Grown → Prop} (cs : List Ref)
    (h : ∀ c ∈ cs, ∃ t : Grown, some t.id = c ∧ P t) :
    ∃ ts, slots ts = cs ∧ ∀ t ∈ ts, P t := by
  induction cs with
  | nil => exact ⟨[], rfl, fun _ ht => nomatch ht⟩
  | cons c cs ih =>
    obtain ⟨t, rfl, ht⟩ := h c List.mem_cons_self
    obtain ⟨ts, rfl, hts⟩ := ih fun d hd => h d (List.mem_cons_of_mem _ hd)
    exact ⟨t :: ts, rfl, List.forall_mem_cons.mpr ⟨ht, hts⟩⟩

theorem exists_tree (h : Forest a) {i : NodeId} {n : Node} (hn : a.node? (some i) = some n) :
    ∃ t : Grown, t.id = i ∧ Shows a n.parent t := by
  induction hk : height a i using Nat.strong_induction_on generalizing i n with
  | _ k ih =>
    obtain ⟨ts, hts, hshow⟩ := exists_children (P := Shows a (some i)) n.children <| by
      intro c hc
      obtain ⟨j, m, rfl, hm, hp⟩ := h.child hn hc
      obtain ⟨t, rfl, ht⟩ := ih _ (hk ▸ h.height_lt ⟨n, hn, hc⟩) hm rfl
      exact ⟨t, rfl, hp ▸ ht⟩
    refine ⟨.node i n.toLabel ts, rfl, ?_⟩
    intro e he
    rw [entries_node, Multiset.mem_cons, mem_entriesAll] at he
    rcases he with rfl | ⟨t, ht, he⟩
    · rw [hts]; exact hn
    · exact hshow t ht e he

theorem exists_parent_mem {t : Grown} {p : Ref} {j : NodeId} (hj : j ∈ t.ids) :
    j = t.id ∨ ∃ m q, (j, m) ∈ t.entries p ∧ m.parent = some q ∧ q ∈ t.ids := by
  induction t generalizing p with
  | node i l ts ih =>
    rw [ids_node, List.mem_cons, List.mem_flatMap] at hj
    rcases hj with rfl | ⟨t, ht, hj⟩
    · exact .inl rfl
    · refine .inr ?_
      rw [entries_node, ids_node]
      rcases ih t ht (p := some i) hj with rfl | ⟨m, q, hm, hq, hmem⟩
      · refine ⟨⟨t.label, some i, slots t.children⟩, i,
          Multiset.mem_cons_of_mem (mem_entriesAll.mpr ⟨t, ht, ?_⟩), rfl, List.mem_cons_self⟩
        rw [entries_eq]
        exact Multiset.mem_cons_self _ _
      · refine ⟨m, q, Multiset.mem_cons_of_mem (mem_entriesAll.mpr ⟨t, ht, hm⟩), hq, ?_⟩
        exact List.mem_cons_of_mem _ (List.mem_flatMap.mpr ⟨t, ht, hmem⟩)

theorem exists_entry {t : Grown} {p : Ref} {j : NodeId} (hj : j ∈ t.ids) :
    ∃ m, (j, m) ∈ t.entries p := by
  have : j ∈ (t.entries p).map Prod.fst := by
    rw [keys_entries]
    exact hj
  obtain ⟨⟨i, m⟩, hm, rfl⟩ := Multiset.mem_map.mp this
  exact ⟨m, hm⟩

theorem child_mem_ids {t : Grown} {p : Ref} {j k : NodeId} {m : Node} (hm : (j, m) ∈ t.entries p)
    (hk : some k ∈ m.children) : k ∈ t.ids := by
  induction t generalizing p with
  | node i l ts ih =>
    rw [entries_node, Multiset.mem_cons, mem_entriesAll] at hm
    rw [ids_node, List.mem_cons, List.mem_flatMap]
    refine .inr ?_
    rcases hm with e | ⟨t, ht, hm⟩
    · rw [(Prod.mk.inj e).2] at hk
      obtain ⟨t, ht, e⟩ := mem_slots.mp hk
      exact ⟨t, ht, Option.some.inj e ▸ t.id_mem_ids⟩
    · exact ⟨t, ht, ih t ht hm⟩

theorem height_le (h : Forest a) {t : Grown} {p : Ref} (ht : Shows a p t) {j : NodeId}
    (hj : j ∈ t.ids) :
    height a j ≤ height a t.id := by
  induction t generalizing p with
  | node i l ts ih =>
    rw [ids_node, List.mem_cons, List.mem_flatMap] at hj
    rcases hj with rfl | ⟨t, hmem, hj⟩
    · exact le_rfl
    · have hlt : height a t.id < height a i :=
        h.height_lt ⟨_, ht.root, mem_slots.mpr ⟨t, hmem, rfl⟩⟩
      exact (ih t hmem (ht.child hmem) hj).trans hlt.le

/-- Trees of two children have no node in common: the topmost such node would be above itself. -/
theorem disjoint_of_ne (h : Forest a) {t u : Grown} {i j : NodeId} (ht : Shows a (some i) t)
    (hu : Shows a (some i) u) (hne : t.id ≠ u.id) (hjt : j ∈ t.ids) (hju : j ∈ u.ids) : False := by
  have hlt : height a t.id < height a i := h.height_lt (h.parent ht.root rfl)
  have hlu : height a u.id < height a i := h.height_lt (h.parent hu.root rfl)
  induction hk : height a i - height a j using Nat.strong_induction_on generalizing j with
  | _ k ih =>
    rcases exists_parent_mem (p := some i) hjt with rfl | ⟨m, q, hm, hq, hqt⟩
    · rcases exists_parent_mem (p := some i) hju with e | ⟨m, q, hm, hq, hqu⟩
      · exact hne e
      · have e := (hu _ hm).symm.trans ht.root
        obtain rfl := Option.some.inj e
        obtain rfl := Option.some.inj hq
        exact absurd (h.height_le hu hqu) (not_le.mpr hlu)
    · rcases exists_parent_mem (p := some i) hju with rfl | ⟨m', q', hm', hq', hqu⟩
      · have e := (ht _ hm).symm.trans hu.root
        obtain rfl := Option.some.inj e
        obtain rfl := Option.some.inj hq
        exact absurd (h.height_le ht hqt) (not_le.mpr hlt)
      · have e : m = m' := Option.some.inj ((ht _ hm).symm.trans (hu _ hm'))
        subst e
        obtain rfl := Option.some.inj (hq.symm.trans hq')
        have h₁ : height a j < height a q := h.height_lt (h.parent (ht _ hm) hq)
        have h₂ := h.height_le ht hqt
        exact ih _ (by omega) hqt hqu rfl

theorem nodup_ids (h : Forest a) {t : Grown} {p : Ref} (ht : Shows a p t) : t.ids.Nodup := by
  induction t generalizing p with
  | node i l ts ih =>
    rw [ids_node, List.nodup_cons, List.nodup_flatMap]
    refine ⟨?_, fun t hmem => ih t hmem (ht.child hmem), ?_⟩
    · intro hi
      obtain ⟨t, hmem, hi⟩ := List.mem_flatMap.mp hi
      have hlt : height a t.id < height a i :=
        h.height_lt ⟨_, ht.root, mem_slots.mpr ⟨t, hmem, rfl⟩⟩
      exact absurd (h.height_le (ht.child hmem) hi) (not_le.mpr hlt)
    · have hnd : (slots ts).Nodup := h.nodup ht.root
      rw [slots, List.nodup_iff_pairwise_ne, List.pairwise_map] at hnd
      refine hnd.imp_of_mem ?_
      intro t u hmt hmu hne j hjt hju
      exact h.disjoint_of_ne (ht.child hmt) (ht.child hmu) (fun e => hne (congrArg some e)) hjt hju

/-! ## The tree around a node -/

theorem exists_rooted (h : Forest a) {i : NodeId} {n : Node} (hn : a.node? (some i) = some n) :
    ∃ t : Grown, Shows a none t ∧ i ∈ t.ids := by
  induction hk : a.size - height a i using Nat.strong_induction_on generalizing i n with
  | _ k ih =>
    cases hp : n.parent with
    | none =>
      obtain ⟨t, rfl, ht⟩ := h.exists_tree hn
      exact ⟨t, hp ▸ ht, t.id_mem_ids⟩
    | some q =>
      have hq := h.parent hn hp
      have hlt := h.height_lt hq
      have hle := height_le_size a q
      obtain ⟨m, hm, hmem⟩ := hq
      obtain ⟨t, ht, hqt⟩ := ih (a.size - height a q) (by omega) hm rfl
      obtain ⟨m', hm'⟩ := exists_entry (p := none) hqt
      obtain rfl : m = m' := Option.some.inj (hm.symm.trans (ht _ hm'))
      exact ⟨t, ht, child_mem_ids hm' hmem⟩

def all (a : Arena) : Entries :=
  (Multiset.range a.size).map fun i => (i, (a.nodes[i]?).getD { toLabel := default })

theorem mem_all {e : NodeId × Node} : e ∈ all a ↔ a.nodes[e.1]? = some e.2 := by
  obtain ⟨i, n⟩ := e
  simp only [all, Multiset.mem_map, Multiset.mem_range, Prod.mk.injEq]
  constructor
  · rintro ⟨j, hj, rfl, rfl⟩
    rw [Array.getElem?_eq_getElem hj]
    rfl
  · intro h
    exact ⟨i, (Array.getElem?_eq_some_iff.mp h).1, rfl, by rw [h]; rfl⟩

theorem holds_all (a : Arena) : a.Holds (all a) where
  keys := by simp [all]
  nodes _ he := mem_all.mp he

theorem exists_holds (h : Forest a) {t : Grown} (ht : Shows a none t) :
    ∃ R, a.Holds (t.entries none + R) := by
  have hnd : (t.entries none).Nodup := by
    refine Multiset.Nodup.of_map Prod.fst ?_
    rw [keys_entries]
    exact Multiset.coe_nodup.mpr (h.nodup_ids ht)
  have hle : t.entries none ≤ all a :=
    (Multiset.le_iff_subset hnd).mpr fun e he => mem_all.mpr (ht e he)
  obtain ⟨R, hR⟩ := Multiset.le_iff_exists_add.mp hle
  exact ⟨R, (holds_all a).of_eq hR⟩

theorem exists_plug {t : Grown} {i : NodeId} (hi : i ∈ t.ids) : ∃ K u, t = plug K u ∧ u.id = i := by
  induction t with
  | node j l ts ih =>
    rw [ids_node, List.mem_cons, List.mem_flatMap] at hi
    rcases hi with rfl | ⟨t, ht, hi⟩
    · exact ⟨[], _, rfl, rfl⟩
    · obtain ⟨K, u, rfl, hu⟩ := ih t ht hi
      obtain ⟨left, right, rfl⟩ := List.append_of_mem ht
      exact ⟨K ++ [⟨j, l, left, right⟩], u, by rw [plug_append]; rfl, hu⟩

theorem exists_hole (h : Forest a) {i : NodeId} {n : Node} (hn : a.node? (some i) = some n) :
    ∃ K u R, u.id = i ∧ a.Holds ((plug K u).entries none + R) := by
  obtain ⟨t, ht, hi⟩ := h.exists_rooted hn
  obtain ⟨K, u, rfl, hu⟩ := exists_plug hi
  obtain ⟨R, hR⟩ := h.exists_holds ht
  exact ⟨K, u, R, hu, hR⟩

end Forest

end Arena

end ChainLowering
