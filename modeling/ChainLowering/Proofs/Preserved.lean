import Mathlib.Data.List.Pairwise
import ChainLowering.Proofs.Completeness
import ChainLowering.Proofs.Retained
import ChainLowering.Proofs.Rewriting

/-!
# No node is lost

A pass over some of the scripts that were read keeps each of their nodes in
its script. The links of their chains become plain, all other nodes are what
they were, and what is added was made for the chains.
-/

namespace ChainLowering

open Grown

namespace Arena

/-- Under one of the scripts and no other, and there once. -/
structure StandsOnce (a : Arena) (scripts : List Ref) (r : Ref) (i : NodeId) : Prop where
  once : (a.preorder r).count i = 1
  only : ∀ s ∈ scripts, s ≠ r → i ∉ a.preorder s

def IsLinkUnder (a : Arena) (roots : List Ref) (i : NodeId) : Prop :=
  ∃ r ∈ roots, ∃ c ∈ a.chainEnds r, i ∈ a.spine (some c)

/-- What is left of a place that was filled. -/
structure IsPlaceholder (a : Arena) (scripts : List Ref) (i : NodeId) (n : Node) : Prop where
  empty : n.kind = .empty
  detached : n.parent = none
  childless : n.children = []
  aside : ∀ s ∈ scripts, i ∉ a.preorder s

/-- What a pass over `roots`, which are among `scripts`, makes of the store `b`. -/
structure Preserves (b : Arena) (scripts roots : List Ref) (a : Arena) : Prop where
  stays : ∀ r ∈ roots, ∀ i ∈ b.preorder r, a.StandsOnce scripts r i
  keeps : ∀ i n, b.node? (some i) = some n → ∃ m, a.node? (some i) = some m ∧
    (m.text = n.text ∧ m.start = n.start ∧ m.stop = n.stop ∧ m.type = n.type) ∧
    (¬ b.IsLinkUnder roots i → m.toLabel = n.toLabel) ∧
    (b.IsLinkUnder roots i → ∃ k,
      n.kind.plain? = some k ∧ m.toLabel = { n.toLabel with kind := k, chainStart := false })
  frame : ∀ i < b.size, (∀ r ∈ roots, i ∉ b.preorder r) → a.node? (some i) = b.node? (some i)
  new : ∀ i, b.size ≤ i → i < a.size → ∃ n, a.node? (some i) = some n ∧ n.synthesized = true ∧
    ((∃ r ∈ roots, a.StandsOnce scripts r i) ∨ a.IsPlaceholder scripts i n)

variable {a b : Arena} {sources : List String} {scripts roots : List Ref} {R S : Entries}
    {t u v x : Grown} {ts us : List Grown}
  {ks : List Link} {K : Context} {i : NodeId} {l : Label} {n : Node}

/-! ## Links and their chains -/

theorem end_tower (hx : x.label.kind.isChain = false) (hne : ks ≠ []) (hc : Linked ks)
    (hK : isContinued K = false) (h : a.Holds ((plug K (tower x ks)).entries none + R)) :
    (tower x ks).id ∈ a.chainEnds (some (plug K (tower x ks)).id) ∧ ∀ k ∈ ks,
      k.id ∈ a.spine (some (tower x ks).id) := by
  obtain ⟨E, hE⟩ := exists_endSet_plug K
  have hmem : (tower x ks).id ∈ (plug K (tower x ks)).endSet false := by
    rw [hE, hK, endSet_tower hc hx hne]
    simp
  refine ⟨(chainEnds_tree h).symm ▸ hmem, fun k hk => ?_⟩
  rw [spine, spineTo_tower hc _ (length_lt_size h) h]
  exact List.mem_append_left _ (List.mem_reverse.mpr (List.mem_map_of_mem hk))

theorem exists_end_above (hx : x.label.kind.isChain = false) (hne : ks ≠ []) (hc : Linked ks)
    (h : a.Holds ((plug K (tower x ks)).entries none + R)) :
    ∃ c ∈ a.chainEnds (some (plug K (tower x ks)).id), ∀ k ∈ ks, k.id ∈ a.spine (some c) := by
  induction K generalizing ks with
  | nil => exact ⟨_, end_tower hx hne hc rfl h⟩
  | cons f K ih =>
    cases hf : f.continues with
    | false => exact ⟨_, end_tower hx hne hc hf h⟩
    | true =>
      -- the owner is one more link
      rw [Frame.continues, Bool.and_eq_true, List.isEmpty_iff] at hf
      have hfill : f.fill (tower x ks) = tower x (ks ++ [⟨f.id, f.label, f.right⟩]) := by
        rw [Frame.fill, hf.2, tower_snoc]
        rfl
      have hc' : Linked (ks ++ [⟨f.id, f.label, f.right⟩]) := by
        intro k hk
        rcases List.mem_append.mp hk with hk | hk
        · exact hc k hk
        · rw [List.mem_singleton.mp hk]
          exact hf.1
      rw [plug_cons, hfill] at h ⊢
      obtain ⟨c, hends, hks⟩ := ih (by simp) hc' h
      exact ⟨c, hends, fun k hk => hks k (List.mem_append_left _ hk)⟩

theorem exists_spine (ht : t.Sound) (h : a.Holds (t.entries none + R)) (hi : (i, l) ∈ t.nodes)
    (hl : l.kind.isChain = true) :
    ∃ c ∈ a.chainEnds (some t.id), i ∈ a.spine (some c) := by
  obtain ⟨n, hn, rfl⟩ := (mem_nodes none).mp hi
  obtain ⟨K, u, rfl, rfl⟩ := Forest.exists_plug (mem_ids_of_mem_nodes hi)
  have hu : u.label.kind.isChain = true := by
    obtain rfl := Option.some.inj (h.node?_hole.symm.trans (h.shows _ hn))
    exact hl
  obtain ⟨x, ks, rfl, hne, hc, -, hx⟩ := (sound_of_plug ht).exists_tower hu
  obtain ⟨c, hends, hks⟩ := exists_end_above hx.1 hne hc h
  refine ⟨c, hends, ?_⟩
  obtain ⟨ks, k, rfl⟩ := (List.eq_nil_or_concat ks).resolve_left hne
  rw [List.concat_eq_append] at hks ⊢
  rw [tower_snoc]
  exact hks k (by simp)

theorem mem_spineTo {k : Nat} (h : a.Holds ((plug K u).entries none + R))
    (hi : i ∈ a.spineTo k (some u.id)) :
    i ∈ u.ids ∧ a.isChain (some i) = true := by
  induction u generalizing k K with
  | node j l ts ih =>
    obtain _ | k := k
    · cases hi
    rw [id_node, spineTo] at hi
    split_ifs at hi with hj
    · rw [ids_node]
      rcases List.mem_cons.mp hi with rfl | hi
      · exact ⟨List.mem_cons_self, hj⟩
      · rw [show a.firstChild (some j) = _ from firstChild_hole h, children_node] at hi
        obtain _ | ⟨t, ts⟩ := ts
        · cases k <;> cases hi
        · obtain ⟨hmem, hchain⟩ := ih t List.mem_cons_self (K := ⟨j, l, [], ts⟩ :: K) h hi
          exact ⟨List.mem_cons_of_mem _ (List.mem_append_left _ hmem), hchain⟩
    · cases hi

theorem IsLinkUnder.is_under (h : a.IsLinkUnder roots i) (hroots : ∀ r ∈ roots, r ∈ slots ts)
    (ha : a.Holds (entriesAll none ts + R)) :
    (∃ r ∈ roots, i ∈ a.preorder r) ∧ a.isChain (some i) = true := by
  obtain ⟨r, hr, c, hc, hi⟩ := h
  obtain ⟨t, ht, rfl⟩ := mem_slots.mp (hroots r hr)
  obtain ⟨S, hS⟩ := holds_of_mem ht ha
  have hc := (List.mem_filter.mp hc).1
  rw [preorder_tree hS] at hc
  obtain ⟨K, u, rfl, rfl⟩ := Forest.exists_plug hc
  obtain ⟨hmem, hchain⟩ := mem_spineTo hS hi
  refine ⟨⟨_, hr, ?_⟩, hchain⟩
  rw [preorder_tree hS]
  exact mem_ids_plug K hmem

/-! ## Trees side by side -/

theorem eq_of_mem_ids (h : a.Holds (entriesAll none us + R)) (hu : u ∈ us) (hv : v ∈ us)
    (hi : i ∈ u.ids) (hj : i ∈ v.ids) :
    u = v := by
  have hnodup := h.nodup
  rw [Multiset.map_add, keys_entriesAll] at hnodup
  have hdisjoint :=
    (List.nodup_flatMap.mp (Multiset.coe_nodup.mp (Multiset.nodup_add.mp hnodup).1)).2
  have hsymm : Std.Symm (Function.onFun List.Disjoint ids) := ⟨fun _ _ h => h.symm⟩
  by_contra hne
  exact hdisjoint.forall hu hv hne hi hj

theorem standsOnce (h : a.Holds (entriesAll none us + R)) (hu : u ∈ us) (hi : i ∈ u.ids) :
    a.StandsOnce (slots us) (some u.id) i := by
  obtain ⟨S, hS⟩ := holds_of_mem hu h
  refine ⟨?_, fun s hs hne hmem => ?_⟩
  · rw [preorder_tree hS]
    exact List.count_eq_one_of_mem (nodup_ids_of_holds hS) hi
  · obtain ⟨v, hv, rfl⟩ := mem_slots.mp hs
    obtain ⟨T, hT⟩ := holds_of_mem hv h
    rw [preorder_tree hT] at hmem
    exact hne (by rw [eq_of_mem_ids h hu hv hi hmem])

theorem lt_size_of_mem_ids (h : a.Holds (entriesAll none us + R)) (hu : u ∈ us) (hi : i ∈ u.ids) :
    i < a.size := by
  refine h.lt_size ?_
  rw [Multiset.map_add, Multiset.mem_add, keys_entriesAll]
  exact .inl (List.mem_flatMap.mpr ⟨u, hu, hi⟩)

theorem StandsOnce.mono {r : Ref} (h : a.StandsOnce scripts r i) (hs : ∀ s ∈ roots, s ∈ scripts) :
    a.StandsOnce roots r i :=
  ⟨h.once, fun s hmem => h.only s (hs s hmem)⟩

end Arena

namespace Lower

/-- A script before and after a pass over the scripts `roots`. -/
structure Passed (roots : List Ref) (t u : Grown) : Prop where
  id : u.id = t.id
  retains : Retains t.nodes u.nodes
  sound : t.Sound → u.Sound
  ends : u.endSet false ≤ t.endSet false
  same : some t.id ∉ roots → u = t

variable {roots listed : List Ref}

instance : Std.Refl (Passed roots) := ⟨fun _ => ⟨rfl, .refl _, id, le_rfl, fun _ => rfl⟩⟩

instance : IsTrans Grown (Passed roots) where
  trans _ _ _ h h' :=
    ⟨h'.id.trans h.id, h.retains.trans h'.retains, h'.sound ∘ h.sound, h'.ends.trans h.ends,
      fun hr => (h'.same (h.id.symm ▸ hr)).trans (h.same hr)⟩

variable {w : Work Names} {options : Options} {t u : Grown} {ts us : List Grown} {R : Entries}

theorem rel_passed (ts : List Grown) : Multiset.Rel (Passed roots) ts ts :=
  Multiset.rel_refl_of_refl_on fun t _ => refl_of (Passed roots) t

theorem rel_passed_middle (h : Passed roots t u) (left right : List Grown) :
    Multiset.Rel (Passed roots) (left ++ t :: right : List Grown) (u :: (left ++ right) :
      List Grown) := by
  rw [Multiset.coe_eq_coe.mpr List.perm_middle, ← Multiset.cons_coe, ← Multiset.cons_coe]
  exact .cons h (rel_passed _)

theorem Turns.passed {w' : Work Names} (h : Turns w ts roots w' us)
    (hlisted : ∀ r ∈ roots, r ∈ listed) :
    Multiset.Rel (Passed listed) ts us ∧ ∀ u ∈ us, some u.id ∈ roots → u.endSet false = 0 := by
  induction h with
  | nil => exact ⟨rel_passed _, fun _ _ h => nomatch h⟩
  | @cons w w₁ w₂ t u left right us rs xs R S _ hu _ after _ ih =>
    obtain ⟨hr, hrs⟩ := List.forall_mem_cons.mp hlisted
    obtain ⟨hus, hdone⟩ := ih hrs
    have hu0 : u.endSet false = 0 := by
      have := hu.endSet
      rwa [Grown.endSet, left_eq_add] at this
    have hfirst : Passed listed t u :=
      ⟨hu.root.1, hu.retains, hu.sound, hu0.symm ▸ Multiset.zero_le _, fun hn => absurd hr hn⟩
    refine ⟨(rel_passed_middle hfirst left right).trans _ hus, fun v hv hr => ?_⟩
    rcases List.mem_cons.mp hr with hr | hr
    · -- what was lowered first stays lowered
      obtain ⟨t', ht', hp⟩ :=
        Multiset.exists_mem_of_rel_of_mem (Multiset.rel_flip.mpr hus) (Multiset.mem_coe.mpr hv)
      have hid : t'.id = u.id := by rw [← hp.id, hu.root.1]; exact Option.some.inj hr
      obtain rfl : t' = u :=
        Arena.eq_of_mem_ids after ht' List.mem_cons_self t'.id_mem_ids (hid ▸ u.id_mem_ids)
      exact Multiset.le_zero.mp (hp.ends.trans hu0.le)
    · exact hdone v hv hr

theorem scripts_passed (hn : options.needsLowering .optionalChaining = true)
    (hroots : ∀ r ∈ roots, r ∈ slots ts) (hts : ∀ t ∈ ts, t.Sound ∧ t.label.kind = .script)
    (h : w.arena.Holds (entriesAll none ts + R)) :
    Does (scripts options roots) w fun _ w' => ∃ (us : List Grown) (ps : List NodeId),
      Multiset.Rel (Passed roots) ts us ∧ (∀ u ∈ us, some u.id ∈ roots → u.endSet false = 0) ∧
        w'.arena.Holds (entriesAll none us + (entriesAll none (ps.map placeholder) + R)) := by
  refine (scripts_turns hn hroots hts h).mono ?_
  rintro report w' ⟨-, us, ps, hus, h'⟩
  obtain ⟨hpassed, hdone⟩ := hus.passed fun _ hr => hr
  exact ⟨us, ps, hpassed, hdone, h'⟩

end Lower

namespace Arena

open Lower

/-! ## Stores before and after a pass -/

section
variable {a b : Arena} {roots : List Ref} {R S : Entries} {ts us : List Grown}
    {ps : List NodeId} {i : NodeId}
  {n : Node} {t u : Grown} (hus : Multiset.Rel (Passed roots) ts us)
include hus

theorem exists_passed (ht : t ∈ ts) : ∃ u ∈ us, Passed roots t u :=
  Multiset.exists_mem_of_rel_of_mem hus (Multiset.mem_coe.mpr ht)

theorem exists_passed_from (hu : u ∈ us) : ∃ t ∈ ts, Passed roots t u :=
  Multiset.exists_mem_of_rel_of_mem (Multiset.rel_flip.mpr hus) (Multiset.mem_coe.mpr hu)

theorem slots_passed : ∀ r ∈ slots ts, r ∈ slots us := by
  intro r hr
  obtain ⟨t, ht, rfl⟩ := mem_slots.mp hr
  obtain ⟨u, hu, hp⟩ := exists_passed hus ht
  exact mem_slots.mpr ⟨u, hu, congrArg some hp.id⟩

theorem stays_passed (ha : a.Holds (entriesAll none us + S)) (ht : t ∈ ts) (hi : i ∈ t.ids) :
    a.StandsOnce (slots ts) (some t.id) i := by
  obtain ⟨u, hu, hp⟩ := exists_passed hus ht
  obtain ⟨l, hl⟩ := exists_label hi
  obtain ⟨⟨j, m⟩, hy, rfl, -⟩ := hp.retains.exists_settled hl
  rw [← hp.id]
  exact (standsOnce ha hu (mem_ids_of_mem_nodes hy)).mono (slots_passed hus)

theorem same_passed (ha : a.Holds (entriesAll none us + S)) (ht : t ∈ ts) (hr : some t.id ∉ roots)
    (hn : (i, n) ∈ t.entries none) : a.node? (some i) = some n := by
  obtain ⟨u, hu, hp⟩ := exists_passed hus ht
  obtain rfl := hp.same hr
  exact ha.get (Multiset.mem_add.mpr (.inl (mem_entriesAll.mpr ⟨u, hu, hn⟩)))

theorem settles_passed (hb : b.Holds (t.entries none + R))
    (ha : a.Holds (entriesAll none us + S)) (ht : t ∈ ts) (hs : t.Sound)
    (hdone : ∀ u ∈ us, some u.id ∈ roots → u.endSet false = 0) (hr : some t.id ∈ roots)
    (hn : (i, n) ∈ t.entries none) : ∃ m, a.node? (some i) = some m ∧
      (n.kind.isChain = false ∧ m.toLabel = n.toLabel ∨
        b.IsLinkUnder roots i ∧ n.kind.isChain = true ∧ m.toLabel = n.toLabel.plain) := by
  obtain ⟨u, hu, hp⟩ := exists_passed hus ht
  have hl := (mem_nodes none).mpr ⟨n, hn, rfl⟩
  obtain ⟨⟨j, l⟩, hy, rfl, hlabel⟩ := hp.retains.exists_settled hl
  obtain ⟨m, hm, rfl⟩ := (mem_nodes none).mp hy
  refine ⟨m, ha.get (Multiset.mem_add.mpr (.inl (mem_entriesAll.mpr ⟨u, hu, hm⟩))), ?_⟩
  rcases hlabel with hlabel | ⟨hchain, hplain⟩
  · -- no link is left
    obtain ⟨hkind, -⟩ := (hp.sound hs).plain (hdone u hu (hp.id.symm ▸ hr)) _ hm
    exact .inl ⟨congrArg (·.kind.isChain) hlabel ▸ hkind, hlabel⟩
  · obtain ⟨c, hc, hmem⟩ := exists_spine hs hb hl hchain
    exact .inr ⟨⟨_, hr, c, hc, hmem⟩, hchain, hplain⟩

theorem made_passed (hb : b.Holds (entriesAll none ts + R))
    (ha : a.Holds (entriesAll none us + S)) (hu : u ∈ us) (hi : b.size ≤ i)
    (hn : (i, n) ∈ u.entries none) :
    n.synthesized = true ∧ ∃ r ∈ roots, a.StandsOnce (slots ts) r i := by
  obtain ⟨t, ht, hp⟩ := exists_passed_from hus hu
  have hnot : i ∉ t.ids := fun hmem => absurd (lt_size_of_mem_ids hb ht hmem) (not_lt.mpr hi)
  have hl := (mem_nodes none).mpr ⟨n, hn, rfl⟩
  refine ⟨(hp.retains.mem_or_made hl).resolve_left ?_, some t.id, ?_, ?_⟩
  · rintro ⟨⟨j, l⟩, hx, rfl, -⟩
    exact hnot (mem_ids_of_mem_nodes hx)
  · by_contra hr
    obtain rfl := hp.same hr
    exact hnot (mem_ids_of_mem_nodes hl)
  · rw [← hp.id]
    exact (standsOnce ha hu (mem_ids_of_mem_nodes hl)).mono (slots_passed hus)

theorem placeholder_passed (hb : b.Holds (entriesAll none ts + R))
    (ha : a.Holds (entriesAll none us + (entriesAll none (ps.map placeholder) + S)))
    (hi : b.size ≤ i) (hn : (i, n) ∈ entriesAll none (ps.map placeholder)) :
    n.synthesized = true ∧ a.IsPlaceholder (slots ts) i n := by
  obtain ⟨v, hv, hn⟩ := mem_entriesAll.mp hn
  obtain ⟨p, -, rfl⟩ := List.mem_map.mp hv
  rw [placeholder, entries_node, entriesAll_nil, Multiset.cons_zero, Multiset.mem_singleton] at hn
  obtain ⟨rfl, rfl⟩ := Prod.mk.inj hn
  refine ⟨rfl, rfl, rfl, rfl, fun s hs => ?_⟩
  -- it is the root of a tree of its own
  have hall : a.Holds (entriesAll none (us ++ ps.map placeholder) + S) :=
    ha.of_eq (by rw [entriesAll_append, add_assoc])
  refine (standsOnce hall (List.mem_append_right _ hv) (placeholder i).id_mem_ids).only s ?_ ?_
  · rw [slots_append]
    exact List.mem_append_left _ (slots_passed hus s hs)
  · obtain ⟨t, ht, rfl⟩ := mem_slots.mp hs
    intro e
    exact absurd (lt_size_of_mem_ids hb ht t.id_mem_ids)
      (not_lt.mpr (hi.trans (Option.some.inj e).ge))

theorem frame_passed (hb : b.Holds (entriesAll none ts + R))
    (ha : a.Holds (entriesAll none us + (S + R))) (hi : i < b.size)
    (hout : ∀ r ∈ roots, i ∉ b.preorder r) : a.node? (some i) = b.node? (some i) := by
  obtain ⟨n, hn⟩ := hb.exists_of_lt hi
  rw [hb.get hn]
  rcases Multiset.mem_add.mp hn with he | he
  · obtain ⟨t, ht, he⟩ := mem_entriesAll.mp he
    refine same_passed hus ha ht (fun hr => hout _ hr ?_) he
    obtain ⟨S, hS⟩ := holds_of_mem ht hb
    rw [preorder_tree hS]
    exact mem_ids_of_mem_nodes ((mem_nodes none).mpr ⟨n, he, rfl⟩)
  · exact ha.get (by simp [he])

theorem keeps_passed (hts : ∀ t ∈ ts, t.Sound) (hroots : ∀ r ∈ roots, r ∈ slots ts)
    (hdone : ∀ u ∈ us, some u.id ∈ roots → u.endSet false = 0)
    (hb : b.Holds (entriesAll none ts + R)) (ha : a.Holds (entriesAll none us + (S + R)))
    (hn : b.node? (some i) = some n) : ∃ m, a.node? (some i) = some m ∧
      (¬ b.IsLinkUnder roots i ∧ m.toLabel = n.toLabel ∨
        b.IsLinkUnder roots i ∧ n.kind.isChain = true ∧ m.toLabel = n.toLabel.plain) := by
  by_cases hin : ∃ r ∈ roots, i ∈ b.preorder r
  · obtain ⟨r, hr, hi⟩ := hin
    obtain ⟨t, ht, rfl⟩ := mem_slots.mp (hroots r hr)
    obtain ⟨T, hT⟩ := holds_of_mem ht hb
    rw [preorder_tree hT] at hi
    obtain ⟨l, hl⟩ := exists_label hi
    obtain ⟨n', hn', -⟩ := (mem_nodes none).mp hl
    obtain rfl := Option.some.inj ((hT.shows _ hn').symm.trans hn)
    obtain ⟨m, hm, hlabel⟩ := settles_passed hus hT ha ht (hts t ht) hdone hr hn'
    refine ⟨m, hm, hlabel.imp_left fun ⟨hkind, h⟩ => ⟨fun hlink => ?_, h⟩⟩
    have hchain := (hlink.is_under hroots hb).2
    rw [isChain, kind?, hn] at hchain
    exact Bool.noConfusion (hkind.symm.trans hchain)
  · refine ⟨n, ?_, .inl ⟨fun hlink => hin (hlink.is_under hroots hb).1, rfl⟩⟩
    rw [frame_passed hus hb ha (Array.getElem?_eq_some_iff.mp hn).1 fun r hr hi => hin ⟨r, hr, hi⟩,
      hn]

theorem preserves_passed (hts : ∀ t ∈ ts, t.Sound) (hroots : ∀ r ∈ roots, r ∈ slots ts)
    (hdone : ∀ u ∈ us, some u.id ∈ roots → u.endSet false = 0)
    (hb : b.Holds (entriesAll none ts + R))
    (ha : a.Holds (entriesAll none us + (entriesAll none (ps.map placeholder) + R))) :
    b.Preserves (slots ts) roots a where
  stays r hr i hi := by
    obtain ⟨t, ht, rfl⟩ := mem_slots.mp (hroots r hr)
    obtain ⟨S, hS⟩ := holds_of_mem ht hb
    rw [preorder_tree hS] at hi
    exact stays_passed hus ha ht hi
  keeps i n hn := by
    obtain ⟨m, hm, ⟨hlink, h⟩ | ⟨hlink, hchain, h⟩⟩ := keeps_passed hus hts hroots hdone hb ha hn
    · exact ⟨m, hm, by rw [h]; exact ⟨rfl, rfl, rfl, rfl⟩, fun _ => h, fun h' => absurd h' hlink⟩
    · exact ⟨m, hm, by rw [h]; exact ⟨rfl, rfl, rfl, rfl⟩, fun h' => absurd hlink h',
        fun _ => ⟨_, plain?_of_isChain hchain, h⟩⟩
  frame i hi hout := frame_passed hus hb ha hi hout
  new i hi hlt := by
    obtain ⟨n, hn⟩ := ha.exists_of_lt hlt
    refine ⟨n, ha.get hn, ?_⟩
    rcases Multiset.mem_add.mp hn with he | he
    · obtain ⟨u, hu, he⟩ := mem_entriesAll.mp he
      exact (made_passed hus hb ha hu hi he).imp_right .inl
    rcases Multiset.mem_add.mp he with he | he
    · exact (placeholder_passed hus hb ha hi he).imp_right .inr
    · refine absurd (hb.lt_size ?_) (not_lt.mpr hi)
      exact Multiset.mem_map_of_mem Prod.fst (Multiset.mem_add.mpr (.inr he))

end

variable {a b : Arena} {sources : List String} {scripts roots : List Ref}

/-- Wherever sources were read, and whichever of them are lowered, no node is lost, doubled or
changed without need. -/
theorem nodes_preserved (names : Names) (options : Options)
    (hr : a.readAll sources = some (scripts, b)) (hroots : ∀ r ∈ roots, r ∈ scripts)
    (ht : options.target.level < Target.es2020.level) :
    ∃ report w, b.lower names options roots = (.ok report, w) ∧
      b.Preserves scripts roots w.arena := by
  have hn : options.needsLowering .optionalChaining = true :=
    congrArg not (decide_eq_false (not_le.mpr ht))
  obtain ⟨ts, R, rfl, hts, hold⟩ := readAll_sound hr
  obtain ⟨report, w, hrun, us, ps, hus, hdone, h⟩ :=
    Lower.scripts_passed (w := { arena := b, names := names }) hn hroots hts hold
  exact ⟨report, w, hrun, preserves_passed hus (fun t ht => (hts t ht).1) hroots hdone hold h⟩

/-- One of two scripts is lowered, and listed twice. -/
theorem nodes_preserved_sample :
    ∃ r s b report w, ({} : Arena).readAll ["o.m?.(a?.b);", "c?.d;"] = some ([r, s], b) ∧
      (∀ t ∈ [r, r], t ∈ [r, s]) ∧ Target.es5.level < Target.es2020.level ∧
      b.lower {} { target := .es5 } [r, r] = (.ok report, w) ∧
      b.Preserves [r, s] [r, r] w.arena := by
  have hread : ∃ scripts b, ({} : Arena).readAll ["o.m?.(a?.b);", "c?.d;"] = some (scripts, b) ∧
      scripts = [some 6, some 10] := exists_of_readAll (by decide +kernel)
  obtain ⟨_, b, hr, rfl⟩ := hread
  have hroots : ∀ t ∈ [some 6, some 6], t ∈ [some 6, some 10] := by simp
  obtain ⟨report, w, hrun, h⟩ := nodes_preserved {} { target := .es5 } hr hroots (by decide)
  exact ⟨some 6, some 10, b, report, w, hr, hroots, by decide, hrun, h⟩

end Arena

end ChainLowering
