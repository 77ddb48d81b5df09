import ChainLowering.Proofs.Merge

/-!
# One chain at a time

To lower one chain after the other, each where it stands in what the earlier
ones left, is to lower all of them from the tree they all stood in.
-/

namespace ChainLowering

namespace Grown

variable {order : List NodeId} {choice : NodeId → Choice} {i : NodeId} {l : Label}
    {t u v w x : Grown}
  {ts : List Grown} {ks : List Link} {c : NodeId} {b : Bool} {ds : List Due} {k f g : Frame}
    {K L M : Context}
  {xs : List Temp}

/-! ## Trees in which none of the chains end -/

/-- No chain that is to be lowered ends here. -/
def Free (order : List NodeId) (E : Multiset NodeId) : Prop := ∀ c ∈ order, c ∉ E

theorem free_add {E F : Multiset NodeId} : Free order (E + F) ↔ Free order E ∧ Free order F := by
  unfold Free
  simp only [Multiset.mem_add, not_or]
  exact ⟨fun h => ⟨fun c hc => (h c hc).1, fun c hc => (h c hc).2⟩,
    fun h c hc => ⟨h.1 c hc, h.2 c hc⟩⟩

theorem free_endSets : Free order (endSets ts) ↔ ∀ t ∈ ts, Free order (t.endSet false) := by
  induction ts with
  | nil => simp [Free]
  | cons t ts ih => rw [endSets_cons, free_add, ih, List.forall_mem_cons]

theorem id_mem_endSet (h : t.label.kind.isChain = true) : t.id ∈ t.endSet false := by
  obtain ⟨i, l, ts⟩ := t
  rw [label_node] at h
  simp [endSet, h]

theorem not_isDue (h : t.label.kind.isChain = true → t.id ∉ order) :
    (peel order choice t).isDue order = false := by
  cases hl : t.label.kind.isChain with
  | false => simp [Peeled.isDue, links_peel order choice (bottom_of hl)]
  | true => simp [Peeled.isDue, id_peel, h hl]

theorem not_isDue_of_free (h : Free order (t.endSet false)) :
    (peel order choice t).isDue order = false :=
  not_isDue fun hl hc => h _ hc (id_mem_endSet hl)

theorem mem_endSet_of_continued {c : NodeId} (h : c ∈ t.endSet true) : c ∈ t.endSet false := by
  obtain ⟨i, l, ts⟩ := t
  simp only [endSet, ends_node, Multiset.mem_coe, List.mem_append] at h ⊢
  simpa using Or.inr h

theorem Free.continued (h : Free order (t.endSet false)) : Free order (t.endSet true) :=
  fun c hc ht => h c hc (mem_endSet_of_continued ht)

theorem whole_of_peel (h : Free order (t.endSet false))
    (ht : (peel order choice t).tree = t ∧ (peel order choice t).dues = []) :
    whole order choice t = ⟨[], t⟩ := by
  rw [whole, Peeled.close, if_neg (by simp [not_isDue_of_free h]), ht.1, ht.2]

theorem map_whole_id (h : ∀ u ∈ ts, whole order choice u = ⟨[], u⟩) :
    (ts.map fun u => (whole order choice u).tree) = ts ∧ duesAll order choice ts = [] ∧
      (ts.flatMap fun u => (whole order choice u).statement order) = ts := by
  induction ts with
  | nil => exact ⟨rfl, rfl, rfl⟩
  | cons t ts ih =>
    obtain ⟨ht, hts⟩ := List.forall_mem_cons.mp h
    obtain ⟨hmap, hdues, hstatements⟩ := ih hts
    rw [duesAll] at hdues
    rw [duesAll, List.map_cons, List.flatMap_cons, List.flatMap_cons, hmap, hdues, hstatements, ht]
    simp [Closed.statement, Due.owed]

variable (choice) in
theorem peel_free (h : Free order (t.endSet true)) :
    (peel order choice t).tree = t ∧ (peel order choice t).dues = [] := by
  induction t with
  | node i l ts ih =>
    have hwhole : ∀ us : List Grown, (∀ u ∈ us, u ∈ ts) → Free order (endSets us) →
        ∀ u ∈ us, whole order choice u = ⟨[], u⟩ := fun us hus hfree u hu =>
      whole_of_peel (free_endSets.mp hfree u hu)
        (ih u (hus u hu) (free_endSets.mp hfree u hu).continued)
    by_cases ho : l.kind.ownsStatements = true
    · rw [endSet_plain true i ts (not_isChain_of_ownsStatements ho)] at h
      obtain ⟨-, hdues, hstatements⟩ := map_whole_id (hwhole ts (fun _ hu => hu) h)
      rw [peel_owner i ts ho, ← duesAll, hdues, hstatements]
      exact ⟨rfl, rfl⟩
    · cases ts with
      | nil => exact ⟨rfl, rfl⟩
      | cons t ts =>
        by_cases hl : l.kind.isChain = true
        · rw [endSet_link true i t ts hl, if_pos rfl, zero_add, free_add] at h
          obtain ⟨htree, hdues⟩ := ih t List.mem_cons_self h.1
          obtain ⟨hmap, hrest, -⟩ :=
            map_whole_id (hwhole ts (fun _ hu => List.mem_cons_of_mem _ hu) h.2)
          rw [peel_chain i t ts hl, ← duesAll, hdues, hrest, hmap, Peeled.tree, tower_snoc]
          exact ⟨congrArg (fun t => node i l (t :: ts)) htree, rfl⟩
        · have hl : l.kind.isChain = false := by simpa using hl
          rw [endSet_plain true i _ hl, endSets_cons, free_add] at h
          obtain ⟨htree, hdues⟩ := ih t List.mem_cons_self h.1.continued
          obtain ⟨hmap, hrest, -⟩ :=
            map_whole_id (hwhole ts (fun _ hu => List.mem_cons_of_mem _ hu) h.2)
          rw [peel_under i t ts hl (by simpa using ho), hmap, ← duesAll, hrest, Peeled.under,
            if_neg (by simp [not_isDue_of_free h.1]), hdues, htree]
          exact ⟨rfl, rfl⟩

theorem whole_free (h : Free order (t.endSet false)) : whole order choice t = ⟨[], t⟩ :=
  whole_of_peel h (peel_free _ h.continued)

variable (choice) in
theorem whole_siblings (h : Free order (endSets ts)) : ∀ u ∈ ts, whole order choice u = ⟨[], u⟩ :=
  fun u hu => whole_free (free_endSets.mp h u hu)

/-! ## The tree around a chain -/

/-- A tree that becomes `w` when the chain is lowered, whether the node above goes on with it or
not. -/
structure Turns (order : List NodeId) (choice : NodeId → Choice) (b : Bool) (v : Grown)
    (ds : List Due) (w : Grown) : Prop where
  tree : (peel order choice v).tree = w
  dues : (peel order choice v).dues = ds
  due : b = false → (peel order choice v).isDue order = false

theorem Turns.whole (h : Turns order choice false v ds w) : whole order choice v = ⟨ds, w⟩ := by
  rw [Grown.whole, Peeled.close, if_neg (by simp [h.due rfl]), h.tree, h.dues]

theorem free_of_nodup {E F : Multiset NodeId} (hn : (E + F).Nodup) (hc : c ∈ E) : Free [c] F := by
  intro d hd
  rw [List.mem_singleton.mp hd]
  exact Multiset.disjoint_left.mp (Multiset.nodup_add.mp hn).2.2 hc

theorem map_beside {us : List Grown} (hv : whole order choice v = ⟨ds, w⟩)
    (hts : Free order (endSets ts)) (hus : Free order (endSets us)) :
    ((ts ++ v :: us).map fun u => (whole order choice u).tree) = ts ++ w :: us ∧
      duesAll order choice (ts ++ v :: us) = ds ∧
      ((ts ++ v :: us).flatMap fun u => (whole order choice u).statement order) =
        ts ++ (Closed.statement order ⟨ds, w⟩ ++ us) := by
  obtain ⟨htmap, htdues, htstatements⟩ := map_whole_id (whole_siblings choice hts)
  obtain ⟨humap, hudues, hustatements⟩ := map_whole_id (whole_siblings choice hus)
  refine ⟨?_, ?_, ?_⟩
  · rw [List.map_append, List.map_cons, htmap, humap, hv]
  · rw [duesAll_append, htdues, List.nil_append, duesAll, List.flatMap_cons, ← duesAll, hudues, hv,
      List.append_nil]
  · rw [List.flatMap_append, List.flatMap_cons, htstatements, hustatements, hv]

theorem Due.declared_declared (ds : List Due) :
    (ds.map declared).map declared = ds.map declared := by
  rw [List.map_map]
  rfl

theorem owed_eq_nil (h : ds.map Due.declared = ds) (c : NodeId) : Due.owed ds c = [] := by
  rw [← h, Due.owed, List.filter_map]
  simp [Function.comp_def, Due.declared]

theorem endSet_cons (b : Bool) (i : NodeId) (l : Label) (t : Grown) (ts : List Grown) :
    (node i l (t :: ts)).endSet b = t.endSet l.kind.isChain + (endSets ts + if l.kind.isChain && !b
      then {i} else 0) := by
  cases hl : l.kind.isChain with
  | false =>
    rw [endSet_plain b i _ hl, endSets_cons, Bool.false_and, if_neg Bool.false_ne_true, add_zero]
  | true =>
    rw [endSet_link b i t ts hl, add_comm, add_assoc]
    cases b <;> rfl

theorem not_isDue_fill {E : Multiset NodeId}
    (hE : Free [c] (E + if l.kind.isChain && !b then {i} else 0)) (hb : b = false) :
    (peel [c] choice (node i l ts)).isDue [c] = false := by
  refine not_isDue fun hl hi => (free_add.mp hE).2 c List.mem_cons_self ?_
  rw [label_node] at hl
  rw [id_node] at hi
  simp [hl, hb, List.mem_singleton.mp hi]

theorem turns_owner {us : List Grown} (h : whole [c] choice v = ⟨ds, w⟩)
    (hts : Free [c] (endSets ts)) (hus : Free [c] (endSets us))
    (hl : l.kind.ownsStatements = true) :
    Turns [c] choice b (node i l (ts ++ v :: us)) (ds.map Due.declared)
      (node i l (ts ++ ((Due.owed ds c).map Temp.declaration ++ w :: us))) := by
  obtain ⟨-, hdues, hstatements⟩ := map_beside h hts hus
  have hpeel : peel [c] choice (node i l (ts ++ v :: us)) =
      ⟨ds.map Due.declared, node i l (ts ++ ((Due.owed ds c).map Temp.declaration ++ w :: us)),
        []⟩ := by
    rw [peel_owner i _ hl, ← duesAll, hdues, hstatements, Closed.statement]
    simp
  exact ⟨by rw [hpeel]; rfl, by rw [hpeel], fun _ => by rw [hpeel]; rfl⟩

theorem turns_first (h : Turns [c] choice l.kind.isChain v ds w)
    (ho : l.kind.ownsStatements = false)
    (hts : Free [c] (endSets ts + if l.kind.isChain && !b then {i} else 0)) :
    Turns [c] choice b (node i l (v :: ts)) ds (node i l (w :: ts)) := by
  obtain ⟨hmap, hdues, -⟩ := map_whole_id (whole_siblings choice (free_add.mp hts).1)
  by_cases hl : l.kind.isChain = true
  · refine ⟨?_, ?_, not_isDue_fill hts⟩
    · rw [peel_chain i v ts hl, hmap, Peeled.tree, tower_snoc]
      exact congrArg (fun t => node i l (t :: ts)) h.tree
    · rw [peel_chain i v ts hl, ← duesAll, hdues, List.append_nil, h.dues]
  · have hl : l.kind.isChain = false := by simpa using hl
    rw [hl] at h
    have hunder : (peel [c] choice v).under [c] choice ⟨i, l, [], ts⟩ = ⟨ds,
        node i l (w :: ts)⟩ := by
      rw [Peeled.under, if_neg (by simp [h.due rfl]), h.dues, h.tree]
      rfl
    refine ⟨?_, ?_, not_isDue_fill hts⟩
    · rw [peel_under i v ts hl ho, hmap, hunder]
      rfl
    · rw [peel_under i v ts hl ho, hmap, hunder, ← duesAll, hdues]
      exact List.append_nil ds

theorem turns_rest (h : whole [c] choice v = ⟨ds, w⟩) (ho : l.kind.ownsStatements = false)
    (ht : Free [c] (t.endSet l.kind.isChain)) (hleft : Free [c] (endSets ts)) {us : List Grown}
    (hright : Free [c] (endSets us + if l.kind.isChain && !b then {i} else 0)) :
    Turns [c] choice b (node i l (t :: (ts ++ v :: us))) ds (node i l (t :: (ts ++ w :: us))) := by
  obtain ⟨hmap, hdues, -⟩ := map_beside h hleft (free_add.mp hright).1
  by_cases hl : l.kind.isChain = true
  · rw [hl] at ht
    obtain ⟨htree, htdues⟩ := peel_free choice ht
    refine ⟨?_, ?_, not_isDue_fill hright⟩
    · rw [peel_chain i t _ hl, hmap, Peeled.tree, tower_snoc]
      exact congrArg (fun t => node i l (t :: (ts ++ w :: us))) htree
    · rw [peel_chain i t _ hl, ← duesAll, hdues, htdues, List.nil_append]
  · have hl : l.kind.isChain = false := by simpa using hl
    rw [hl] at ht
    obtain ⟨htree, htdues⟩ := peel_free choice ht.continued
    have hunder : (peel [c] choice t).under [c] choice ⟨i, l, [], ts ++ w :: us⟩ = ⟨[],
        node i l (t :: (ts ++ w :: us))⟩ := by
      rw [Peeled.under, if_neg (by simp [not_isDue_of_free ht]), htdues, htree]
      rfl
    refine ⟨?_, ?_, not_isDue_fill hright⟩
    · rw [peel_under i t _ hl ho, hmap, hunder]
      rfl
    · rw [peel_under i t _ hl ho, hmap, hunder, ← duesAll, hdues]
      rfl

theorem Turns.fill (h : Turns [c] choice k.continues v ds w) (hc : c ∈ v.endSet k.continues)
    (hn : ((k.fill v).endSet b).Nodup)
    (hk : k.label.kind.ownsStatements = true → ds.map Due.declared = ds) :
    Turns [c] choice b (k.fill v) ds (k.fill w) := by
  obtain ⟨i, l, left, right⟩ := k
  rw [Frame.fill] at hn ⊢
  -- only what nothing stands left of can be continued by the node above
  cases left with
  | nil =>
    have hcont : Frame.continues ⟨i, l, [], right⟩ = l.kind.isChain := by simp [Frame.continues]
    rw [hcont] at h hc
    rw [List.nil_append, endSet_cons] at hn
    have hfree := free_of_nodup hn hc
    by_cases ho : l.kind.ownsStatements = true
    · rw [not_isChain_of_ownsStatements ho] at h
      have hnil : Free [c] (endSets []) := fun _ _ => Multiset.notMem_zero _
      have := turns_owner (b := b) (i := i) h.whole hnil (free_add.mp hfree).1 ho
      rwa [hk ho, owed_eq_nil (hk ho)] at this
    · exact turns_first h (by simpa using ho) hfree
  | cons t left =>
    have hcont : Frame.continues ⟨i, l, t :: left, right⟩ = false := by simp [Frame.continues]
    rw [hcont] at h hc
    rw [List.cons_append, endSet_cons, endSets_append, endSets_cons] at hn
    have hn : (v.endSet false + (t.endSet l.kind.isChain + (endSets left +
        (endSets right + if l.kind.isChain && !b then {i} else 0)))).Nodup := by
      convert hn using 1
      abel
    obtain ⟨ht, hfree⟩ := free_add.mp (free_of_nodup hn hc)
    obtain ⟨hleft, hright⟩ := free_add.mp hfree
    by_cases ho : l.kind.ownsStatements = true
    · rw [not_isChain_of_ownsStatements ho] at ht
      have hleft : Free [c] (endSets (t :: left)) := by
        rw [endSets_cons, free_add]
        exact ⟨ht, hleft⟩
      have := turns_owner (b := b) (i := i) h.whole hleft (free_add.mp hright).1 ho
      rwa [hk ho, owed_eq_nil (hk ho)] at this
    · exact turns_rest h.whole (by simpa using ho) ht hleft hright

theorem mem_endSet_fill (hc : c ∈ v.endSet k.continues) (b : Bool) : c ∈ (k.fill v).endSet b := by
  obtain ⟨E, hE⟩ := exists_endSet_fill b k
  rw [hE]
  exact Multiset.mem_add.mpr (.inl hc)

theorem nodup_of_fill (hn : ((k.fill v).endSet b).Nodup) : (v.endSet k.continues).Nodup := by
  obtain ⟨E, hE⟩ := exists_endSet_fill b k
  rw [hE] at hn
  exact (Multiset.nodup_add.mp hn).1

theorem nodup_of_plug (hn : ((plug K v).endSet (isContinued L)).Nodup) :
    (v.endSet (isContinued (K ++ L))).Nodup := by
  induction K generalizing v with
  | nil => exact hn
  | cons k K ih => exact nodup_of_fill (ih hn)

theorem mem_endSet_plug (hc : c ∈ v.endSet (isContinued (K ++ L))) :
    c ∈ (plug K v).endSet (isContinued L) := by
  induction K generalizing v with
  | nil => exact hc
  | cons k K ih => exact ih (mem_endSet_fill hc _)

theorem Turns.plug (h : Turns [c] choice (isContinued (K ++ L)) v ds w)
    (hc : c ∈ v.endSet (isContinued (K ++ L))) (hn : ((plug K v).endSet (isContinued L)).Nodup)
    (hK : ∀ k ∈ K, k.label.kind.ownsStatements = true → ds.map Due.declared = ds) :
    Turns [c] choice (isContinued L) (plug K v) ds (plug K w) := by
  induction K generalizing v w with
  | nil => exact h
  | cons k K ih =>
    obtain ⟨hk, hK⟩ := List.forall_mem_cons.mp hK
    exact ih (Turns.fill h hc (nodup_of_plug hn) hk) (mem_endSet_fill hc _) hn hK

/-! ## The chain itself -/

variable {r : Choice}

variable (choice) in
theorem peel_tower_free (hx : Bottom x) (hk : Linked ks)
    (hfree : Free order (x.endSet false + argEnds ks)) :
    peel order choice (tower x ks) = ⟨[], x, ks⟩ := by
  obtain ⟨hxfree, hargs⟩ := free_add.mp hfree
  obtain ⟨htree, hdues⟩ := peel_free choice hxfree.continued
  rw [Peeled.tree, links_peel _ _ hx, tower_nil] at htree
  have hlinks : ks.map (Link.whole order choice) = ks ∧
      (ks.flatMap fun k => duesAll order choice k.args) = [] := by
    clear hx hfree hxfree
    induction ks with
    | nil => exact ⟨rfl, rfl⟩
    | cons k ks ih =>
      rw [argEnds_cons, free_add] at hargs
      obtain ⟨hmap, hkdues, -⟩ := map_whole_id (whole_siblings choice hargs.1)
      obtain ⟨ihmap, ihdues⟩ := ih (fun j hj => hk j (List.mem_cons_of_mem _ hj)) hargs.2
      rw [List.map_cons, List.flatMap_cons, ihmap, ihdues, hkdues, Link.whole, hmap]
      exact ⟨rfl, rfl⟩
  rw [peel_tower hx hk, hlinks.1, hlinks.2, htree, hdues]
  rfl

theorem turns_chain (hx : Bottom x) (hk : Linked ks) (hne : ks ≠ [])
    (hxc : x.label.kind.isChain = false) (hg : g.continues = false)
    (ho : g.label.kind.ownsStatements = false) (hn : ((g.fill (tower x ks)).endSet b).Nodup) :
    Turns [(tower x ks).id] (fun _ => r) b (g.fill (tower x ks))
      (Due.all (tower x ks).id ((lower r.glue x ks).declared r.this g))
        ((lower r.glue x ks).placed r.this r.dot r.src g) := by
  have hmem : (tower x ks).id ∈ (tower x ks).endSet g.continues := by
    rw [hg]
    exact id_mem_endSet (isChain_tower hne hk)
  have hin : Free [(tower x ks).id] (x.endSet false + argEnds ks) := by
    have := nodup_of_fill hn
    rw [hg, endSet_tower hk hxc hne, ← Multiset.singleton_add] at this
    exact free_of_nodup this (Multiset.mem_singleton_self _)
  have hpeel := peel_tower_free (fun _ => r) hx hk hin
  have hdue : (peel [(tower x ks).id] (fun _ => r) (tower x ks)).isDue [(tower x ks).id] =
      true := by
    rw [hpeel]
    simp [Peeled.isDue, Peeled.tree, hne]
  obtain ⟨i, l, left, right⟩ := g
  rw [hg] at hmem
  cases left with
  | nil =>
    have hl : l.kind.isChain = false := by simpa [Frame.continues] using hg
    rw [Frame.fill, List.nil_append, endSet_cons, hl] at hn
    obtain ⟨hmap, hdues, -⟩ :=
      map_whole_id (whole_siblings (fun _ => r) (free_add.mp (free_of_nodup hn hmem)).1)
    have hfill : peel [(tower x ks).id] (fun _ => r) (node i l (tower x ks :: right)) =
        ⟨Due.all (tower x ks).id ((lower r.glue x ks).declared r.this ⟨i, l, [], right⟩),
          (lower r.glue x ks).placed r.this r.dot r.src ⟨i, l, [], right⟩, []⟩ := by
      rw [peel_under i _ right hl ho, hmap, ← duesAll, hdues, Peeled.under, if_pos hdue,
        hpeel, Peeled.tree]
      simp [Peeled.lowering]
    rw [Frame.fill, List.nil_append]
    refine ⟨?_, by rw [hfill],
      fun _ => not_isDue fun h => absurd (hl.symm.trans h) Bool.noConfusion⟩
    rw [hfill]
    rfl
  | cons t left =>
    -- something stands left of the chain, so it is no callee
    have hcalled : (lower r.glue x ks).isCalled ⟨i, l, t :: left, right⟩ = false := by
      simp [Lowering.isCalled]
    have hwhole : whole [(tower x ks).id] (fun _ => r) (tower x ks) =
        ⟨Due.all (tower x ks).id (lower r.glue x ks).temps, (lower r.glue x ks).close⟩ := by
      rw [whole, Peeled.close, if_pos hdue, hpeel]
      rfl
    rw [Frame.fill, List.cons_append, endSet_cons, endSets_append, endSets_cons] at hn
    have hn : ((tower x ks).endSet false + (t.endSet l.kind.isChain + (endSets left +
        (endSets right + if l.kind.isChain && !b then {i} else 0)))).Nodup := by
      convert hn using 1
      abel
    obtain ⟨ht, hfree⟩ := free_add.mp (free_of_nodup hn hmem)
    obtain ⟨hleft, hright⟩ := free_add.mp hfree
    rw [Lowering.declared, Lowering.placed, hcalled]
    exact turns_rest hwhole ho ht hleft hright

theorem turns_statement (h : Turns [c] choice false v (Due.all c xs) w) (hc : c ∈ v.endSet false)
    (hn : ((f.fill v).endSet b).Nodup) (hf : f.label.kind.ownsStatements = true) :
    Turns [c] choice b (f.fill v) ((Due.all c xs).map Due.declared) ((f.declaring xs).fill w) := by
  rw [Frame.fill, endSet_plain b _ _ (not_isChain_of_ownsStatements hf), endSets_append,
    endSets_cons, add_left_comm] at hn
  obtain ⟨hleft, hright⟩ := free_add.mp (free_of_nodup hn hc)
  have howed : Due.owed (Due.all c xs) c = xs := by
    simp [Due.owed, Due.all, List.filter_map, Function.comp_def]
  have := turns_owner (b := b) (i := f.id) h.whole hleft hright hf
  rw [howed, ← List.append_assoc] at this
  exact this

theorem Lowers.exists_whole (h : Lowers t c xs u) (hn : (t.endSet false).Nodup) :
    ∃ r, whole [c] (fun _ => r) t = ⟨(Due.all c xs).map Due.declared, u⟩ := by
  obtain ⟨⟨rfl, hne, hlinks, -, hx, hend, hinside, howner⟩, rfl, glue, z, dot, src⟩ := h
  rename_i x ks g f K M
  have hg : g.continues = false := by simpa [endsChain] using hend
  have hf : f.continues = false := by
    rw [Frame.continues, not_isChain_of_ownsStatements howner, Bool.false_and]
  obtain ⟨hgo, hK⟩ := List.forall_mem_cons.mp hinside
  rw [List.cons_append, plug_cons, plug_append] at hn ⊢
  have hnf : ((f.fill (plug K (g.fill (tower x ks)))).endSet (isContinued (M ++ []))).Nodup :=
    nodup_of_plug hn
  have hnK : ((plug K (g.fill (tower x ks))).endSet (isContinued (f :: M))).Nodup :=
    nodup_of_fill hnf
  have hc : (tower x ks).id ∈ (g.fill (tower x ks)).endSet (isContinued (K ++ f :: M)) := by
    refine mem_endSet_fill ?_ _
    rw [hg]
    exact id_mem_endSet (isChain_tower hne hlinks)
  have hcK : (tower x ks).id ∈ (plug K (g.fill (tower x ks))).endSet (isContinued (f :: M)) :=
    mem_endSet_plug hc
  have hchain :=
    turns_chain (r := ⟨glue, z, dot, src⟩) (bottom_of hx.1) hlinks hne hx.1 hg hgo
      (nodup_of_plug hnK)
  have hstatement :=
    hchain.plug hc hnK fun k hk ho => absurd ((hK k hk).symm.trans ho) Bool.noConfusion
  rw [isContinued, hf] at hstatement hcK
  have howned := turns_statement hstatement hcK hnf howner
  have hwhole := howned.plug (mem_endSet_fill (by rwa [hf]) _) hn fun _ _ _ =>
    Due.declared_declared _
  refine ⟨⟨glue, z, dot, src⟩, ?_⟩
  rw [plug_append, plug_cons]
  exact hwhole.whole

theorem Parts.perm {first : List NodeId} {as bs : List Due} (h : Parts first ds as bs) :
    ds.Perm (as ++ bs) := by
  rw [← h.left, ← h.right]
  exact (List.filter_append_perm (fun d => first.contains d.chain) ds).symm

/-- Chains that are lowered one after the other are lowered in the whole. -/
theorem LowersAll.exists_whole {cs : List NodeId} (h : LowersAll t cs xs u)
    (hn : (t.endSet false).Nodup) :
    ∃ choice, (whole cs choice t).tree = u ∧ ((whole cs choice t).dues.map Due.temp).Perm xs := by
  induction h with
  | nil t =>
    refine ⟨fun _ => default, ?_⟩
    rw [whole_free fun c hc => absurd hc List.not_mem_nil]
    exact ⟨rfl, .nil⟩
  | @cons t u v c cs xs ys first rest ih =>
    have hends := first.endSet
    rw [hends, Multiset.nodup_cons] at hn
    obtain ⟨choice, htree, hperm⟩ := ih hn.2
    obtain ⟨r, hr⟩ := first.exists_whole (by rw [hends]; exact Multiset.nodup_cons.mpr hn)
    have hd : ∀ d ∈ [c], d ∉ cs := by
      intro d hd hcs
      rw [List.mem_singleton.mp hd] at hcs
      exact hn.1 (by rw [rest.endSet]; exact Multiset.mem_add.mpr (.inl hcs))
    have hmerge := whole_merge hd (fun _ => r) choice t
    unfold WholeMerges at hmerge
    rw [hr] at hmerge
    refine ⟨merge [c] (fun _ => r) choice, hmerge.tree.trans htree, ?_⟩
    have htemps : ((Due.all c xs).map Due.declared).map Due.temp = xs := by
      simp [Due.all, Due.declared, Function.comp_def]
    have := hmerge.dues.perm.map Due.temp
    rw [List.map_append, htemps] at this
    exact this.trans (hperm.append_left xs)

end Grown

end ChainLowering
