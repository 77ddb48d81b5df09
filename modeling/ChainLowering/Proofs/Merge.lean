import ChainLowering.Proofs.Whole

/-!
# Some chains and then the others

To lower some chains of a tree, and then others in what comes of it, is to
lower all of them: a chain that is lowered leaves the towers of the others
standing, wherever they are in it or it is in them.
-/

namespace ChainLowering

namespace Grown

section
variable (first : List NodeId)

/-- What is made for the chains that are lowered first, and for the others. -/
def merge (r s : NodeId → Choice) (c : NodeId) : Choice := if first.contains c then r c else s c

/-- The temporaries of the chains that are lowered first, and those of the others. -/
structure Parts (ds as bs : List Due) : Prop where
  left : ds.filter (fun d => first.contains d.chain) = as
  right : ds.filter (fun d => !first.contains d.chain) = bs

end

variable {o₁ o₂ : List NodeId} {r₁ r₂ : NodeId → Choice} {c : NodeId}
    {ds es as bs as' bs' : List Due} {t : Grown}
  {ts : List Grown}

namespace Parts

theorem nil : Parts o₁ [] [] [] := ⟨rfl, rfl⟩

theorem append (h : Parts o₁ ds as bs) (h' : Parts o₁ es as' bs') :
    Parts o₁ (ds ++ es) (as ++ as') (bs ++ bs') := by
  constructor
  · rw [List.filter_append, h.left, h'.left]
  · rw [List.filter_append, h.right, h'.right]

theorem flatMap {f g h : Grown → List Due} (hts : ∀ t ∈ ts, Parts o₁ (f t) (g t) (h t)) :
    Parts o₁ (ts.flatMap f) (ts.flatMap g) (ts.flatMap h) := by
  induction ts with
  | nil => exact nil
  | cons t ts ih =>
      exact (hts t List.mem_cons_self).append (ih fun u hu => hts u (List.mem_cons_of_mem _ hu))

theorem declared (h : Parts o₁ ds as bs) :
    Parts o₁ (ds.map Due.declared) (as.map Due.declared) (bs.map Due.declared) := by
  obtain ⟨rfl, rfl⟩ := h
  constructor <;> rw [List.filter_map] <;> rfl

theorem append_left (h : Parts o₁ ds as bs) (hc : c ∈ o₁) (xs : List Temp) :
    Parts o₁ (ds ++ Due.all c xs) (as ++ Due.all c xs) bs := by
  have hall : Parts o₁ (Due.all c xs) (Due.all c xs) [] := by
    constructor <;> simp [Due.all, List.filter_map, Function.comp_def, hc]
  simpa using h.append hall

theorem append_right (h : Parts o₁ ds as bs) (hc : c ∉ o₁) (xs : List Temp) :
    Parts o₁ (ds ++ Due.all c xs) as (bs ++ Due.all c xs) := by
  have hall : Parts o₁ (Due.all c xs) [] (Due.all c xs) := by
    constructor <;> simp [Due.all, List.filter_map, Function.comp_def, hc]
  simpa using h.append hall

theorem owed_left (h : Parts o₁ ds as bs) (hc : c ∈ o₁) : Due.owed ds c = Due.owed as c := by
  obtain ⟨rfl, -⟩ := h
  rw [Due.owed, Due.owed, List.filter_filter]
  congr 1
  refine List.filter_congr fun d _ => ?_
  by_cases hd : d.chain = c <;> simp [hd, hc]

theorem owed_right (h : Parts o₁ ds as bs) (hc : c ∉ o₁) : Due.owed ds c = Due.owed bs c := by
  obtain ⟨-, rfl⟩ := h
  rw [Due.owed, Due.owed, List.filter_filter]
  congr 1
  refine List.filter_congr fun d _ => ?_
  by_cases hd : d.chain = c <;> simp [hd, hc]

end Parts

/-- What is peeled at once, `r`, from a tree that was peeled into `p` and then into `q`. -/
structure Peeled.Merges (o₁ : List NodeId) (p q r : Peeled) : Prop where
  base : r.base = q.base
  links : r.links = q.links
  dues : Parts o₁ r.dues p.dues q.dues

structure Closed.Merges (o₁ : List NodeId) (p q r : Closed) : Prop where
  tree : r.tree = q.tree
  dues : Parts o₁ r.dues p.dues q.dues

section
variable (hd : ∀ c ∈ o₁, c ∉ o₂)
include hd

theorem Closed.Merges.statement {p q r : Closed} (h : Closed.Merges o₁ p q r) :
    r.statement (o₁ ++ o₂) = (o₁.flatMap (Due.owed p.dues)).map Temp.declaration ++
      q.statement o₂ := by
  have h₁ : o₁.flatMap (Due.owed r.dues) = o₁.flatMap (Due.owed p.dues) := by
    simp only [List.flatMap]
    congr 1
    exact List.map_congr_left fun c hc => h.dues.owed_left hc
  have h₂ : o₂.flatMap (Due.owed r.dues) = o₂.flatMap (Due.owed q.dues) := by
    simp only [List.flatMap]
    congr 1
    exact List.map_congr_left fun c hc => h.dues.owed_right fun hc' => hd c hc' hc
  simp only [Closed.statement, List.flatMap_append, h₁, h₂, h.tree, List.map_append,
    List.append_assoc]

end

section
variable (o₁ o₂ r₁ r₂) (t)

/-- The two ways to peel a tree come to the same. -/
abbrev PeelMerges : Prop :=
  Peeled.Merges o₁ (peel o₁ r₁ t) (peel o₂ r₂ (peel o₁ r₁ t).tree)
    (peel (o₁ ++ o₂) (merge o₁ r₁ r₂) t)

abbrev WholeMerges : Prop :=
  Closed.Merges o₁ (whole o₁ r₁ t) (whole o₂ r₂ (whole o₁ r₁ t).tree)
    (whole (o₁ ++ o₂) (merge o₁ r₁ r₂) t)

end

namespace PeelMerges

variable (h : PeelMerges o₁ o₂ r₁ r₂ t)
include h

theorem of_due (hp : (peel o₁ r₁ t).isDue o₁ = true) :
    t.id ∈ o₁ ∧ merge o₁ r₁ r₂ t.id = r₁ t.id ∧
      (peel (o₁ ++ o₂) (merge o₁ r₁ r₂) t).isDue (o₁ ++ o₂) = true ∧
      (peel (o₁ ++ o₂) (merge o₁ r₁ r₂) t).lowering (merge o₁ r₁ r₂) =
      ((peel o₁ r₁ t).lowering r₁).whole o₂ r₂ ∧
      ((peel o₁ r₁ t).lowering r₁).dues o₂ r₂ = (peel o₂ r₂ (peel o₁ r₁ t).tree).dues := by
  obtain ⟨hne, hc⟩ := Bool.and_eq_true_iff.mp hp
  rw [id_peel] at hc
  have hm : merge o₁ r₁ r₂ t.id = r₁ t.id := if_pos hc
  obtain ⟨hlower, hdues⟩ := Lowering.lower_peel o₂ r₂ (r₁ (peel o₁ r₁ t).tree.id).glue
    (bottom_peel o₁ r₁ t) (linked_peel t)
  refine ⟨by simpa using hc, hm, ?_, ?_, hdues⟩
  · have hlinks := h.links
    rw [Peeled.tree, peel_tower (bottom_peel _ _ t) (linked_peel t)] at hlinks
    rw [Peeled.isDue, id_peel, hlinks, List.isEmpty_map, hne, Bool.true_and, List.contains_append,
      hc, Bool.true_or]
  · rw [id_peel] at hlower
    rw [Peeled.lowering, Peeled.lowering, id_peel, id_peel, hm, h.base, h.links]
    exact hlower

theorem of_not_due (hp : (peel o₁ r₁ t).isDue o₁ = false) :
    (peel (o₁ ++ o₂) (merge o₁ r₁ r₂) t).isDue (o₁ ++ o₂) =
      (peel o₂ r₂ (peel o₁ r₁ t).tree).isDue o₂ ∧
      ((peel o₂ r₂ (peel o₁ r₁ t).tree).isDue o₂ = true → t.id ∉ o₁ ∧
        merge o₁ r₁ r₂ t.id = r₂ t.id ∧
        (peel (o₁ ++ o₂) (merge o₁ r₁ r₂) t).lowering (merge o₁ r₁ r₂) =
          (peel o₂ r₂ (peel o₁ r₁ t).tree).lowering r₂) := by
  cases hl : (peel o₁ r₁ t).links.isEmpty with
  | true =>
    have hnil : (peel o₂ r₂ (peel o₁ r₁ t).tree).links = [] := by
      rw [Peeled.tree, List.isEmpty_iff.mp hl]
      exact links_peel _ _ (bottom_peel _ _ t)
    simp [Peeled.isDue, h.links, hnil]
  | false =>
    have hc : o₁.contains t.id = false := by simpa [Peeled.isDue, hl, id_peel] using hp
    have hm : merge o₁ r₁ r₂ t.id = r₂ t.id := if_neg (by simpa using hc)
    refine ⟨?_, fun _ => ⟨by simpa using hc, hm, ?_⟩⟩
    · rw [Peeled.isDue, Peeled.isDue, h.links, id_peel, id_peel, id_peel, List.contains_append, hc,
        Bool.false_or]
    · rw [Peeled.lowering, Peeled.lowering, id_peel, id_peel, id_peel, hm, h.base, h.links]

omit h in
theorem bottom_lowering (order : List NodeId) (choice : NodeId → Choice) (t : Grown) :
    Bottom ((peel order choice t).lowering choice).rest :=
  Lowering.bottom_foldl_step _ (peel order choice t).links
    (d := ⟨[], [], (peel order choice t).base⟩) (bottom_peel _ _ t)

theorem tree_eq :
    (peel (o₁ ++ o₂) (merge o₁ r₁ r₂) t).tree = (peel o₂ r₂ (peel o₁ r₁ t).tree).tree := by
  rw [Peeled.tree, h.base, h.links]
  rfl

theorem close : WholeMerges o₁ o₂ r₁ r₂ t := by
  unfold WholeMerges
  cases hp : (peel o₁ r₁ t).isDue o₁ with
  | true =>
    obtain ⟨hc, hm, hr, hlower, hdues⟩ := h.of_due hp
    rw [whole.eq_1 o₁, whole.eq_1 (o₁ ++ o₂), Peeled.close, Peeled.close, if_pos hp, if_pos hr,
      Lowering.whole_close _ _ (bottom_lowering o₁ r₁ t), hlower, hdues, id_peel, id_peel]
    exact ⟨rfl, h.dues.append_left hc _⟩
  | false =>
    obtain ⟨hr, hq⟩ := h.of_not_due hp
    have hclose : whole o₁ r₁ t = ⟨(peel o₁ r₁ t).dues, (peel o₁ r₁ t).tree⟩ := by
      rw [whole, Peeled.close, if_neg (by simp [hp])]
    rw [hclose, whole.eq_1 o₂, whole.eq_1 (o₁ ++ o₂), Peeled.close, Peeled.close, hr]
    split_ifs with hdue
    · obtain ⟨hc, -, hlower⟩ := hq hdue
      rw [hlower, id_peel, id_peel, id_peel]
      exact ⟨rfl, h.dues.append_right hc _⟩
    · exact ⟨h.tree_eq, h.dues⟩

end PeelMerges

theorem tree_map (hts : ∀ t ∈ ts, WholeMerges o₁ o₂ r₁ r₂ t) :
    (ts.map fun u => (whole (o₁ ++ o₂) (merge o₁ r₁ r₂) u).tree) =
      (ts.map fun u => (whole o₁ r₁ u).tree).map fun u => (whole o₂ r₂ u).tree := by
  rw [List.map_map]
  exact List.map_congr_left fun t ht => (hts t ht).tree

theorem dues_flatMap (hts : ∀ t ∈ ts, WholeMerges o₁ o₂ r₁ r₂ t) :
    Parts o₁ (duesAll (o₁ ++ o₂) (merge o₁ r₁ r₂) ts) (duesAll o₁ r₁ ts)
      (duesAll o₂ r₂ (ts.map fun u => (whole o₁ r₁ u).tree)) := by
  rw [duesAll, duesAll, duesAll, List.flatMap_map]
  exact .flatMap fun t ht => (hts t ht).dues

theorem PeelMerges.of_whole (ht : t.label.kind.isChain = false) (h : WholeMerges o₁ o₂ r₁ r₂ t) :
    PeelMerges o₁ o₂ r₁ r₂ t := by
  have hlabel : (whole o₁ r₁ t).tree.label.kind.isChain = false := by
    rwa [label_whole _ _ (bottom_of ht)]
  have htree : (peel o₁ r₁ t).tree = (whole o₁ r₁ t).tree := by
    rw [whole_eq _ _ (bottom_of ht), Peeled.tree, links_peel _ _ (bottom_of ht)]
    rfl
  unfold WholeMerges at h
  unfold PeelMerges
  rw [whole_eq _ _ (bottom_of hlabel), whole_eq (o₁ ++ o₂) _ (bottom_of ht)] at h
  rw [htree]
  refine ⟨h.tree, by rw [links_peel _ _ (bottom_of ht), links_peel _ _ (bottom_of hlabel)], ?_⟩
  have := h.dues
  rwa [whole_eq o₁ _ (bottom_of ht)] at this ⊢

section
variable {i : NodeId} {l : Label} (h : PeelMerges o₁ o₂ r₁ r₂ t)
    (hts : ∀ t ∈ ts, WholeMerges o₁ o₂ r₁ r₂ t)
include h hts

namespace PeelMerges

theorem chain (hl : l.kind.isChain = true) : PeelMerges o₁ o₂ r₁ r₂ (node i l (t :: ts)) := by
  have htree : (peel o₁ r₁ (node i l (t :: ts))).tree =
      node i l ((peel o₁ r₁ t).tree :: ts.map fun u => (whole o₁ r₁ u).tree) := by
    rw [peel_chain i t ts hl, Peeled.tree, tower_snoc]
    rfl
  unfold PeelMerges
  rw [htree, peel_chain i _ _ hl, peel_chain i _ _ hl, peel_chain i _ _ hl]
  refine ⟨h.base, ?_, h.dues.append (dues_flatMap hts)⟩
  rw [h.links, tree_map hts]

end PeelMerges

theorem whole_merge_under (hl : l.kind.isChain = false) (ho : l.kind.ownsStatements = false) :
    WholeMerges o₁ o₂ r₁ r₂ (node i l (t :: ts)) := by
  unfold WholeMerges
  rw [whole_under i t ts hl ho, whole_under i t ts hl ho]
  cases hp : (peel o₁ r₁ t).isDue o₁ with
  | true =>
    -- one of the first chains ends here, and no other can
    obtain ⟨hc, hm, hr, hlower, hdues⟩ := h.of_due hp
    have hbottom := PeelMerges.bottom_lowering o₁ r₁ t
    have hdecl := Lowering.declared_whole o₂ r₂ (r₁ t.id).this
      ⟨i, l, [], ts.map fun u => (whole o₁ r₁ u).tree⟩
        ((ts.map fun u => (whole o₁ r₁ u).tree).map fun u => (whole o₂ r₂ u).tree) hbottom
    simp only [Peeled.under, if_pos hp, if_pos hr, Lowering.whole_placed _ _ _ _ _ hl ho hbottom,
      hlower, hdues, id_peel, hm, tree_map hts]
    refine ⟨rfl, ?_⟩
    rw [hdecl]
    exact (h.dues.append_left hc _).append (dues_flatMap hts)
  | false =>
    obtain ⟨hr, hq⟩ := h.of_not_due hp
    have hfill : ((peel o₁ r₁ t).under o₁ r₁ ⟨i, l, [], ts.map fun u => (whole o₁ r₁ u).tree⟩) =
        ⟨(peel o₁ r₁ t).dues,
          node i l ((peel o₁ r₁ t).tree :: ts.map fun u => (whole o₁ r₁ u).tree)⟩ := by
      rw [Peeled.under, if_neg (by simp [hp])]
      rfl
    rw [hfill]
    simp only [whole_under i _ _ hl ho, tree_map hts]
    simp only [Peeled.under, hr]
    -- the chain that ends here, if there is one, comes second
    split_ifs with hdue
    · obtain ⟨hc, hm, hlower⟩ := hq hdue
      rw [hlower, id_peel, id_peel, id_peel, hm]
      exact ⟨rfl, (h.dues.append_right hc _).append (dues_flatMap hts)⟩
    · refine ⟨?_, h.dues.append (dues_flatMap hts)⟩
      rw [h.tree_eq]

end

section
variable (hd : ∀ c ∈ o₁, c ∉ o₂)
include hd

theorem whole_merge_owner {i : NodeId} {l : Label} (hts : ∀ t ∈ ts, WholeMerges o₁ o₂ r₁ r₂ t)
    (ho : l.kind.ownsStatements = true) : WholeMerges o₁ o₂ r₁ r₂ (node i l ts) := by
  unfold WholeMerges
  have hlets : ∀ xs : List Temp,
    (xs.map Temp.declaration).flatMap (fun u => (whole o₂ r₂ u).statement o₂) =
      xs.map Temp.declaration ∧ duesAll o₂ r₂ (xs.map Temp.declaration) = [] := by
    intro xs
    induction xs with
    | nil => exact ⟨rfl, rfl⟩
    | cons x xs ih => simp_all [Closed.statement, Due.owed, duesAll]
  rw [whole_owner i _ ho, whole_owner i _ ho, whole_owner i _ ho]
  constructor
  · refine congrArg (node i l) ?_
    rw [List.flatMap_assoc]
    refine List.flatMap_congr fun t ht => ?_
    rw [(hts t ht).statement hd, Closed.statement.eq_1 o₁, List.flatMap_append, (hlets _).1,
      List.flatMap_singleton]
  · refine Parts.declared ?_
    have hsum : duesAll o₂ r₂ (ts.flatMap fun u => (whole o₁ r₁ u).statement o₁) =
        duesAll o₂ r₂ (ts.map fun u => (whole o₁ r₁ u).tree) := by
      rw [duesAll, duesAll, List.flatMap_assoc, List.flatMap_map]
      refine List.flatMap_congr fun t _ => ?_
      rw [← duesAll, Closed.statement, duesAll_append, (hlets _).2]
      simp [duesAll]
    rw [hsum]
    exact dues_flatMap hts

theorem peel_merge (r₁ r₂ : NodeId → Choice) (t : Grown) : PeelMerges o₁ o₂ r₁ r₂ t := by
  induction t with
  | node i l ts ih =>
    have hts : ∀ t ∈ ts, WholeMerges o₁ o₂ r₁ r₂ t := fun t ht => (ih t ht).close
    by_cases ho : l.kind.ownsStatements = true
    · exact .of_whole (not_isChain_of_ownsStatements ho) (whole_merge_owner hd hts ho)
    · cases ts with
      | nil => exact ⟨rfl, rfl, .nil⟩
      | cons t ts =>
        have ht := ih t List.mem_cons_self
        have hts : ∀ t ∈ ts, WholeMerges o₁ o₂ r₁ r₂ t :=
          fun u hu => hts u (List.mem_cons_of_mem _ hu)
        by_cases hl : l.kind.isChain = true
        · exact ht.chain hts hl
        · have hl : l.kind.isChain = false := by simpa using hl
          exact .of_whole hl (whole_merge_under ht hts hl (by simpa using ho))

theorem whole_merge (r₁ r₂ : NodeId → Choice) (t : Grown) : WholeMerges o₁ o₂ r₁ r₂ t :=
  (peel_merge hd r₁ r₂ t).close

end

end Grown

end ChainLowering
