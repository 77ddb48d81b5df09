import ChainLowering.Proofs.Ends
import ChainLowering.Proofs.Soundness

/-!
# Where chains stand

Every end of a chain in a sound script is the end of a complete chain inside
a statement. When that chain is lowered the script is sound again, and the
ends that are left are the other ones.
-/

namespace ChainLowering

namespace Grown

variable {t u x : Grown} {ks : List Link} {g f : Frame} {K M : Context} {c : NodeId}
    {xs : List Temp}

theorem not_isChain_of_ownsStatements {k : Kind} (h : k.ownsStatements = true) :
    k.isChain = false := by
  cases k <;> first | rfl | cases h

/-- A complete chain inside its statement, and the tree around it. -/
structure Setting (t x : Grown) (ks : List Link) (g : Frame) (K : Context) (f : Frame)
    (M : Context) : Prop where
  tree : t = plug (g :: K ++ f :: M) (tower x ks)
  nonempty : ks ≠ []
  links : Linked ks
  marked : Flagged ks
  receiver : Receivable x
  ends : endsChain (g :: K) = true
  inside : ∀ k ∈ g :: K, k.label.kind.ownsStatements = false
  owner : f.label.kind.ownsStatements = true

theorem exists_of_mem_endsAll {b : Bool} {ts : List Grown} (h : c ∈ endsAll b ts) :
    ∃ us t vs, ts = us ++ t :: vs ∧ c ∈ t.ends (b && us.isEmpty) := by
  induction ts generalizing b with
  | nil => cases h
  | cons t ts ih =>
    rw [endsAll_cons, List.mem_append] at h
    rcases h with h | h
    · exact ⟨[], t, ts, rfl, by simpa using h⟩
    · obtain ⟨us, u, vs, rfl, hu⟩ := ih h
      exact ⟨t :: us, u, vs, rfl, by simpa using hu⟩

theorem exists_of_mem_ends (h : c ∈ t.ends (isContinued K)) :
    ∃ L u, t = plug L u ∧ u.id = c ∧ u.label.kind.isChain = true ∧
      isContinued (L ++ K) = false := by
  induction t generalizing K with
  | node i l ts ih =>
    rw [ends_node, List.mem_append] at h
    rcases h with h | h
    · split_ifs at h with hi
      · rw [Bool.and_eq_true, Bool.not_eq_true'] at hi
        exact ⟨[], node i l ts, rfl, (List.mem_singleton.mp h).symm, hi.1, hi.2⟩
      · cases h
    · obtain ⟨us, v, vs, rfl, hv⟩ := exists_of_mem_endsAll h
      obtain ⟨L, u, rfl, hu, hl, hend⟩ := ih v (by simp) (K := ⟨i, l, us, vs⟩ :: K) hv
      exact ⟨L ++ [⟨i, l, us, vs⟩], u, by rw [plug_append]; rfl, hu, hl, by simpa using hend⟩

theorem exists_owner (hK : K ≠ []) (hk : (plug K t).label.kind = .script) :
    ∃ L f M, K = L ++ f :: M ∧ (∀ k ∈ L, k.label.kind.ownsStatements = false) ∧
      f.label.kind.ownsStatements = true := by
  obtain ⟨g, K, rfl⟩ := List.exists_cons_of_ne_nil hK
  obtain ⟨r, hr, -, hlabel⟩ := Lower.exists_root_frame g K t
  have hown : r.label.kind.ownsStatements = true := by rw [hlabel, hk]; rfl
  obtain ⟨f, hf⟩ := Option.isSome_iff_exists.mp <|
    (List.find?_isSome (p := fun k : Frame => k.label.kind.ownsStatements)).mpr ⟨r, hr, hown⟩
  obtain ⟨hfo, L, M, e, hL⟩ := List.find?_eq_some_iff_append.mp hf
  exact ⟨L, f, M, e, fun k hk => by simpa using hL k hk, hfo⟩

theorem exists_setting (ht : t.Sound) (hk : t.label.kind = .script) (hc : c ∈ t.endSet false) :
    ∃ x ks g K f M, Setting t x ks g K f M ∧ (tower x ks).id = c := by
  obtain ⟨K, u, rfl, rfl, hu, hend⟩ := exists_of_mem_ends (K := []) hc
  rw [List.append_nil] at hend
  have hK : K ≠ [] := by
    rintro rfl
    rw [plug_nil] at hk
    rw [hk] at hu
    cases hu
  obtain ⟨L, f, M, rfl, hL, hf⟩ := exists_owner hK hk
  obtain ⟨x, ks, rfl, hne, hl, hm, hx⟩ := (sound_of_plug ht).exists_tower hu
  cases L with
  | nil =>
    obtain ⟨hfits, -⟩ := sound_fill.mp (sound_of_plug (K := M) ht)
    have := hfits.barred f.left.length (Kind.bars_of_ownsStatements hf _)
      (tower x ks).toTree (by simp)
    rw [isChain_toTree, hu] at this
    cases this
  | cons g K =>
      exact ⟨x, ks, g, K, f, M,
        ⟨rfl, hne, hl, hm, hx, by rw [endsChain_eq]; exact congrArg not hend, hL, hf⟩, rfl⟩

/-! ## Lowering one chain -/

theorem label_plug_congr (K : Context) (h : t.label = u.label) :
    (plug K t).label = (plug K u).label := by
  induction K generalizing t u with
  | nil => exact h
  | cons f K ih => exact ih rfl

/-- The chain that ends here is lowered, with these temporaries. -/
inductive Lowers (t : Grown) (c : NodeId) : List Temp → Grown → Prop
  | at {x : Grown} {ks : List Link} {g f : Frame} {K M : Context} (set : Setting t x ks g K f M)
      (hc : (tower x ks).id = c) (glue : NodeId → Glue) (u : Temp) (dot : NodeId) (src : Label) :
      Lowers t c ((lower glue x ks).declared u g)
        (plug (K ++ f.declaring ((lower glue x ks).declared u g) :: M)
          ((lower glue x ks).placed u dot src g))

/-- Chains are lowered one after the other. -/
inductive LowersAll : Grown → List NodeId → List Temp → Grown → Prop
  | nil (t : Grown) : LowersAll t [] [] t
  | cons {t u v : Grown} {c : NodeId} {cs : List NodeId} {xs ys : List Temp}
      (first : Lowers t c xs u) (rest : LowersAll u cs ys v) : LowersAll t (c :: cs) (xs ++ ys) v

namespace Lowers

theorem sound (h : Lowers t c xs u) (ht : t.Sound) : u.Sound := by
  obtain ⟨set, -, glue, x, dot, src⟩ := h
  rw [set.tree] at ht
  obtain ⟨hx, hargs⟩ := sound_of_tower (sound_of_plug ht)
  refine sound_replaced _ x dot src ht (isChain_tower set.nonempty set.links) set.ends set.owner ?_
  exact soundParts_foldl_step glue set.links hargs ⟨fun _ hg => (nomatch hg), hx⟩

theorem root (h : Lowers t c xs u) : u.id = t.id ∧ u.label = t.label := by
  obtain ⟨set, -, glue, x, dot, src⟩ := h
  rw [set.tree, plug_append, plug_append]
  exact ⟨id_plug_congr (t := Frame.fill _ _) (u := Frame.fill _ _) _ rfl,
    label_plug_congr (t := Frame.fill _ _) (u := Frame.fill _ _) _ rfl⟩

theorem endSet (h : Lowers t c xs u) : t.endSet false = c ::ₘ u.endSet false := by
  obtain ⟨set, rfl, glue, x, dot, src⟩ := h
  rw [set.tree]
  exact endSet_replaced glue _ x dot src set.links set.receiver set.nonempty set.ends
    (not_isChain_of_ownsStatements set.owner)

end Lowers

namespace LowersAll

variable {cs : List NodeId}

theorem sound (h : LowersAll t cs xs u) (ht : t.Sound) : u.Sound := by
  induction h with
  | nil => exact ht
  | cons first _ ih => exact ih (first.sound ht)

theorem root (h : LowersAll t cs xs u) : u.id = t.id ∧ u.label = t.label := by
  induction h with
  | nil => exact ⟨rfl, rfl⟩
  | cons first _ ih => exact ⟨ih.1.trans first.root.1, ih.2.trans first.root.2⟩

theorem endSet (h : LowersAll t cs xs u) : t.endSet false = cs + u.endSet false := by
  induction h with
  | nil => exact (zero_add _).symm
  | cons first _ ih => rw [first.endSet, ih, ← Multiset.cons_coe, Multiset.cons_add]

end LowersAll

/-! ## Nothing is left -/

theorem Sound.plain (ht : t.Sound) (h : t.endSet false = 0) {p : Ref} :
    ∀ e ∈ t.entries p, e.2.kind.isChain = false ∧ e.2.chainStart = false := by
  induction t generalizing p with
  | node i l ts ih =>
    obtain ⟨hfits, hts⟩ := sound_node.mp ht
    have hl : l.kind.isChain = false := by
      by_contra hl
      rw [Bool.not_eq_false] at hl
      rw [Grown.endSet, ends_node, hl] at h
      exact absurd (Multiset.coe_eq_zero _ |>.mp h) (by simp)
    rw [endSet_plain false i ts hl] at h
    intro e he
    rw [entries_node, Multiset.mem_cons, mem_entriesAll] at he
    rcases he with rfl | ⟨u, hu, he⟩
    · refine ⟨hl, ?_⟩
      by_contra hm
      rw [Bool.not_eq_false] at hm
      exact absurd (hl.symm.trans (hfits.marked hm)) (by simp)
    · obtain ⟨us, vs, rfl⟩ := List.append_of_mem hu
      rw [endSets_append, endSets_cons] at h
      have hle : u.endSet false ≤ 0 := by
        rw [← h]
        exact (Multiset.le_add_right _ _).trans (Multiset.le_add_left _ _)
      exact ih u hu (hts u hu) (Multiset.le_zero.mp hle) e he

end Grown

end ChainLowering
