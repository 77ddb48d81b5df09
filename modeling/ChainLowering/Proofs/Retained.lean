import ChainLowering.Proofs.Tally

/-!
# The nodes of lowered trees

To lower a chain moves trees about, but every node of the tree is in what
comes of it, and only the links of the chain have other labels there. All
else that is in it was made.
-/

namespace ChainLowering

namespace Grown

variable {i : NodeId} {l : Label} {t u : Grown} {xs : List Temp} {c : NodeId} {cs : List NodeId}

/-! ## Nodes, wherever they stand -/

/-- Nodes with their labels. -/
abbrev Nodes := Multiset (NodeId × Label)

mutual
def nodes : Grown → Nodes
  | node i l ts => {(i, l)} + nodesAll ts
def nodesAll : List Grown → Nodes
  | [] => 0
  | t :: ts => t.nodes + nodesAll ts
end

@[simp] theorem nodes_node (i : NodeId) (l : Label) (ts : List Grown) :
    (node i l ts).nodes = {(i, l)} + nodesAll ts := by
  rw [nodes]

@[simp] theorem nodesAll_nil : nodesAll [] = 0 := by rw [nodesAll]

@[simp] theorem nodesAll_cons (t : Grown) (ts : List Grown) :
    nodesAll (t :: ts) = t.nodes + nodesAll ts := by rw [nodesAll]

theorem nodes_entries (p : Ref) (t : Grown) :
    (t.entries p).map (fun e => (e.1, e.2.toLabel)) = t.nodes := by
  induction t generalizing p with
  | node i l ts ih =>
    have hts : ∀ us ⊆ ts, (entriesAll (some i) us).map (fun e => (e.1, e.2.toLabel)) =
        nodesAll us := by
      intro us hus
      induction us with
      | nil => simp
      | cons u us ihus =>
        obtain ⟨hu, hus⟩ := List.cons_subset.mp hus
        rw [entriesAll_cons, Multiset.map_add, ih u hu, ihus hus, nodesAll_cons]
    rw [entries_node, Multiset.map_cons, hts ts (List.Subset.refl ts), nodes_node,
      Multiset.singleton_add]

theorem keys_nodes (t : Grown) : t.nodes.map Prod.fst = (t.ids : Multiset NodeId) := by
  rw [← nodes_entries none, Multiset.map_map, ← keys_entries none]
  rfl

theorem mem_nodes (p : Ref) : (i, l) ∈ t.nodes ↔ ∃ n, (i, n) ∈ t.entries p ∧ n.toLabel = l := by
  rw [← nodes_entries p, Multiset.mem_map]
  constructor
  · rintro ⟨⟨j, n⟩, hn, e⟩
    obtain ⟨rfl, rfl⟩ := Prod.mk.inj e
    exact ⟨n, hn, rfl⟩
  · rintro ⟨n, hn, rfl⟩
    exact ⟨_, hn, rfl⟩

theorem mem_ids_of_mem_nodes (h : (i, l) ∈ t.nodes) : i ∈ t.ids := by
  rw [← Multiset.mem_coe, ← keys_nodes]
  exact Multiset.mem_map_of_mem Prod.fst h

theorem exists_label (h : i ∈ t.ids) : ∃ l, (i, l) ∈ t.nodes := by
  rw [← Multiset.mem_coe, ← keys_nodes] at h
  obtain ⟨⟨j, l⟩, hl, rfl⟩ := Multiset.mem_map.mp h
  exact ⟨l, hl⟩

theorem nodesAll_eq (ts : List Grown) : nodesAll ts = (ts.map nodes).sum := by
  induction ts with
  | nil => rw [nodesAll_nil]; rfl
  | cons t ts ih => rw [nodesAll_cons, ih]; rfl

theorem total_nodes (s : Ref) (t : Grown) :
    total (fun _ i l => ({(i, l)} : Nodes)) s t = t.nodes := by
  induction t generalizing s with
  | node i l ts ih =>
    rw [total_node, nodes_node, totals_eq, nodesAll_eq]
    exact congrArg (_ + List.sum ·) (List.map_congr_left fun t ht => ih t ht _)

theorem mem_ids_plug (K : Context) (h : i ∈ t.ids) : i ∈ (plug K t).ids := by
  induction K generalizing t with
  | nil => exact h
  | cons f K ih =>
    refine ih (?_ : i ∈ (f.fill t).ids)
    rw [Frame.fill, ids_node, List.flatMap_append, List.flatMap_cons]
    simp [h]

/-! ## Nodes that are kept -/

/-- A node is as it was, or a link that is plain now. -/
def Settles (e f : NodeId × Label) : Prop :=
  f.1 = e.1 ∧ (f.2 = e.2 ∨ e.2.kind.isChain = true ∧ f.2 = e.2.plain)

instance : Std.Refl Settles := ⟨fun _ => ⟨rfl, .inl rfl⟩⟩

instance : IsTrans (NodeId × Label) Settles where
  trans e f g := by
    rintro ⟨hf, h⟩ ⟨hg, h'⟩
    refine ⟨hg.trans hf, ?_⟩
    rcases h with h | ⟨hl, h⟩
    · rwa [h] at h'
    · -- a plain link is no link of a chain
      refine .inr ⟨hl, (h'.resolve_right fun ⟨hl', _⟩ => ?_).trans h⟩
      rw [h, isChain_plain] at hl'
      cases hl'

/-- All nodes of `P` are in `Q`, links perhaps plain, and the rest of `Q` was made. -/
def Retains (P Q : Nodes) : Prop :=
  ∃ P' N, Multiset.Rel Settles P P' ∧ (∀ e ∈ N, e.2.synthesized = true) ∧ Q = P' + N

namespace Retains

variable {P P' Q Q' S N : Nodes}

theorem refl (P : Nodes) : Retains P P :=
  ⟨P, 0, Multiset.rel_refl_of_refl_on fun e _ => refl_of Settles e, by simp, by simp⟩

theorem of_eq (h : P = Q) : Retains P Q := h ▸ refl P

theorem exists_settled (h : Retains P Q) {x : NodeId × Label} (hx : x ∈ P) :
    ∃ y ∈ Q, Settles x y := by
  obtain ⟨A, N, hA, -, rfl⟩ := h
  obtain ⟨y, hy, hs⟩ := Multiset.exists_mem_of_rel_of_mem hA hx
  exact ⟨y, Multiset.mem_add.mpr (.inl hy), hs⟩

theorem mem_or_made (h : Retains P Q) {y : NodeId × Label} (hy : y ∈ Q) :
    (∃ x ∈ P, Settles x y) ∨ y.2.synthesized = true := by
  obtain ⟨A, N, hA, hN, rfl⟩ := h
  exact (Multiset.mem_add.mp hy).imp (Multiset.exists_mem_of_rel_of_mem (Multiset.rel_flip.mpr hA))
    (hN y)

theorem of_made (hN : ∀ e ∈ N, e.2.synthesized = true) (h : Q = P + N) : Retains P Q :=
  ⟨P, N, Multiset.rel_refl_of_refl_on fun e _ => refl_of Settles e, hN, h⟩

theorem of_new (hl : l.synthesized = true) : Retains 0 {(i, l)} :=
  of_made (N := {(i, l)}) (fun e he => by rw [Multiset.mem_singleton.mp he]; exact hl)
    (zero_add _).symm

theorem of_plain (hl : l.kind.isChain = true) : Retains {(i, l)} {(i, l.plain)} :=
  ⟨{(i, l.plain)}, 0, .cons ⟨rfl, .inr ⟨hl, rfl⟩⟩ .zero, by simp, by simp⟩

theorem add (h : Retains P Q) (h' : Retains P' Q') : Retains (P + P') (Q + Q') := by
  obtain ⟨A, N, hA, hN, rfl⟩ := h
  obtain ⟨B, M, hB, hM, rfl⟩ := h'
  refine ⟨A + B, N + M, hA.add hB, fun e he => ?_, by abel⟩
  rcases Multiset.mem_add.mp he with he | he
  · exact hN e he
  · exact hM e he

theorem trans (h : Retains P Q) (h' : Retains Q S) : Retains P S := by
  obtain ⟨A, N, hA, hN, rfl⟩ := h
  obtain ⟨B, M, hB, hM, rfl⟩ := h'
  obtain ⟨B₁, B₂, h₁, h₂, rfl⟩ := Multiset.rel_add_left.mp hB
  refine ⟨B₁, B₂ + M, hA.trans Settles h₁, fun e he => ?_, add_assoc _ _ _⟩
  rcases Multiset.mem_add.mp he with he | he
  · -- what was made is as it was but for its kind
    obtain ⟨n, hn, -, hs⟩ := Multiset.exists_mem_of_rel_of_mem (Multiset.rel_flip.mpr h₂) he
    rcases hs with hs | ⟨-, hs⟩
    all_goals rw [hs]; exact hN n hn
  · exact hM e he

end Retains

theorem keeps_nodes : KeepsTotal (fun _ i l => ({(i, l)} : Nodes)) (fun _ => True) Retains where
  refl := .refl
  trans := .trans
  add := .add
  made _ _ _ hl _ _ := .of_new hl
  declared _ _ _ := .of_new rfl
  plain _ _ _ hl := .of_plain hl

theorem LowersAll.retains (h : LowersAll t cs xs u) : Retains t.nodes u.nodes := by
  rw [← total_nodes none t, ← total_nodes none u]
  exact keeps_nodes.lowersAll none h fun _ _ => trivial

/-! ## Declarations that are new -/

/-- Every declaration by `let` in `Q` is one of `P` or declares a temporary. -/
def Declared (T : Temp → Prop) (P Q : Nodes) : Prop :=
  ∀ e ∈ Q, e.2.kind = .letDecl → e ∈ P ∨ ∃ x, T x ∧ x.declared = e.1

theorem keeps_declared (T : Temp → Prop) :
    KeepsTotal (fun _ i l => ({(i, l)} : Nodes)) T (Declared T) where
  refl _ _ he _ := .inl he
  trans h h' e he hl := (h' e he hl).elim (fun he => h e he hl) .inr
  add h h' e he hl := by
    rw [Multiset.mem_add] at he ⊢
    rcases he with he | he
    · exact (h e he hl).imp_left .inl
    · exact (h' e he hl).imp_left .inr
  made _ _ _ _ _ hne e he hl := by
    rw [Multiset.mem_singleton.mp he] at hl
    exact absurd hl hne
  declared _ x hx e he _ := .inr ⟨x, hx, by rw [Multiset.mem_singleton.mp he]⟩
  plain _ _ l hchain e he hl := by
    rw [Multiset.mem_singleton.mp he] at hl
    have hlink := isLink_plain hchain
    rw [hl] at hlink
    cases hlink

theorem LowersAll.declared (h : LowersAll t cs xs u) : Declared (· ∈ xs) t.nodes u.nodes := by
  rw [← total_nodes none t, ← total_nodes none u]
  exact (keeps_declared _).lowersAll none h fun _ hx => hx

end Grown

end ChainLowering
