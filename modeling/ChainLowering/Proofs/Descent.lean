import ChainLowering.Proofs.WalkSound

/-!
# Walks downwards

The walk over all that is below the root of a tree comes by its indices in
their order, and so the ends of its chains can be told from the tree alone.
-/

namespace ChainLowering

open Grown

namespace Grown

mutual
/-- The ends of chains, each before those below it; `continued` tells whether the node above goes on
with the root. -/
def ends (continued : Bool) : Grown → List NodeId
  | node i l ts => (if l.kind.isChain && !continued then [i] else []) ++ endsAll l.kind.isChain ts
/-- The same for trees side by side, where only the first may be continued. -/
def endsAll (continued : Bool) : List Grown → List NodeId
  | [] => []
  | t :: ts => t.ends continued ++ endsAll false ts
end

@[simp] theorem ends_node (c : Bool) (i : NodeId) (l : Label) (ts : List Grown) :
    (node i l ts).ends c =
      (if l.kind.isChain && !c then [i] else []) ++ endsAll l.kind.isChain ts := rfl

@[simp] theorem endsAll_nil (c : Bool) : endsAll c [] = [] := rfl

@[simp] theorem endsAll_cons (c : Bool) (t : Grown) (ts : List Grown) :
    endsAll c (t :: ts) = t.ends c ++ endsAll false ts := rfl

/-- What is in a hole is continued by its owner. -/
def isContinued : Context → Bool
  | [] => false
  | f :: _ => f.continues

theorem endsChain_eq (K : Context) : endsChain K = !isContinued K := by
  cases K <;> rfl

theorem length_ids_le_flatMap {t : Grown} {ts : List Grown} (ht : t ∈ ts) :
    t.ids.length ≤ (ts.flatMap ids).length := by
  obtain ⟨us, vs, rfl⟩ := List.append_of_mem ht
  rw [List.flatMap_append, List.flatMap_cons, List.length_append, List.length_append]
  omega

end Grown

namespace Arena

variable {a : Arena} {p : Ref} {t : Grown} {K : Context} {R : Entries}

theorem length_ids_le (h : a.Holds (t.entries p + R)) : t.ids.length ≤ a.size := by
  rw [← h.card, Multiset.card_add, ← Multiset.card_map Prod.fst (t.entries p), keys_entries,
    Multiset.coe_card]
  exact Nat.le_add_right _ _

theorem visit_slots {ts : List Grown} (ht : ∀ t ∈ ts, ∀ (n : Nat) (todo : List Ref),
    a.visit (t.ids.length + n) (some t.id :: todo) = t.ids ++ a.visit n todo) (n : Nat)
      (todo : List Ref) :
    a.visit ((ts.flatMap ids).length + n) (slots ts ++ todo) =
      ts.flatMap ids ++ a.visit n todo := by
  induction ts with
  | nil => simp
  | cons t ts ih =>
    rw [List.flatMap_cons, List.length_append, Nat.add_assoc, slots_cons, List.cons_append,
      ht t List.mem_cons_self, ih fun u hu => ht u (List.mem_cons_of_mem _ hu), List.append_assoc]

theorem visit_tree (h : Shows a p t) (n : Nat) (todo : List Ref) :
    a.visit (t.ids.length + n) (some t.id :: todo) = t.ids ++ a.visit n todo := by
  induction t generalizing p n todo with
  | node i l ts ih =>
    have hn : a.node? (some i) = some ⟨l, p, slots ts⟩ := h.root
    have hlen : (node i l ts).ids.length + n = (ts.flatMap ids).length + n + 1 := by
      rw [ids_node, List.length_cons]
      omega
    rw [hlen, id_node, visit, hn]
    simp only
    rw [visit_slots fun t ht => ih t ht (h.child ht), ids_node, List.cons_append]

theorem slotsTo_tree (h : Shows a p t) {d : Nat} (hd : t.ids.length ≤ d) :
    a.slotsTo d (some t.id) = t.ids.length := by
  induction t generalizing p d with
  | node i l ts ih =>
    rw [ids_node, List.length_cons] at hd
    obtain ⟨d, rfl⟩ : ∃ m, d = m + 1 := ⟨d - 1, by omega⟩
    have hc : a.children (some i) = slots ts := by
      rw [children, show a.node? (some i) = some ⟨l, p, slots ts⟩ from h.root]
    have hsum : ((slots ts).map (a.slotsTo d)).foldr (· + ·) 0 = (ts.flatMap ids).length := by
      rw [← List.sum_eq_foldr, slots, List.map_map, List.length_flatMap]
      refine congrArg List.sum (List.map_congr_left fun t ht => ?_)
      exact ih t ht (h.child ht) ((length_ids_le_flatMap ht).trans (by omega))
    rw [id_node, slotsTo, hc, hsum, ids_node, List.length_cons]
    omega

theorem preorder_tree (h : a.Holds (t.entries p + R)) : a.preorder (some t.id) = t.ids := by
  rw [preorder, slotsTo_tree h.shows (length_ids_le h)]
  have := visit_tree h.shows 0 []
  rw [Nat.add_zero] at this
  rw [this, visit, List.append_nil]

/-! ## The tree at a slot -/

theorem treeTo_tree (h : Shows a p t) {d : Nat} (hd : t.ids.length ≤ d) :
    a.treeTo d (some t.id) = t.toTree := by
  induction t generalizing p d with
  | node i l ts ih =>
    rw [ids_node, List.length_cons] at hd
    obtain ⟨d, rfl⟩ : ∃ m, d = m + 1 := ⟨d - 1, by omega⟩
    have hn : a.nodes[i]? = some ⟨l, p, slots ts⟩ := h.root
    have hchild : ∀ k, a.treeTo d ((slots ts).getD k none) = (ts.map toTree).getD k .absent := by
      intro k
      by_cases hk : k < ts.length
      · have hmem := List.getElem_mem hk
        have := ih _ hmem (h.child hmem) ((length_ids_le_flatMap hmem).trans (by omega) : _ ≤ d)
        simpa [slots, hk] using this
      · have hslot : (slots ts)[k]? = none := by simpa [slots] using hk
        have htree : (ts.map toTree)[k]? = none := by simpa using hk
        rw [List.getD_eq_getElem?_getD, List.getD_eq_getElem?_getD, hslot, htree]
        cases d <;> rfl
    rw [toTree_node, id_node, treeTo, hn, Tree.of, List.length_map]
    simp only [hchild]
    simp [slots]

theorem tree_eq (h : a.Holds (t.entries p + R)) : a.tree (some t.id) = t.toTree :=
  treeTo_tree h.shows ((length_ids_le h).trans (Nat.le_add_right _ _))

/-! ## Ends of chains -/

theorem filter_isChainEnd_slots {f : Frame} (ts : List Grown)
    (ht : ∀ t ∈ ts, ∀ K, a.Holds ((plug K t).entries none + R) →
      t.ids.filter (fun i : NodeId => a.isChainEnd i) = t.ends (isContinued K))
    (h : a.Holds ((plug K (.node f.id f.label (f.left ++ ts))).entries none + R)) :
    (ts.flatMap ids).filter (fun i : NodeId => a.isChainEnd i) = endsAll (f.label.kind.isChain &&
      f.left.isEmpty) ts := by
  induction ts generalizing f with
  | nil => rfl
  | cons t ts ih =>
    have hrest :=
      ih (f := { f with left := f.left ++ [t] }) (fun u hu => ht u (List.mem_cons_of_mem _ hu))
      (by simpa using h)
    rw [List.flatMap_cons, List.filter_append, hrest,
      ht t List.mem_cons_self ({ f with right := ts } :: K) h, endsAll_cons]
    have hleft : (f.left ++ [t]).isEmpty = false := by simp
    simp only [isContinued, Frame.continues, hleft, Bool.and_false]

theorem filter_isChainEnd (t : Grown) : ∀ K, a.Holds ((plug K t).entries none + R) →
    t.ids.filter (fun i : NodeId => a.isChainEnd i) = t.ends (isContinued K) := by
  induction t with
  | node i l ts ih =>
    intro K h
    have hi := isChainEnd_hole h
    have hts := filter_isChainEnd_slots (f := ⟨i, l, [], []⟩) ts ih h
    rw [List.isEmpty_nil, Bool.and_true] at hts
    rw [endsChain_eq] at hi
    rw [ids_node, ends_node, List.filter_cons, hts]
    simp only [id_node, label_node] at hi
    simp only [hi]
    cases l.kind.isChain && !isContinued K <;> rfl

/-- The ends of chains that a walk over a tree finds. -/
theorem chainEnds_tree (h : a.Holds (t.entries none + R)) :
    a.chainEnds (some t.id) = t.ends false := by
  rw [chainEnds, preorder_tree h]
  exact filter_isChainEnd t [] h

end Arena

end ChainLowering
