import ChainLowering.Proofs.NurserySound
import ChainLowering.Proofs.Progress
import ChainLowering.Proofs.Soundness

/-!
# What reading adds to a store

Whether a source can be read or not, the nodes that are there stay as they
are, and links of the nodes that are added go to nodes that are added. When it
can be read these are the nodes of its script, with the next indices in
post-order.
-/

namespace ChainLowering

open Grown

/-! ## One reader -/

namespace Grown

/-- The shape of `t` and its indices in post-order, with more behind them, leave no choice what `t`
is. -/
def Settled (t : Grown) : Prop := ∀ {u : Grown} {is js : List NodeId}, t.toTree = u.toTree →
  t.postorder ++ is = u.postorder ++ js → t = u ∧ is = js

theorem eq_of_settled {ts us : List Grown} {is js : List NodeId} (h : ∀ t ∈ ts, t.Settled)
    (htrees : ts.map toTree = us.map toTree)
    (horder : ts.flatMap postorder ++ is = us.flatMap postorder ++ js) : ts = us ∧ is = js := by
  induction ts generalizing us with
  | nil =>
    obtain rfl := List.map_eq_nil_iff.mp htrees.symm
    exact ⟨rfl, horder⟩
  | cons t ts ih =>
    rw [List.forall_mem_cons] at h
    cases us with
    | nil => cases htrees
    | cons u us =>
      obtain ⟨hhead, htail⟩ := List.cons.inj htrees
      rw [List.flatMap_cons, List.flatMap_cons, List.append_assoc, List.append_assoc] at horder
      obtain ⟨rfl, hrest⟩ := h.1 hhead horder
      obtain ⟨rfl, hleft⟩ := ih h.2 htail hrest
      exact ⟨rfl, hleft⟩

theorem settled (t : Grown) : t.Settled := by
  induction t with
  | node i l ts ih =>
    rintro ⟨j, m, us⟩ is js htree horder
    rw [toTree_node, toTree_node] at htree
    rw [postorder_node, postorder_node, List.append_assoc, List.append_assoc] at horder
    have hchildren := congrArg Tree.children htree
    rw [Tree.children_of, Tree.children_of] at hchildren
    obtain ⟨rfl, hleft⟩ := eq_of_settled ih hchildren horder
    obtain ⟨rfl, rfl⟩ := List.cons.inj hleft
    obtain rfl := (Tree.node.inj htree).1
    exact ⟨rfl, rfl⟩

end Grown

theorem range'_join {k m : Nat} (n : Nat) (h : k ≤ m) :
    List.range' k (m - k) ++ List.range' m (n - m) = List.range' k (max m n - k) := by
  have hm : List.range' m (n - m) = List.range' (k + (m - k)) (n - m) := by
    rw [Nat.add_sub_cancel' h]
  rw [hm, List.range'_append_1]
  congr 1
  omega

/-- With one tree more on trees that look as before, these trees are the same, and the new one has
the next indices. -/
theorem Nursery.Bears.next {a : Arena} {R : Entries} {s s' : Nursery} {g : Grown}
    {gs hs : List Grown} (h : s.Bears a R gs) (h' : s'.Bears a R (g :: hs))
    (htrees : gs.map toTree = hs.map toTree) :
    gs = hs ∧ g.postorder = List.range' s.arena.size (s'.arena.size - s.arena.size) := by
  have hlists : List.range' a.size (s.arena.size - a.size) ++
        List.range' s.arena.size (s'.arena.size - s.arena.size) =
      List.range' a.size (s'.arena.size - a.size) ++
        List.range' s'.arena.size (s.arena.size - s'.arena.size) := by
    rw [range'_join _ h.size_le, range'_join _ h'.size_le, Nat.max_comm]
  rw [← h.order, ← h'.order, List.reverse_cons, List.flatMap_append, List.flatMap_singleton,
    List.append_assoc] at hlists
  have hrev : gs.reverse.map toTree = hs.reverse.map toTree := by
    rw [List.map_reverse, List.map_reverse, htrees]
  obtain ⟨hall, horder⟩ := eq_of_settled (fun t _ => t.settled) hrev hlists
  have hnone : s.arena.size - s'.arena.size = 0 := by
    have hlength := congrArg List.length horder
    rw [List.length_append, List.length_range', List.length_range'] at hlength
    omega
  rw [hnone, List.range'_zero, List.append_nil] at horder
  exact ⟨List.reverse_inj.mp hall, horder.symm⟩

namespace Reader

variable {a : Arena} {R : Entries} {gs : List Grown} {r r' : Reader Nursery}

/-- What reads one tree puts it on the trees that are there and leaves those as they are. The nodes
of the tree have the next indices, each after the nodes below it. -/
theorem Reads.bears {x : Read Nursery Unit} {y : TreeRead Unit} {P : Tree → Prop} (hy : Reads P y)
    (h : InStep (Nursery.Follows a R) x y) (hlexed : ∀ t ∈ r.tokens, t.tok.Lexed)
    (hr : r.made.Bears a R gs) (hx : x.run r = (.ok (), r')) :
    ∃ g : Grown, P g.toTree ∧ r'.made.Bears a R (g :: gs) ∧
      g.postorder = List.range' r.made.arena.size (r'.made.arena.size - r.made.arena.size) := by
  let s : TreeReader := { r with made := gs.map toTree }
  obtain hbound | ⟨hresult, hmirrors⟩ := h r s ⟨rfl, rfl, rfl, rfl, gs, hr, rfl⟩
  · rw [hx] at hbound
    cases hbound
  · rcases hrun : y.run s with ⟨v, s'⟩
    rw [hx, hrun] at hresult hmirrors
    subst hresult
    obtain ⟨-, t, ht, hmade⟩ := hy _ s () s' hlexed rfl hrun
    obtain ⟨gs', hr', hgs'⟩ := hmirrors.made
    rw [hmade] at hgs'
    cases gs' with
    | nil => cases hgs'
    | cons g hs =>
      obtain ⟨rfl, htrees⟩ := List.cons.inj hgs'
      obtain ⟨rfl, horder⟩ := hr.next hr' htrees
      exact ⟨g, ht, hr', horder⟩

theorem Nested.InStep.exists_reader {σ τ : Type} [NodeStack σ] [NodeStack τ] {M : σ → τ → Prop}
    [NodeStack.Agree M] {p : Nested σ} {q : Nested τ} (h : p.InStep M q) {x : Read σ Unit}
    (hx : x ∈ p.readers) : ∃ y ∈ q.readers, Reader.InStep M x y := by
  obtain ⟨i, hi, rfl⟩ := List.getElem_of_mem hx
  obtain ⟨hlen, hall⟩ := List.forall₂_iff_get.mp h.readers
  exact ⟨q.readers[i], List.getElem_mem _, hall i hi (hlen ▸ hi)⟩

theorem Nested.Good.reads {p : NestedTrees} (h : p.Good) :
    ∀ x ∈ p.readers, Reads (fun _ => True) x := by
  have any {part : Part} {x : TreeRead Unit} (hx : Reads (Tree.Is part) x) :
      Reads (fun _ => True) x := hx.mono fun _ _ => trivial
  simp only [Nested.readers, List.forall_mem_cons]
  exact ⟨any h.statement, any (reads_block h), any (reads_expression h), any h.assignment,
    any (reads_unary h), any (reads_linked h), any (reads_primary h),
    any (reads_function h (.named .function) (.inl rfl)),
    any (reads_function h (.closure .function) (.inr .anonymous)), List.forall_mem_nil _⟩

/-- Whatever takes part in the recursion adds one tree, with the next indices in post-order, on top
of the trees that were finished before. -/
theorem readers_allocate {n : Nat} {x : Read Nursery Unit} (hx : x ∈ (nested n).readers)
    (hlexed : ∀ t ∈ r.tokens, t.tok.Lexed) (hr : r.made.Bears a R gs)
    (hrun : x.run r = (.ok (), r')) :
    ∃ g : Grown, r'.made.Bears a R (g :: gs) ∧
      g.postorder = List.range' r.made.arena.size (r'.made.arena.size - r.made.arena.size) := by
  have hnested : (nested n).InStep (Nursery.Follows a R) (nested n) := nested_inStep (Nat.le_refl n)
  obtain ⟨y, hy, hstep⟩ := hnested.exists_reader hx
  obtain ⟨g, -, hbears, horder⟩ := ((good_nested n).reads y hy).bears hstep hlexed hr hrun
  exact ⟨g, hbears, horder⟩

end Reader

namespace Arena

/-- What was in `a` is in `b` as it was, and the rest of `b` stands apart from it. -/
structure Extends (a b : Arena) : Prop where
  kept : ∀ {i n}, a.node? (some i) = some n → b.node? (some i) = some n
  /-- A new node hangs below a new node, if it hangs below a node. -/
  parent : ∀ {i n p}, a.size ≤ i → b.node? (some i) = some n → n.parent = some p → a.size ≤ p
  /-- Nor does it list a node that was there. -/
  child : ∀ {i n c}, a.size ≤ i → b.node? (some i) = some n → some c ∈ n.children → a.size ≤ c
  features : b.features = a.features

variable {a b : Arena} {R : Entries} {s : Nursery} {gs : List Grown} {source : String}
    {result : Except (Halt ReadError) Ref}

end Arena

end ChainLowering
