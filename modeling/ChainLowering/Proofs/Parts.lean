import ChainLowering.Proofs.Soundness

/-!
# Trees of the grammar with their indices
-/

namespace ChainLowering

theorem Rule.owner {part : Part} {l : Label} {parts : List Part} (rule : Rule part l parts)
    (hl : l.kind.ownsStatements = true) :
    ∃ n, parts = List.replicate n .statement ∧ ∀ n, Rule part l (List.replicate n .statement) := by
  have hother : l.kind ≠ .name ∧ l.kind.isGet = false ∧ l.kind.isChain = false := by
    revert hl
    cases l.kind <;> decide
  cases rule with
  | inner rule =>
    cases rule with
    | block n => exact ⟨n, rfl, fun n => .inner (.block n)⟩
  | script n => exact ⟨n, rfl, .script⟩
  | block n => exact ⟨n, rfl, .block⟩
  | named rule | «variable» rule | closure rule => cases rule; cases hl
  | target _ hk => exact absurd hk (by simp [hother])
  | chain _ hk => exact absurd hk (by simp [hother])
  | @declaration k _ hd | @constant k hd | @unary k hd | @binary k hd =>
      cases k <;> first | (cases hd; done) | cases hl
  | property hk | element hk | call _ hk => rcases hk with rfl | rfl <;> cases hl
  | _ => cases hl

namespace Grown

variable {part : Part} {k : Kind} {i : NodeId} {l : Label} {t u : Grown} {ts : List Grown}

/-- Without its indices the tree is a tree of a part. -/
def Is (part : Part) (t : Grown) : Prop := Tree.Is part t.toTree

theorem forall₂_is {parts : List Part} : List.Forall₂ Tree.Is parts (ts.map toTree) ↔
    List.Forall₂ Is parts ts :=
  List.forall₂_map_right_iff

theorem forall₂_is_replicate {n : Nat} : List.Forall₂ Is (List.replicate n part) ts ↔
    ts.length = n ∧ ∀ t ∈ ts, t.Is part := by
  rw [← forall₂_is, Tree.forall₂_replicate, List.length_map, List.forall_mem_map]
  rfl

theorem is_node : (node i l ts).Is part ↔
    ∃ parts, Rule part l.bare parts ∧ List.Forall₂ Is parts ts := by
  unfold Is
  rw [toTree_node]
  constructor
  · intro h
    obtain ⟨parts, rule, children⟩ := h.exists_rule
    exact ⟨parts, rule, forall₂_is.mp children⟩
  · rintro ⟨parts, rule, children⟩
    exact Tree.is_of rule (forall₂_is.mpr children)

theorem Is.exists_part (h : (node i l ts).Is part) (ht : t ∈ ts) : ∃ q, t.Is q := by
  obtain ⟨parts, -, children⟩ := is_node.mp h
  obtain ⟨q, -, hq⟩ := Tree.exists_part (forall₂_is.mpr children) (List.mem_map_of_mem ht)
  exact ⟨q, hq⟩

theorem Is.label_kind (h : t.Is part) (hk : part.kind? = some k) : t.label.kind = k := by
  have h := Tree.Is.kind?_eq h hk
  rw [kind?_toTree] at h
  exact Option.some.inj h

theorem Is.children_eq_nil (h : t.Is .name ∨ t.Is .unnamed) : t.children = [] := by
  obtain ⟨i, l, ts⟩ := t
  rcases h with h | h
  all_goals
    obtain ⟨parts, rule, children⟩ := is_node.mp h
    generalize l.bare = m at rule
    cases rule
    exact List.forall₂_nil_left_iff.mp children

theorem Is.of_parameters (h : (node i l ts).Is .parameters) (ht : t ∈ ts) : t.Is .name := by
  obtain ⟨parts, rule, children⟩ := is_node.mp h
  generalize l.bare = m at rule
  cases rule
  exact (forall₂_is_replicate.mp children).2 t ht

theorem Is.isChain_eq_false (h : t.Is part) (hp : part.isBarred = true) :
    t.label.kind.isChain = false := by
  have h := Tree.Is.isChain_eq_false h hp
  rwa [isChain_toTree] at h

theorem Is.of_owner (h : (node i l ts).Is part) (ho : l.kind.ownsStatements = true) (ht : t ∈ ts) :
    t.Is .statement := by
  obtain ⟨parts, rule, children⟩ := is_node.mp h
  obtain ⟨n, rfl, -⟩ := rule.owner ho
  exact (forall₂_is_replicate.mp children).2 t ht

theorem Is.of_function (h : (node i l ts).Is part) (hl : l.kind = .function) :
    ∃ n p b, ts = [n, p, b] ∧ (n.Is .name ∨ n.Is .unnamed) ∧ p.Is .parameters ∧ b.Is .block := by
  obtain ⟨parts, rule, children⟩ := is_node.mp h
  generalize hm : l.bare = m at rule
  have hk : m.kind = .function := by rw [← hm]; exact hl
  induction rule with
  | inner _ ih | named _ ih | «variable» _ ih | closure _ ih | target _ _ ih | chain _ _ ih =>
    exact ih (is_node.mpr ⟨_, by rwa [hm], children⟩) children hm hk
  | function =>
    obtain _ | ⟨hn, _ | ⟨hp, _ | ⟨hb, _ | _⟩⟩⟩ := children
    exact ⟨_, _, _, rfl, .inl hn, hp, hb⟩
  | anonymous =>
    obtain _ | ⟨hn, _ | ⟨hp, _ | ⟨hb, _ | _⟩⟩⟩ := children
    exact ⟨_, _, _, rfl, .inr hn, hp, hb⟩
  | declaration _ hd | constant hd | unary hd | binary hd =>
    cases hk
    cases hd
  | property hl | element hl | call _ hl => rcases hl with rfl | rfl <;> cases hk
  | _ => cases hk

end Grown

end ChainLowering
