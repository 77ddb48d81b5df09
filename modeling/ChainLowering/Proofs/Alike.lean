import Mathlib.Data.List.Forall2
import ChainLowering.Proofs.Soundness

/-!
# Trees up to the names of temporaries

Two lowered trees are alike if they differ in the names of temporaries, in
the order of the declarations that stand together before one statement, and
in where their nodes come from.
-/

namespace ChainLowering

/-- Which names answer to which, and which of them are temporaries. -/
structure Renaming where
  names : String → String → Prop
  isTemporary : String → Prop

/-- Labels that show the same, but for a name. -/
structure Label.Alike (r : Renaming) (l m : Label) : Prop where
  kind : l.kind = m.kind
  chainStart : l.chainStart = m.chainStart
  text : l.kind ≠ .name → l.text = m.text
  name : l.kind = .name → Option.Rel r.names l.text m.text

namespace Tree

/-- `let x;` -/
def IsLet (x : String) (t : Tree) : Prop :=
  ∃ l m : Label, t = of l [of m []] ∧ l.kind = .letDecl ∧ l.text = none ∧ l.chainStart = false ∧
    m.kind = .name ∧ m.text = some x ∧ m.chainStart = false

mutual
inductive Alike (r : Renaming) : Tree → Tree → Prop
  | node {l m : Label} {ts us : List Tree} (owner : l.kind.ownsStatements = false)
      (label : l.Alike r m) (children : List.Forall₂ (Alike r) ts us) : Alike r (of l ts) (of m us)
  | owner {l m : Label} {ts us : List Tree} (owner : l.kind.ownsStatements = true)
      (label : l.Alike r m) (statements : Rows r ts us) : Alike r (of l ts) (of m us)
/-- Statements in their order, each with the declarations of temporaries that stand before it in any
order. -/
inductive Rows (r : Renaming) : List Tree → List Tree → Prop
  | nil : Rows r [] []
  | cons {xs ys zs : List String} {lets lets' ts us : List Tree} {t u : Tree}
      (left : List.Forall₂ IsLet xs lets) (right : List.Forall₂ IsLet ys lets')
      (temporary : ∀ x ∈ xs, r.isTemporary x) (names : List.Forall₂ r.names xs zs)
      (perm : zs.Perm ys) (statement : Alike r t u) (rest : Rows r ts us) :
      Rows r (lets ++ t :: ts) (lets' ++ u :: us)
end

end Tree

variable {r : Renaming} {l m : Label}

/-! ## Labels -/

namespace Label

theorem alike_refl (h : l.kind = .name → Option.Rel r.names l.text l.text) : l.Alike r l :=
  ⟨rfl, rfl, fun _ => rfl, h⟩

theorem alike_of_ne (h : l.kind ≠ .name) : l.Alike r l := alike_refl fun hk => absurd hk h

theorem alike_made {k : Kind} {text : Option String} {src src' : Label} (hk : k ≠ .name) :
    (made k text src).Alike r (made k text src') := ⟨rfl, rfl, fun _ => rfl, fun h => absurd h hk⟩

theorem alike_madeName {x y : String} {src src' : Label} (h : r.names x y) :
    (made .name (some x) src).Alike r (made .name (some y) src') :=
      ⟨rfl, rfl, fun hk => absurd rfl hk, fun _ => .some h⟩

end Label

namespace Grown

/-- The trees are alike without their indices. -/
def Alike (r : Renaming) (t u : Grown) : Prop := Tree.Alike r t.toTree u.toTree

variable {i j : NodeId} {t u e : Grown} {ts us : List Grown} {x y : Temp} {d : Lowering}

theorem forall₂_toTree : List.Forall₂ (Tree.Alike r) (ts.map toTree) (us.map toTree) ↔
    List.Forall₂ (Alike r) ts us := by
  rw [List.forall₂_map_left_iff, List.forall₂_map_right_iff]
  rfl

theorem alike_node (ho : l.kind.ownsStatements = false) (hl : l.Alike r m)
    (h : List.Forall₂ (Alike r) ts us) : (node i l ts).Alike r (node j m us) := by
  unfold Alike
  rw [toTree_node, toTree_node]
  exact .node ho hl (forall₂_toTree.mpr h)

theorem Alike.label (h : t.Alike r u) : t.label.Alike r u.label := by
  obtain ⟨i, l, ts⟩ := t
  obtain ⟨j, m, us⟩ := u
  unfold Alike at h
  rw [toTree_node, toTree_node] at h
  generalize ht : Tree.of l (ts.map toTree) = t' at h
  generalize hu : Tree.of m (us.map toTree) = u' at h
  cases h with
  | node _ hl _ =>
    rw [label_node, label_node, (Tree.node.inj ht).1, (Tree.node.inj hu).1]
    exact hl
  | owner _ hl _ =>
    rw [label_node, label_node, (Tree.node.inj ht).1, (Tree.node.inj hu).1]
    exact hl

theorem Alike.children (h : t.Alike r u) (ho : t.label.kind.ownsStatements = false) :
    List.Forall₂ (Alike r) t.children u.children := by
  obtain ⟨i, l, ts⟩ := t
  obtain ⟨j, m, us⟩ := u
  unfold Alike at h
  rw [toTree_node, toTree_node] at h
  generalize ht : Tree.of l (ts.map toTree) = t' at h
  generalize hu : Tree.of m (us.map toTree) = u' at h
  cases h with
  | node _ _ hts =>
    have hts' := congrArg Tree.children ht
    have hus' := congrArg Tree.children hu
    rw [Tree.children_of, Tree.children_of] at hts' hus'
    rw [← hts', ← hus'] at hts
    exact forall₂_toTree.mp hts
  | owner ho' _ _ =>
    rw [label_node, (Tree.node.inj ht).1] at ho
    exact absurd (ho.symm.trans ho') Bool.noConfusion

/-! ## Temporaries -/

structure Temp.Answers (r : Renaming) (x y : Temp) : Prop where
  name : r.names x.name y.name
  temporary : r.isTemporary x.name

theorem alike_use (h : x.Answers r y) : x.use.Alike r y.use :=
  alike_node rfl (Label.alike_madeName h.name) .nil

theorem alike_keep (h : x.Answers r y) (ht : t.Alike r u) : (x.keep t).Alike r (y.keep u) :=
  alike_node rfl (Label.alike_made Kind.noConfusion)
    (.cons (alike_node rfl (Label.alike_madeName h.name) .nil) (.cons ht .nil))

theorem isLet_declaration (x : Temp) : Tree.IsLet x.name x.declaration.toTree := by
  rw [Temp.declaration, toTree_node]
  exact ⟨_, _, rfl, rfl, rfl, rfl, rfl, rfl, rfl⟩

theorem alike_plainLink (hl : l.kind.isChain = true) (ht : t.Alike r u)
    (hts : List.Forall₂ (Alike r) ts us) :
    (node i l.plain (t :: ts)).Alike r (node j l.plain (u :: us)) := by
  have hlink := isLink_plain hl
  refine alike_node ?_ (Label.alike_of_ne fun hk => ?_) (.cons ht hts)
  · revert hlink
    cases l.plain.kind <;> decide
  · rw [hk] at hlink
    cases hlink

theorem alike_dot {v w : NodeId} {src src' : Label} (h : t.Alike r u) :
    (node v (.made .getProp (some "call") src) [t]).Alike r
      (node w (.made .getProp (some "call") src') [u]) :=
  alike_node rfl (Label.alike_made Kind.noConfusion) (.cons h .nil)

theorem alike_get {o o' : Grown} {keys keys' : List Grown}
    (h : (node i l (t :: keys)).Alike r (node j m (u :: keys'))) (hl : l.kind.isGet = true)
    (ho : o.Alike r o') : (node i l (o :: keys)).Alike r (node j m (o' :: keys')) := by
  have hown : l.kind.ownsStatements = false := by
    revert hl
    cases l.kind <;> decide
  cases h.children hown with
  | cons _ hkeys => exact alike_node hown h.label (.cons ho hkeys)

end Grown

end ChainLowering
