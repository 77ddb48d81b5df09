import ChainLowering.Print.Layout
import ChainLowering.Proofs.Spelling

/-!
# Printed trees

What a tree is printed as depends on what it shows alone.
-/

namespace ChainLowering

namespace Tree

variable {l m : Label} {t : Tree} {ts : List Tree}

/-- The text of the tree tells what the tree is: its keys are words, its strings
have plain characters, and no name is taken from a number that is written out. -/
def Printable : Tree → Prop
  | node l n c => (l.kind = .objectKey → Lexer.isWord (l.text.getD "") = true) ∧
      (l.kind = .stringLit → ∀ x ∈ (l.text.getD "").toList, Text.isPlain x = true) ∧
      (l.kind = .getProp → (c 0).kind? ≠ some .numberLit) ∧ ∀ i < n, (c i).Printable
  | _ => True

instance decidablePrintable : (t : Tree) → Decidable t.Printable
  | node l n c =>
    have (i : Nat) : Decidable (c i).Printable := decidablePrintable (c i)
    have : Decidable (∀ x ∈ (l.text.getD "").toList, Text.isPlain x = true) :=
      List.decidableBAll _ _
    inferInstanceAs (Decidable ((l.kind = .objectKey → Lexer.isWord (l.text.getD "") = true) ∧
      (l.kind = .stringLit → ∀ x ∈ (l.text.getD "").toList, Text.isPlain x = true) ∧
      (l.kind = .getProp → (c 0).kind? ≠ some .numberLit) ∧ ∀ i < n, (c i).Printable))
  | absent | dangling => .isTrue trivial

theorem Printable.child (h : (of l ts).Printable) (ht : t ∈ ts) : t.Printable := by
  obtain ⟨i, hi, rfl⟩ := List.mem_iff_getElem.mp ht
  have : (ts.getD i absent).Printable := h.2.2.2 i hi
  rwa [List.getD_eq_getElem?_getD, List.getElem?_eq_getElem hi, Option.getD_some] at this

theorem map_range_children {β : Type} (ts : List Tree) (f : Tree → β) :
    (List.range ts.length).map (fun i => f (ts[i]?.getD absent)) = ts.map f := by
  conv_rhs => rw [← children_of { kind := .empty } ts, of, children, List.map_map]
  simp [Function.comp_def]

theorem pieces_bare (d : Nat) (l : Label) (ts : List Tree) :
    (of l.bare ts).pieces d = (of l ts).pieces d := by
  rw [of, of, pieces, pieces]
  rfl

theorem body_block (hl : l.kind = .block) (d : Nat) (ts : List Tree) :
    body d (of l ts) = (of l ts).pieces d := by
  simp [of, body, pieces, hl]

theorem statementOf_block (ht : t.kind? = some .block) (ps : List Piece) :
    statementOf t ps = ps := by
  rw [statementOf, ht]
  rfl

end Tree

end ChainLowering
