import ChainLowering.Source.Reader
import ChainLowering.Tree

/-!
# Readers that make trees

The readers may keep trees on their stack in place of nodes of a store. What
they make of a text can then be told without indices.
-/

namespace ChainLowering

instance : NodeStack (List Tree) where
  build l n s := .of l (s.take n).reverse :: s.drop n
  size := List.length
  topKind? s := s.head?.bind Tree.kind?

@[simp] theorem NodeStack.build_trees (l : Label) (n : Nat) (s : List Tree) :
    build l n s = .of l (s.take n).reverse :: s.drop n := rfl

@[simp] theorem NodeStack.size_trees (s : List Tree) : size s = s.length := rfl

@[simp] theorem NodeStack.topKind?_cons (t : Tree) (s : List Tree) :
    topKind? (t :: s) = t.kind? := rfl

abbrev TreeReader := Reader (List Tree)

abbrev TreeRead := Read (List Tree)

abbrev NestedTrees := Reader.Nested (List Tree)

/-- The trees of a source text, in order: on success only the script, else those that were finished
before the error. -/
def readTrees (source : String) : Except (Halt ReadError) Unit × List Tree :=
  match Lexer.tokens source with
  | .error e => (.error e, [])
  | .ok tokens =>
    let (result, r) := (Reader.script : TreeRead Unit).run { tokens := tokens, made := [] }
    (result, r.made.reverse)

end ChainLowering
