import ChainLowering.Language.Target

/-! # Language features and sets of them

A script records the features it uses. A feature occupies one bit of a set,
in the order of `Feature.all`. -/

namespace ChainLowering

inductive Feature
  | letDeclarations | constDeclarations | arrowFunctions | classes | exponentOperator
  | asyncFunctions | objectRestSpread | optionalCatchBinding | optionalChaining
  | nullishCoalescing | logicalAssignment
  deriving DecidableEq

namespace Feature

def all : List Feature :=
  [letDeclarations, constDeclarations, arrowFunctions, classes, exponentOperator,
   asyncFunctions, objectRestSpread, optionalCatchBinding, optionalChaining,
   nullishCoalescing, logicalAssignment]

/-- Position in `all`, and the bit in a set. -/
def index : Feature → Nat
  | letDeclarations => 0
  | constDeclarations => 1
  | arrowFunctions => 2
  | classes => 3
  | exponentOperator => 4
  | asyncFunctions => 5
  | objectRestSpread => 6
  | optionalCatchBinding => 7
  | optionalChaining => 8
  | nullishCoalescing => 9
  | logicalAssignment => 10

def name : Feature → String
  | letDeclarations => "LetDeclarations"
  | constDeclarations => "ConstDeclarations"
  | arrowFunctions => "ArrowFunctions"
  | classes => "Classes"
  | exponentOperator => "ExponentOperator"
  | asyncFunctions => "AsyncFunctions"
  | objectRestSpread => "ObjectRestSpread"
  | optionalCatchBinding => "OptionalCatchBinding"
  | optionalChaining => "OptionalChaining"
  | nullishCoalescing => "NullishCoalescing"
  | logicalAssignment => "LogicalAssignment"

def flagName : Feature → String
  | letDeclarations => "LET_DECLARATIONS"
  | constDeclarations => "CONST_DECLARATIONS"
  | arrowFunctions => "ARROW_FUNCTIONS"
  | classes => "CLASSES"
  | exponentOperator => "EXPONENT_OPERATOR"
  | asyncFunctions => "ASYNC_FUNCTIONS"
  | objectRestSpread => "OBJECT_REST_SPREAD"
  | optionalCatchBinding => "OPTIONAL_CATCH_BINDING"
  | optionalChaining => "OPTIONAL_CHAINING"
  | nullishCoalescing => "NULLISH_COALESCING"
  | logicalAssignment => "LOGICAL_ASSIGNMENT"

def named? (s : String) : Option Feature :=
  all.find? (fun f => f.name = s)

def since : Feature → Target
  | letDeclarations | constDeclarations | arrowFunctions | classes => .es2015
  | exponentOperator => .es2016
  | asyncFunctions => .es2017
  | objectRestSpread => .es2018
  | optionalCatchBinding => .es2019
  | optionalChaining | nullishCoalescing => .es2020
  | logicalAssignment => .es2021

theorem index_lt (f : Feature) : f.index < 11 := by
  cases f <;> decide

theorem index_injective {f g : Feature} (h : f.index = g.index) : f = g := by
  cases f <;> cases g <;> first | rfl | exact absurd h (by decide)

theorem mem_all (f : Feature) : f ∈ all := by
  cases f <;> decide

end Feature

def Target.supports (t : Target) (f : Feature) : Bool :=
  decide (f.since.level ≤ t.level)

structure FeatureSet where
  bits : BitVec 11
  deriving DecidableEq

namespace FeatureSet

def empty : FeatureSet := ⟨0⟩

def single (f : Feature) : FeatureSet := ⟨.twoPow 11 f.index⟩

def has (s : FeatureSet) (f : Feature) : Bool := s.bits.getLsbD f.index

def insert (s : FeatureSet) (f : Feature) : FeatureSet := ⟨s.bits ||| (single f).bits⟩

def ofList (l : List Feature) : FeatureSet := l.foldl insert empty

def toList (s : FeatureSet) : List Feature := Feature.all.filter s.has

def diff (s t : FeatureSet) : FeatureSet := ⟨s.bits &&& ~~~t.bits⟩

@[simp] theorem has_empty (f : Feature) : empty.has f = false := by
  simp [empty, has]

@[simp] theorem insert_insert (s : FeatureSet) (f : Feature) :
    (s.insert f).insert f = s.insert f := by
  simp [insert, BitVec.or_assoc]

@[simp] theorem has_insert (s : FeatureSet) (f g : Feature) :
    (s.insert f).has g = (s.has g || decide (f = g)) := by
  by_cases h : f = g
  · simp [insert, single, has, h, g.index_lt]
  · have : ¬ f.index = g.index := fun e => h (Feature.index_injective e)
    simp [insert, single, has, h, this]

@[simp] theorem has_diff (s t : FeatureSet) (f : Feature) :
    (s.diff t).has f = (s.has f && !t.has f) := by
  simp [diff, has, f.index_lt]

end FeatureSet

def Target.supported (t : Target) : FeatureSet :=
  .ofList (Feature.all.filter t.supports)

/-- The features of a set that have to be lowered before emission. -/
def FeatureSet.unsupportedBy (s : FeatureSet) (t : Target) : FeatureSet :=
  s.diff t.supported

end ChainLowering
