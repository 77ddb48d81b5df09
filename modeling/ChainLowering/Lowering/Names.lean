import ChainLowering.Arena.Query

/-! # Names for temporaries

Candidates are `_a` to `_z` and then `_0`, `_1` and on. One that is reserved
when it comes up is left out for good. -/

namespace ChainLowering

/-- A source of names that a program does not use and that never repeat. -/
class NameSource (σ : Type) where
  fresh : σ → String × σ

structure Names where
  /-- Number of the next candidate. -/
  next : Nat := 0
  /-- Names the program uses. -/
  reserved : List String := []
  /-- Names handed out, the newest first. -/
  generated : List String := []

namespace Names

/-- The letters first, then numbers. -/
def candidate (k : Nat) : String :=
  if k < 26 then .ofList ['_', .ofNat ('a'.toNat + k)]
  else .ofList ('_' :: Nat.toDigits 10 (k - 26))

def isReserved (g : Names) (name : String) : Bool :=
  g.reserved.contains name || g.generated.contains name

def reserve (g : Names) (name : String) : Names :=
  { g with reserved := g.reserved.insert name }

def nameAt? (a : Arena) (r : Ref) : Option String :=
  if a.isName r then a.text? r else none

def reserveIn (g : Names) (a : Arena) (root : Ref) : Names :=
  (a.preorder root).foldl (fun g (i : NodeId) => (nameAt? a i).elim g g.reserve) g

/-- The number of the first free candidate from `k` on, if one of the next `n`
and the one after them is free. -/
def firstFree (taken : String → Bool) : Nat → Nat → Nat
  | 0, k => k
  | n + 1, k => if taken (candidate k) then firstFree taken n (k + 1) else k

/-- Candidates differ, so no more of them are taken than names are reserved. -/
def fresh (g : Names) : String × Names :=
  let k := firstFree g.isReserved (g.reserved.length + g.generated.length) g.next
  let name := candidate k
  (name, { g with next := k + 1, generated := name :: g.generated })

instance : NameSource Names := ⟨fresh⟩

end Names

/-- Numbers the names that begin with `stem`, without regard to the program. -/
structure Numbered where
  stem : String
  used : Nat := 0

def Numbered.fresh (g : Numbered) : String × Numbered :=
  (g.stem ++ toString (g.used + 1), { g with used := g.used + 1 })

instance : NameSource Numbered := ⟨Numbered.fresh⟩

end ChainLowering
