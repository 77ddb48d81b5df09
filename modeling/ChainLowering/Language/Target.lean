/-! # Language levels of the emitted script

Levels are ordered by age. `level` is increasing along `all`, and the newest
level stands far above the dated ones. -/

namespace ChainLowering

inductive Target
  | es3 | es5 | es2015 | es2016 | es2017 | es2018 | es2019 | es2020 | es2021 | es2022 | esnext
  deriving DecidableEq

structure UnknownTarget where
  name : String
  deriving DecidableEq

def UnknownTarget.message (e : UnknownTarget) : String :=
  "unknown script target '" ++ e.name ++ "'"

namespace Target

instance : Inhabited Target := ⟨es5⟩

def all : List Target :=
  [es3, es5, es2015, es2016, es2017, es2018, es2019, es2020, es2021, es2022, esnext]

def level : Target → Nat
  | es3 => 0
  | es5 => 1
  | es2015 => 2
  | es2016 => 3
  | es2017 => 4
  | es2018 => 5
  | es2019 => 6
  | es2020 => 7
  | es2021 => 8
  | es2022 => 9
  | esnext => 99

def name : Target → String
  | es3 => "es3"
  | es5 => "es5"
  | es2015 => "es2015"
  | es2016 => "es2016"
  | es2017 => "es2017"
  | es2018 => "es2018"
  | es2019 => "es2019"
  | es2020 => "es2020"
  | es2021 => "es2021"
  | es2022 => "es2022"
  | esnext => "esnext"

/-- Letters count in either case; `es6` is an older name of `es2015`. -/
def named? (s : String) : Option Target :=
  let s := s.toLower
  if s = "es6" then some es2015 else all.find? (fun t => t.name = s)

def parse (s : String) : Except UnknownTarget Target :=
  match named? s with
  | some t => .ok t
  | none => .error ⟨s⟩

theorem level_injective {t u : Target} (h : t.level = u.level) : t = u := by
  cases t <;> cases u <;> first | rfl | exact absurd h (by decide)

theorem mem_all (t : Target) : t ∈ all := by
  cases t <;> decide

end Target

end ChainLowering
