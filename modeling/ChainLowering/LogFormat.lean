import ChainLowering.Text.Blank

/-! # Formats of the log -/

namespace ChainLowering

inductive LogFormat
  | text | tree | json
  deriving DecidableEq

namespace LogFormat

def name : LogFormat → String
  | text => "Text"
  | tree => "Tree"
  | json => "Json"

/-- Blanks around the name and the case of its letters do not count; any other
name means plain text. -/
def named (s : String) : LogFormat :=
  let word := String.ofList ((Text.trim s.toList).map Char.toLower)
  if word = "tree" then tree else if word = "json" then json else text

end LogFormat

end ChainLowering
