import ChainLowering.Fault
import ChainLowering.Source.ReadError

/-! # From text to tokens

Blanks and comments between tokens are dropped. The longest punctuator wins,
except that `?.` before a digit is a `?`, so that `a?.5:b` chooses. -/

namespace ChainLowering.Lexer

abbrev Scan := Except (Halt ReadError)

def isSpace (c : Char) : Bool :=
  c = ' ' || c = '\t' || c = '\n' || c = '\x0c' || c = '\r'

def startsWord (c : Char) : Bool := c.isAlpha || c = '_' || c = '$'

def continuesWord (c : Char) : Bool := c.isAlphanum || c = '_' || c = '$'

def continuesNumber (c : Char) : Bool := c.isDigit || c = '.'

def startsWithDigit : List Char → Bool
  | c :: _ => c.isDigit
  | [] => false

def startsNumber (c : Char) (rest : List Char) : Bool :=
  c.isDigit || (c = '.' && startsWithDigit rest)

def bytes (s : List Char) : Nat := (s.map Char.utf8Size).foldr (· + ·) 0

/-- A string literal after its opening quote, which stands at byte `start`:
its value, its length up to and with the closing quote, and what follows. A
backslash takes one byte, so it must not stand before a longer character. -/
def stringBody (start : Nat) (quote : Char) :
    Nat → List Char → Scan (List Char × Nat × List Char)
  | _, [] => .error (.error (.unterminatedString start))
  | n, '\\' :: e :: s =>
    if e.toNat < 0x80 then do
      let (value, len, rest) ← stringBody start quote (n + 2) s
      return ((if e = 'n' then '\n' else if e = 't' then '\t' else e) :: value, len, rest)
    else .error (.fault (.insideCharacter (start + n + 2)))
  | n, c :: s =>
    if c = '\\' then .error (.error (.unterminatedString start))
    else if c = quote then .ok ([], n + 1, s)
    else do
      let (value, len, rest) ← stringBody start quote (n + c.utf8Size) s
      return (c :: value, len, rest)

def punct? (s : List Char) : Option Punct :=
  match Punct.all.find? (fun p => p.chars.isPrefixOf s) with
  | some .questionDot => if startsWithDigit (s.drop 2) then some .question else some .questionDot
  | p => p

/-- The token that begins with `c` at byte `start`, its length in bytes, and
what follows it. -/
def token (start : Nat) (c : Char) (s : List Char) : Scan (Tok × Nat × List Char) :=
  if startsWord c then
    let word := (c :: s).takeWhile continuesWord
    .ok (.ident (.ofList word), word.length, (c :: s).dropWhile continuesWord)
  else if startsNumber c s then
    let digits := (c :: s).takeWhile continuesNumber
    .ok (.number (.ofList digits), digits.length, (c :: s).dropWhile continuesNumber)
  else if c = '"' || c = '\x27' then do
    let (value, len, rest) ← stringBody start c 1 s
    return (.string (.ofList value), len, rest)
  else
    match punct? (c :: s) with
    | some p => .ok (.punct p, p.chars.length, (c :: s).drop p.chars.length)
    | none => .error (.error (.unexpectedChar c start))

def tokensTo : Nat → Nat → List Char → Scan (List Token)
  | _, pos, [] => .ok [⟨.eof, pos, pos⟩]
  | 0, _, _ :: _ => .error (.fault .exhausted)
  | n + 1, pos, c :: s =>
    if isSpace c then tokensTo n (pos + 1) s
    else if c = '/' && s.head? = some '/' then
      let comment := (c :: s).takeWhile (· ≠ '\n')
      tokensTo n (pos + bytes comment) ((c :: s).dropWhile (· ≠ '\n'))
    else do
      let (tok, len, rest) ← token pos c s
      let tokens ← tokensTo n (pos + len) rest
      return ⟨tok, pos, pos + len⟩ :: tokens

/-- The tokens of a text, with the end of input as the last. Every step takes
a character, so there are no more steps than characters. -/
def tokens (source : String) : Scan (List Token) :=
  let s := source.toList
  tokensTo s.length 0 s

end ChainLowering.Lexer
