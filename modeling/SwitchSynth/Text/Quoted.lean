import SwitchSynth.Text.Printable

/-!
# Quoted text

A text between single quotes, or between double quotes if it holds a single quote and no double one. The
quote, the backslash and every character that is not printable are written with a backslash.
-/

namespace SwitchSynth.Text

/-- The hexadecimal digits of a number, at least `width` of them. -/
def hex (width n : Nat) : String :=
  let digits := Nat.toDigits 16 n
  String.ofList (List.replicate (width - digits.length) '0' ++ digits)

/-- A character by its number, in the shortest of the three forms. -/
def numberEscape (c : Char) : String :=
  let n := c.toNat
  if n < 0x100 then "\\x" ++ hex 2 n
  else if n < 0x10000 then "\\u" ++ hex 4 n
  else "\\U" ++ hex 8 n

/-- A character inside quotes of a given kind. -/
def quotedChar (quote c : Char) : String :=
  if c = quote ∨ c = '\\' then String.ofList ['\\', c]
  else if c = '\n' then "\\n"
  else if c = '\r' then "\\r"
  else if c = '\t' then "\\t"
  else if isPrintable c then String.singleton c
  else numberEscape c

/-- The kind of quote that a text is put between. -/
def quoteFor (s : String) : Char :=
  if s.contains '\'' && !s.contains '"' then '"' else '\''

def quoted (s : String) : String :=
  let quote := quoteFor s
  String.singleton quote ++ String.join (s.toList.map (quotedChar quote)) ++ String.singleton quote

def quotedList (ss : List String) : String :=
  "[" ++ String.intercalate ", " (ss.map quoted) ++ "]"

/-- Texts between quotes, in parentheses unless there is only one. -/
def quotedTuple : List String → String
  | [s] => quoted s
  | ss => "(" ++ String.intercalate ", " (ss.map quoted) ++ ")"

end SwitchSynth.Text
