import SwitchSynth.Error
import SwitchSynth.Text.Blank
import SwitchSynth.Text.Digit

/-!
# Numerals

A decimal integer in a text: blank space around it, a sign, decimal digits of any script, and single
underscores between digits.
-/

namespace SwitchSynth.Text

/-- Whether a character may stand around a numeral: blank space other than the information separators. -/
def isPadding (c : Char) : Bool :=
  isBlank c && !(0x1c ≤ c.toNat && c.toNat ≤ 0x1f)

/-- Read digits with single underscores between them, most significant first. -/
def readDigits (acc : Nat) : List Char → Option Nat
  | [] => some acc
  | '_' :: c :: rest => do readDigits (acc * 10 + (← digitValue? c)) rest
  | c :: rest => do readDigits (acc * 10 + (← digitValue? c)) rest

def readNatural : List Char → Option Nat
  | [] => none
  | c :: rest => do readDigits (← digitValue? c) rest

/-- Whether a numeral has a minus sign, and what is behind its sign. -/
def splitSign : List Char → Bool × List Char
  | '-' :: rest => (true, rest)
  | '+' :: rest => (false, rest)
  | cs => (false, cs)

/-- The greatest number of digits that a numeral may have. -/
def digitLimit : Nat := 4300

/-- Read an integer, or say why the text is none. That a numeral is too long is found out before what is
behind it. -/
def readInt (s : String) : Except Error Int :=
  let (negative, cs) := splitSign (s.toList.dropWhile isPadding)
  let belongs := fun c => isDigit c || c == '_'
  let numeral := cs.takeWhile belongs
  match readNatural numeral with
  | none => .error (.notANumeral s)
  | some n =>
    let digits := numeral.countP isDigit
    if digitLimit < digits then .error (.longNumeral digits)
    else if (cs.dropWhile belongs).all isPadding then .ok (if negative then -(n : Int) else n)
    else .error (.notANumeral s)

end SwitchSynth.Text
