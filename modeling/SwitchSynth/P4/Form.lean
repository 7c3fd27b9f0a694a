import SwitchSynth.Error
import SwitchSynth.Sketch.Primitive

/-!
# Primitives in switch programs

Once the holes have values, every primitive is replaced by the text of an expression of the switch language.
A `Form` is such an expression with places for the operands; the value of the hole chooses the form. An
operand without text is shown as `None` inside a form, and stays without text where the form is the operand
itself.
-/

namespace SwitchSynth.P4

open Sketch (Primitive)

/-- Expressions with places for operands, which are numbered from one. -/
inductive Form where
  | operand (n : Nat)
  | word (s : String)
  | group (f : Form)
  | minus (f : Form)
  | not (f : Form)
  | join (a : Form) (op : String) (b : Form)
  deriving DecidableEq, Repr

namespace Form

def pick (operands : List (Option String)) : Nat → Option String
  | 0 => none
  | n + 1 => operands[n]?.join

def text (operands : List (Option String)) : Form → String
  | operand n => (pick operands n).getD "None"
  | word s => s
  | group f => "(" ++ f.text operands ++ ")"
  | minus f => "-" ++ f.text operands
  | not f => "not" ++ f.text operands
  | join a op b => a.text operands ++ " " ++ op ++ " " ++ b.text operands

/-- The value of a form: a bare operand may be without text. -/
def value (operands : List (Option String)) : Form → Option String
  | operand n => pick operands n
  | f => some (f.text operands)

def first : Form := group (operand 1)

def second : Form := group (operand 2)

end Form

/-- The forms for the values of a hole: one for each of 0, 1, 2, … and one for all others. -/
structure Forms where
  cases : List Form
  otherwise : Form
  deriving DecidableEq, Repr

def Forms.select (f : Forms) : Int → Form
  | .ofNat n => f.cases[n]?.getD f.otherwise
  | .negSucc _ => f.otherwise

open Form in
/-- The forms of each primitive. An addition or subtraction of zero is left out. -/
def forms (p : Primitive) (operands : List (Option String)) : Forms :=
  match p with
  | .mux5 => ⟨[operand 1, operand 2, operand 3, operand 5, operand 4], operand 5⟩
  | .mux4 => ⟨[operand 1, operand 2, operand 3], operand 4⟩
  | .mux3 => ⟨[operand 1, operand 2], operand 3⟩
  | .mux3Num digits => ⟨[operand 1, operand 2], word digits⟩
  | .mux2 => ⟨[operand 1], operand 2⟩
  | .relOp =>
    ⟨[join first "!=" second, join first "<" second, join first ">" second],
     join first "==" second⟩
  | .arithOp =>
    if pick operands 1 = some "0" then ⟨[second], group (minus second)⟩
    else if pick operands 2 = some "0" then ⟨[], first⟩
    else ⟨[join first "+" second], join first "-" second⟩
  | .opt => ⟨[operand 1], word "0"⟩
  | .constant => ⟨[], operand 1⟩
  | .computeAlu =>
    ⟨[join first "+" second, join first "-" second, join second "-" first, second, first,
      word "0"],
     word "1"⟩
  | .boolOp =>
    ⟨[word "false", not (group (join first "or" second)), join (group (not first)) "and" second,
      not first, join first "and" (group (not second)), not second, join first "and" second,
      not (group (join first "and" second)), join first "and" second,
      not (group (join first "and" second)), second, join (group (not first)) "or" second, first,
      join first "or" (group (not second)), join first "or" second],
     word "true"⟩

/-- The element of a list at a place, which counts from the end if it is negative. -/
def atPlace {α : Type} (xs : List α) : Int → Except Error α
  | .ofNat n =>
    match xs[n]? with
    | some x => .ok x
    | none => .error .outOfRange
  | .negSucc n =>
    match xs.reverse[n]? with
    | some x => .ok x
    | none => .error .outOfRange

/-- The text that takes the place of a primitive for a value of its hole. -/
def resolve (p : Primitive) (operands : List (Option String)) (hole : Int) : Option String :=
  ((forms p operands).select hole).value operands

end SwitchSynth.P4
