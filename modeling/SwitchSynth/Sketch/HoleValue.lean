import SwitchSynth.Error
import SwitchSynth.Table
import SwitchSynth.Text.Numeral
import SwitchSynth.Text.Pattern.Reader

/-!
# Values of holes

A sketch declares its holes, and a solved sketch assigns a value to each of them. Both are read off the
text: `declarations` finds the holes with their numbers of bits, `assignment` the values of given holes.

The synthesiser adds two underscores and further word characters to the name of a hole. The name itself
may be a pattern; one that has groups of its own has the texts of all its groups as a value.
-/

namespace SwitchSynth.Sketch

open Text (Pattern)

/-- The value of a hole. -/
inductive HoleValue where
  | text (s : String)
  | number (n : Int)
  /-- The texts of several groups. -/
  | groups (ss : List String)
  deriving DecidableEq, Repr

namespace HoleValue

def shown : HoleValue → String
  | text s => s
  | number n => toString n
  | groups ss => Text.quotedTuple ss

def asText : HoleValue → Except Error String
  | text s => .ok s
  | number _ | groups _ => .error .wrongType

def asNumber : HoleValue → Except Error Int
  | text s => Text.readInt s
  | number n => .ok n
  | groups _ => .error .wrongType

/-- The value that the texts of the groups of a match stand for. -/
def ofGroups : List String → HoleValue
  | [s] => text s
  | ss => groups ss

end HoleValue

/-- The declaration of a hole; its name and its bits are kept. -/
def declarationPattern : Pattern :=
  .seqAll [.group 1 .wordChars, .text "= ??(", .group 2 .digits, .text ");"]

/-- The holes that a sketch declares, with their numbers of bits as they are written. -/
def declarations (sketch : String) : Table String :=
  .ofList ((declarationPattern.findAll sketch).filterMap fun c =>
    match c.captures 2 with
    | [name, bits] => some (name, bits)
    | _ => none)

def assignmentText (hole : String) : String :=
  hole ++ "__" ++ "\\w+ = (\\d+)"

def valuesOf (hole solved : String) : Except Error (List (List String)) :=
  match Pattern.read? (assignmentText hole) with
  | none => .error .notAPattern
  | some (p, groups) => .ok ((p.findAll solved).map (·.captures groups))

def assignment (holes : List String) (solved : String) : Except Error (Table HoleValue) :=
  holes.foldlM
    (fun found hole => do
      match ← valuesOf hole solved with
      | [value] => return found.insert hole (.ofGroups value)
      | values => throw (.check (.ambiguousHole hole values)))
    {}

end SwitchSynth.Sketch
