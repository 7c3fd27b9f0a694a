import SwitchSynth.Sketch.DataPath
import SwitchSynth.Workspace

/-!
# Test cases

A counterexample becomes a test case of the next sketch: an input on which the pipeline has to agree with
the program. An input that a counterexample leaves open is zero.
-/

namespace SwitchSynth

open Sketch (upTo)

/-- The inputs that a specification has: its packet fields, and the states of its state groups. -/
structure Inputs where
  fields : Int
  groups : List (String × List String)

namespace Inputs

def fieldNames (i : Inputs) : List String :=
  (upTo i.fields).map fun n => "pkt_" ++ toString n

def stateNames (i : Inputs) : List String :=
  i.groups.flatMap fun (group, states) =>
    states.map fun state => "state_group_" ++ group ++ "_state_" ++ state

end Inputs

/-- Give a value to the names that have none, and say so. -/
def fillIn {α : Type} (zero : α) (values : Table α) (names : List String) : Work (Table α) :=
  names.foldlM
    (fun values name => do
      if values.contains name then return values
      Work.say ("Setting value 0 for " ++ name)
      return values.insert name zero)
    values

/-- Something that the pipeline and the program both compute. -/
inductive Output where
  | field (number : String)
  | state (group : String) (number : Nat)
  deriving DecidableEq, Repr

def Output.name : Output → String
  | field number => "pkt_" ++ number
  | state group number => "state_group_" ++ group ++ "_state_" ++ toString number

/-- What a test case compares. -/
inductive Compared where
  | everything
  | only (outputs : List Output)
  deriving DecidableEq, Repr

/-- What is compared for given packet fields and state groups. A part that is not given is not compared,
unless neither is given. -/
def Compared.ofChoice (fields groups : Option (List String)) (groupSize : Int) : Compared :=
  match fields, groups with
  | none, none => .everything
  | fields, groups =>
    .only ((fields.getD []).map .field ++
      (groups.getD []).flatMap fun g => (upTo groupSize).map (.state g))

structure Testcase where
  number : Int
  fields : List (String × String)
  states : List (String × String)
  compared : Compared

namespace Testcase

def input (t : Testcase) : String :=
  "x_" ++ toString t.number

/-- The declaration of the input. It is closed behind the last state. -/
def declaration (t : Testcase) : String :=
  let setting (p : String × String) := p.1 ++ " = " ++ p.2
  "|StateAndPacket| " ++ t.input ++ " = |StateAndPacket|(\n" ++
    String.join (t.fields.map fun p => setting p ++ ",\n") ++
    if t.states.isEmpty then ""
    else String.intercalate ",\n" (t.states.map setting) ++ ");\n"

/-- The assertion that the pipeline and the program agree on a part of their output. -/
def assertion (t : Testcase) (part : String) : String :=
  "assert (pipeline(" ++ t.input ++ ")" ++ part ++ " == program(" ++ t.input ++ ")" ++ part ++ ");\n"

def assertions (t : Testcase) : String :=
  match t.compared with
  | .everything => t.assertion ""
  | .only outputs => String.join (outputs.map fun o => t.assertion ("." ++ o.name))

def text (t : Testcase) : String :=
  t.declaration ++ t.assertions

end Testcase

end SwitchSynth
