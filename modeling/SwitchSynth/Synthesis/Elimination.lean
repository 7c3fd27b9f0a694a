import SwitchSynth.Sketch.HoleValue
import SwitchSynth.Synthesis.Report

/-!
# Elimination of assignments

An assignment of holes that failed verification is excluded by a constraint: not all holes may have their
values again.
-/

namespace SwitchSynth.Elimination

open Sketch (HoleValue)

/-- The holes of an assignment in alphabetical order, with the texts of their values. -/
def equations (values : Table HoleValue) : Except Error (List (String × String)) :=
  (Report.sorted values).mapM fun (hole, value) => do return (hole, ← value.asText)

/-- The constraint that excludes some equations together. -/
def text (equations : List (String × String)) : String :=
  "!(" ++
    String.intercalate " && " (equations.map fun (hole, value) => "(" ++ hole ++ " == " ++ value ++ ")") ++
    ")"

/-- The constraints that exclude an assignment: none if there is no hole. -/
def constraints (values : Table HoleValue) : Except Error (List String) := do
  let es ← equations values
  return if es.isEmpty then [] else [text es]

end SwitchSynth.Elimination
