import SwitchSynth.Sketch.HoleValue
import SwitchSynth.Workspace

/-!
# Reports

What is left behind when synthesis ends: the output of the synthesiser in a file, and on success the values
of all holes in another one.
-/

namespace SwitchSynth.Report

open Sketch (HoleValue)

/-- The holes with their values in alphabetical order. -/
def sorted (values : Table HoleValue) : List (String × HoleValue) :=
  values.toList.mergeSort fun a b => decide (a.1 ≤ b.1)

def success (sketchName : String) (values : Table HoleValue) (output : String) : Work Unit := do
  Work.say "Compilation succeeded. Hole value assignments are following:"
  (sorted values).forM fun (hole, value) => Work.say ("int " ++ hole ++ " = " ++ value.shown)
  let outputFile := plainPath (sketchName ++ ".success")
  Work.write outputFile output
  Work.say ("Output left in " ++ lastPart outputFile)
  let valueFile := plainPath (sketchName ++ "_hole_cfgs.txt")
  Work.write valueFile
    (String.join ((sorted values).map fun (hole, value) => hole ++ " = " ++ value.shown ++ "\n"))
  Work.say ("Hole configuration left in " ++ lastPart valueFile)

def failure (sketchName output : String) : Work Unit := do
  Work.say "Compilation failed."
  let file := plainPath (sketchName ++ ".errors")
  Work.write file output
  Work.say ("Output left in " ++ lastPart file)

def constants (values : List String) : Work Unit :=
  if values.isEmpty then throw .outOfRange
  else Work.say ("Final constant set is: " ++ String.intercalate "," values)

end SwitchSynth.Report
