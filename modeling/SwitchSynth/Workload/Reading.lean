import SwitchSynth.Sketch.BitWidth
import SwitchSynth.Sketch.DataPath
import SwitchSynth.Sketch.HoleValue
import SwitchSynth.Sketch.Program
import SwitchSynth.Spec

/-!
# A workload for the readers of texts

A specification and a sketch of a given number of lines are made up and read again, together with a short
solved sketch. What the readers find is counted.
-/

namespace SwitchSynth.Workload

open Sketch (HoleValue Mode upTo)

/-- A specification: each line copies a packet field to a state. The fields come round after 60 lines, the
state groups after 40, the states of a group after three. -/
def specification (lines : Int) : String :=
  String.join ((upTo lines).map fun i =>
    "state_and_packet.state_group_" ++ toString (i % 40) ++ "_state_" ++ toString (i % 3) ++
      " = state_and_packet.pkt_" ++ toString (i % 60) ++ ";\n")

def holeDeclarations (lines : Int) : String :=
  String.join ((upTo lines).map fun i =>
    "int hole_" ++ toString i ++ "= ??(" ++ toString (i % 5 + 1) ++ ");\n")

def solvedSketch : String :=
  "int hole_a__solved = 3;\nint hole_b__solved = 9;\n"

/-- A solved sketch in which a hole has two values. -/
def twiceSolvedSketch : String :=
  "int hole_a__first = 3;\nint hole_a__second = 4;\n"

/-- What the readers find. -/
structure Findings where
  stateGroups : Nat
  packetFields : Nat
  holes : Nat
  values : Table HoleValue
  width : Nat
  /-- Which modes are the same: each one is, for a start, the same as itself. -/
  sameModes : List Bool
  states : Nat
  refusedTwice : Bool
  modes : Nat

def modes : List Mode := [.solveVerify, .codegen, .verify]

def readTexts (lines : Int) : Except Error Findings := do
  let spec := specification lines
  let groups := Spec.stateGroups spec
  return {
    stateGroups := groups.size
    packetFields := ← Spec.fieldCount spec
    holes := (Sketch.declarations (holeDeclarations lines)).size
    values := ← Sketch.assignment ["hole_a", "hole_b"] solvedSketch
    width := ← Sketch.bitWidth lines
    sameModes := modes.map (fun m => m == m) ++ [Mode.codegen == Mode.verify]
    states := (groups.values.map List.length).foldl (· + ·) 0
    refusedTwice := match Sketch.assignment ["hole_a"] twiceSolvedSketch with
      | .error (.check _) => true
      | _ => false
    modes := modes.length }

end SwitchSynth.Workload
