import SwitchSynth.Synthesis.Elimination
import SwitchSynth.Synthesis.Testcase

/-!
# A workload for the refinement of sketches

An assignment to a given number of holes is excluded, and a counterexample whose size goes with that number
becomes test cases.
-/

namespace SwitchSynth.Workload

open Sketch (HoleValue upTo)

/-- An assignment: the values come round after seven holes. -/
def assignmentOf (holes : Int) : Table HoleValue :=
  .ofList ((upTo holes).map fun i => ("h" ++ toString i, .text (toString (i % 7))))

/-- The packet fields of a counterexample, one for ten holes. -/
def fieldValues (holes : Int) : Table Int :=
  .ofList ((upTo (holes.fdiv 10)).map fun (i : Nat) => ("pkt_" ++ toString i, i))

def stateValues (holes : Int) : Table Int :=
  .ofList ((upTo (holes.fdiv 10)).map fun (i : Nat) =>
    ("state_group_" ++ toString i ++ "_state_0", i))

/-- The inputs of the specification: three packet fields more than the counterexample has, and three state
groups. -/
def refinedInputs (holes : Int) : Inputs :=
  ⟨holes.fdiv 10 + 3, (List.range 3).map fun g => (toString g, ["0", "1"])⟩

/-- The numbers from zero to another, as texts. -/
def numbersTo (n : Int) : List String :=
  (upTo (n + 1)).map fun i => toString i

/-- What test cases compare: everything, some fields, some fields and groups, and some groups. -/
def comparisons (holes : Int) : List Compared :=
  let fields := numbersTo (holes.fdiv 20)
  let groups := numbersTo (holes.fdiv 30)
  [.ofChoice none none 2, .ofChoice (some fields) none 2, .ofChoice (some fields) (some groups) 2,
   .ofChoice none (some groups) 2]

/-- What refinement comes to. -/
structure Refinement where
  exclusion : List String
  emptyExclusion : List String
  fields : List (String × Int)
  states : List (String × Int)
  testcases : List String

def inOrder (t : Table Int) : List (String × Int) :=
  t.toList.mergeSort fun a b => decide (a.1 ≤ b.1)

def refine (holes : Int) : Work Refinement := do
  let inputs := refinedInputs holes
  let shown (t : Table Int) := (t.map fun v => toString v).toList
  return {
    exclusion := ← Work.ofExcept (Elimination.constraints (assignmentOf holes))
    emptyExclusion := ← Work.ofExcept (Elimination.constraints {})
    fields := inOrder (← fillIn 0 (fieldValues holes) inputs.fieldNames)
    states := inOrder (← fillIn 0 (stateValues holes) inputs.stateNames)
    testcases := (comparisons holes).map fun compared =>
      Testcase.text ⟨holes, shown (fieldValues holes), shown (stateValues holes), compared⟩ }

end SwitchSynth.Workload
