import SwitchSynth.P4.Generator

/-!
# A workload for switch programs

The holes of a square pipeline get values by simple rules, a few times over, and are used up again.
-/

namespace SwitchSynth.Workload

open Sketch (upTo)
open P4 (StatelessConfig Target)

def squareTarget (side : Int) : Target :=
  ⟨"sqr", side, side, side, ["0", "1", "2", "3"], ""⟩

/-- The values of the holes of the stateless ALU at a place. -/
def statelessValues (side shift stage number : Nat) : List (String × Int) :=
  let own := P4.Assemble.aluName "sqr" "stateless" stage number
  let turn := stage + number + shift
  [(own ++ "_demux_ctrl", turn % 2), (own ++ "_opcode", (stage * side + number + shift) % 4),
   (own ++ "_operand_mux_0_ctrl", number), (own ++ "_operand_mux_1_ctrl", (number + 1) % side),
   (own ++ "_immediate_operand", turn % 4)]

/-- The values of the holes that activate stateful ALUs. -/
def activeValues (side shift : Nat) : List (String × Int) :=
  (List.range side).flatMap fun (stage : Nat) => (List.range side).map fun (group : Nat) =>
    ("sqr_salu_config_" ++ toString stage ++ "_" ++ toString group, (stage + group + shift) % 2)

def squareValues (side shift : Nat) : Table Int :=
  .ofList
    ((List.range side).flatMap (fun stage =>
      (List.range side).flatMap (statelessValues side shift stage)) ++
    activeValues side shift)

/-- What the values of a pipeline decide. -/
structure Decided where
  stateless : List (List StatelessConfig)
  active : List (List Int)

/-- Use up the values of a square pipeline, with a shift. -/
def decideSquare (side : Int) (shift : Nat) : Except Error Decided :=
  let steps : P4.Assemble Decided := do
    let stateless ← P4.Assemble.statelessAlus
    let active ← P4.Assemble.configurations
    return ⟨stateless, active⟩
  ((steps.run (squareTarget side, {})).run.run (squareValues side.toNat shift)).1

/-- Use up the values of a square pipeline with four shifts. -/
def decideSquares (side : Int) : Except Error (List Decided) :=
  (List.range 4).mapM (decideSquare side)

end SwitchSynth.Workload
