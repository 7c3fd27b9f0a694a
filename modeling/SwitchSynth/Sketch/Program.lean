import SwitchSynth.Sketch.Constraint
import SwitchSynth.Sketch.DataPath

/-!
# Sketches

A sketch has the holes or their values, the definitions of multiplexers and ALUs, the records that hold
packet and state, the program that is implemented, the pipeline that implements it, and a harness that
compares the two.
-/

namespace SwitchSynth.Sketch

/-- What a sketch is for. -/
inductive Mode where
  /-- No longer in use. -/
  | solveVerify
  | codegen
  | verify
  deriving DecidableEq, Repr

namespace Mode

def name : Mode → String
  | solveVerify => "SOL_VERIFY" | codegen => "CODEGEN" | verify => "VERIFY"

def ofName? (s : String) : Option Mode :=
  [solveVerify, codegen, verify].find? fun m => m.name == s

end Mode

/-- The parts of a sketch. -/
structure Program where
  plan : Plan
  specFile : String
  spec : String
  holeBlock : String
  operandMuxes : String
  outputMuxes : String
  alus : String
  extraConstraints : List String
  constraints : List Constraint
  testcases : String

namespace Program

def titleText (p : Program) : String :=
  "// This is an autogenerated sketch file corresponding to\n" ++
    "// the router's data path and is used to solve the Chipmunk compilation problem.\n" ++
    "// spec_filename = " ++ p.specFile ++ " num_pipeline_stages = " ++
    toString p.plan.shape.stages ++ "\n// num_alus_per_stage = " ++ toString p.plan.shape.alus ++
    "\n// num_phv_containers = " ++ toString p.plan.shape.containers ++ "\n\n"

def definitionsText (p : Program) : String :=
  let s := p.plan.shape
  "// Operand muxes for each ALU in each stage\n// Total of " ++ toString s.stages ++ " * " ++
    toString s.alus ++ " * 3 " ++ toString s.containers ++
    "-to-1 muxes\n// The 3 is for two stateless operands and one stateful operand.\n\n" ++
    p.operandMuxes ++ "\n\n// Output mux for each PHV container\n" ++
    "// Allows the container to be written from either its own stateless ALU or any stateful " ++
    "ALU\n\n" ++ p.outputMuxes ++ "\n\n// Definition for ALUs\n\n" ++ p.alus

def stateVars (p : Program) : List String :=
  (upTo p.plan.shape.groups).flatMap fun (g : Nat) =>
    (List.range p.plan.slots).map fun s => stateVarName g s

def recordsText (p : Program) : String :=
  "struct StateGroup \x7b\n" ++
    String.join ((List.range p.plan.slots).map fun s => "    int state_" ++ toString s ++ ";\n") ++
    "\x7d\n\n// Data type for holding result from spec and implementation\n" ++
    "struct StateAndPacket \x7b\n" ++
    String.join ((upTo p.plan.shape.fields).map fun (f : Nat) => "    int " ++ fieldName f ++ ";\n") ++
    String.join (p.stateVars.map fun v => "      int " ++ v ++ ";\n") ++ "\x7d\n\n"

def pipelineText (p : Program) : String :=
  "  |StateAndPacket| pipeline (|StateAndPacket| state_and_packet) \x7b\n" ++
    "  // Any additional constraints to speed up synthesis through parallel execution.\n  " ++
    String.intercalate "\n" (p.extraConstraints.map fun c => "assert(" ++ c ++ ");") ++
    "\n\n  // Consolidate all constraints on holes here.\n  " ++
    String.join (p.constraints.map Constraint.assertion) ++ "\n\n" ++
    String.join (p.plan.items.map (Item.text p.plan)) ++
    "\n  // Return updated packet fields and state vars\n  return state_and_packet;\n\x7d\n\n"

/-- The states of the program as the arguments of a record, one a line. -/
def stateLines (p : Program) : String :=
  String.join ((upTo p.plan.shape.groups).flatMap fun (g : Nat) =>
    (List.range p.plan.slots).map fun s =>
      let v := stateVarName g s
      "          " ++ v ++ " = " ++ v ++
        (if (g : Int) = p.plan.shape.groups - 1 ∧ (s : Int) = p.plan.slots - 1 then "\n" else ",\n"))

/-- The function that compares the pipeline with the program. -/
def harnessText (p : Program) : String :=
  let fields := (upTo p.plan.shape.fields).map fun (f : Nat) => fieldName f
  "  harness void main(\n    " ++ String.intercalate "," (fields.map ("int " ++ ·)) ++ "\n" ++
    String.join (p.stateVars.map fun v => "        , int " ++ v ++ "\n") ++ ") \x7b\n\n" ++
    "    |StateAndPacket| x = |StateAndPacket|(" ++
    String.join (fields.map fun f => "      " ++ f ++ " = " ++ f ++ ",\n") ++ p.stateLines ++
    ");\n\n  |StateAndPacket| pipeline_result = pipeline(x);\n" ++
    "  |StateAndPacket| program_result = program(x);\n\n" ++
    String.join (p.plan.shape.outputGroups.flatMap fun g =>
      (upTo p.plan.shape.groupSize).map fun s =>
        "      assert(pipeline_result." ++ stateVarName g s ++ "\n      == program_result." ++
          stateVarName g s ++ ");\n") ++ "\n" ++
    String.join (p.plan.shape.outputFields.map fun f =>
      "    assert(pipeline_result." ++ fieldName f ++ " == program_result." ++ fieldName f ++
        ");\n") ++ "\n  " ++ p.testcases ++ "\n\n  \x7d\n"

def text (p : Program) : String :=
  p.titleText ++ p.holeBlock ++ "\n\n// Definitions of muxes and ALUs of the router\n" ++
    p.definitionsText ++ "\n" ++ p.recordsText ++ "// Specification\n" ++ p.spec ++
    "\n\n// Implementation\n" ++ p.pipelineText ++ p.harnessText

end Program

end SwitchSynth.Sketch
