import SwitchSynth.Files
import SwitchSynth.Sketch.Allocation
import SwitchSynth.Sketch.Program
import SwitchSynth.Sketch.StatelessAlu

/-!
# Generating sketches

A generator holds the shape of a pipeline, the files of its two kinds of ALU and the constants, and collects
holes and constraints while it writes the parts of a sketch. An error leaves it with what it has collected
until then.
-/

namespace SwitchSynth.Sketch

/-- A hole with its number of bits. -/
structure Hole where
  name : String
  width : Int
  deriving DecidableEq, Repr

namespace Hole

def declaration (h : Hole) : String :=
  "int " ++ h.name ++ "= ??(" ++ toString h.width ++ ");\n"

def parameter (h : Hole) : String :=
  "int " ++ h.name

def greatest (h : Hole) : Int :=
  Int.pow 2 h.width.toNat - 1

end Hole

/-- The constants of a sketch. -/
structure ConstantVector where
  values : List String
  /-- Whether there is a space after the type. -/
  spaced : Bool
  deriving DecidableEq, Repr

def ConstantVector.text (v : ConstantVector) : String :=
  "int[" ++ toString v.values.length ++ "]" ++ (if v.spaced then " " else "") ++
    "constant_vector = \x7b" ++ String.intercalate "," v.values ++ "\x7d;\n\n"

/-- A generator of sketches. -/
structure Generator where
  shape : Shape
  /-- Whether holes decide which container holds which field, and which ALU which state group. -/
  synthesized : Bool
  statefulFile : String
  statelessFile : String
  constants : ConstantVector
  /-- The number of bits of a hole that chooses a constant. -/
  constantBits : Nat
  holes : List Hole := []
  constraints : List Constraint := []
  /-- The multiplexers of a stateless ALU, once one has been written. -/
  statelessMuxes : Option Nat := none
  /-- The holes of a stateful ALU, once one has been written. -/
  statefulHoles : Option (List String) := none
  /-- The packet operands of a stateful ALU; zero until one has been written. -/
  operands : Nat := 0
  /-- The states of a state group; zero until a stateful ALU has been written. -/
  slots : Nat := 0

abbrev Generate := ReaderT Files (ExceptT Error (StateM Generator))

namespace Generator

def create (shape : Shape) (synthesized : Bool) (statefulFile statelessFile : String)
    (constants : List String) : Except Error Generator := do
  return {
    shape := shape
    synthesized := synthesized
    statefulFile := statefulFile
    statelessFile := statelessFile
    constants := ⟨constants, true⟩
    constantBits := ← bitWidth constants.length }

def totalBits (g : Generator) : Int :=
  (g.holes.map Hole.width).foldl (· + ·) 0

def preamble (g : Generator) : String :=
  String.join (g.holes.map Hole.declaration)

def assertions (g : Generator) : String :=
  String.join (g.constraints.map Constraint.assertion)

def namingPlan (g : Generator) : Plan :=
  ⟨g.shape, g.synthesized, 0, [], 0, 0⟩

/-- The stateful ALUs of a stage. -/
def units (g : Generator) : List Nat :=
  g.namingPlan.units

def updateConstants (values : List String) : Generate Unit := do
  modify fun g => { g with constants := ⟨values, false⟩ }
  match bitWidth values.length with
  | .ok bits => modify fun g => { g with constantBits := bits }
  | .error e => throw e

def reset : Generate Unit :=
  modify fun g => { g with holes := [], constraints := [] }

def addHole (name : String) (width : Int) : Generate Unit :=
  if 0 ≤ width then modify fun g => { g with holes := g.holes ++ [⟨name, width⟩] }
  else throw (.check .negativeWidth)

def addHoles (holes : List (String × Int)) : Generate Unit :=
  (holes.mergeSort fun a b => decide (a.1 ≤ b.1)).forM fun (name, width) => addHole name width

def addConstraint (c : Constraint) : Generate Unit :=
  modify fun g => { g with constraints := g.constraints ++ [c] }

/-- Take a result or stop at its error. -/
def lift {α : Type} : Except Error α → Generate α
  | .ok a => pure a
  | .error e => throw e

/-- Write a multiplexer, which adds the hole that controls it. -/
def mux (inputs : Int) (name : String) : Generate String := do
  if inputs < 1 then throw (.check .noMuxInput)
  let bits ← lift (bitWidth inputs)
  let m : Mux := ⟨name, inputs.toNat⟩
  addHole m.control bits
  return m.text

def statelessAlu (name : String) (operands : List String) : Generate String := do
  let g ← get
  let text ← lift ((← read).readAscii g.statelessFile)
  let source := Alu.Source.read (Alu.lex text)
  let opcodeBits ← lift (StatelessAlu.opcodeBits text)
  let alu ← lift (StatelessAlu.declare (g.shape.sketchName ++ "_" ++ name) operands
    ⟨opcodeBits, g.constantBits⟩ source)
  let muxes ← alu.muxNames.mapM fun m => mux operands.length m
  let main ← lift alu.mainText
  addHoles alu.globalHoles
  modify fun g => { g with statelessMuxes := some alu.packetFields.length }
  return StatelessAlu.helperText muxes ++ main

def statefulAlu (name : String) : Generate String := do
  let g ← get
  let text ← lift ((← read).readAscii g.statefulFile)
  let source := Alu.Source.read (Alu.lex text)
  let alu ← lift (StatefulAlu.ofSource (g.shape.sketchName ++ "_" ++ name) g.constantBits source)
  let main ← lift alu.mainText
  addHoles alu.globalHoles
  modify fun g => { g with
    statefulHoles := some alu.sortedHoles
    operands := alu.packetFields.length
    slots := alu.stateVars.length }
  return alu.helperText ++ main

def addAllocation (a : Allocation) : Generate Unit :=
  modify fun g => { g with
    holes := g.holes ++ a.bits.map fun name => ⟨name, 1⟩
    constraints := g.constraints ++ a.constraints }

/-- Let holes allocate packet fields to containers. -/
def fieldAllocator : Generate Unit := do
  addAllocation (.ofFields (← get).shape)

/-- Let holes allocate state groups to stateful ALUs. -/
def stateAllocatorSynthesized : Generate Unit := do
  addAllocation (.ofGroups (← get).shape)

/-- Let holes activate the stateful ALUs of state groups. -/
def stateAllocatorCanonical : Generate Unit := do
  addAllocation (.canonical (← get).shape)

/-- Write the results of some jobs, each with a line feed behind it. -/
def writeAll {α : Type} (jobs : List α) (write : α → Generate String) : Generate String := do
  return String.join ((← jobs.mapM write).map (· ++ "\n"))

def operandMuxes : Generate String := do
  let g ← get
  if g.operands = 0 then throw (.check .noOperand)
  writeAll
    ((upTo g.shape.stages).flatMap fun i => g.units.flatMap fun l =>
      (List.range g.operands).map fun k => g.namingPlan.operandMux i l k)
    (mux g.shape.containers)

/-- The hole that tells whether a stateless ALU writes its container. -/
def statelessDemux (g : Generator) (stage alu : Nat) : String :=
  g.namingPlan.statelessName stage alu ++ "_demux_ctrl"

/-- The hole that tells which container a stateful ALU writes. -/
def statefulDemux (g : Generator) (stage group : Nat) : String :=
  g.namingPlan.statefulName stage group ++ "_demux_ctrl"

/-- Holes and constraints that give each container one writer in each stage. -/
def demuxes : Generate Unit := do
  let g ← get
  let s := g.shape
  (upTo s.stages).forM fun i =>
    (upTo s.containers).forM fun k => addHole (g.statelessDemux i k) 1
  (upTo s.stages).forM fun i =>
    (upTo s.groups).forM fun k => do
      addHole (g.statefulDemux i k) (← lift (bitWidth s.containers))
  (upTo s.stages).forM fun i =>
    (upTo s.containers).forM fun j =>
      addConstraint (.oneWriter (g.statelessDemux i j)
        ((upTo s.groups).map fun k => (g.statefulDemux i k, Allocation.activeBit s i k)) j)

def outputMuxes : Generate String := do
  let g ← get
  if g.shape.tofino then
    demuxes
    return ""
  else
    let count := if g.synthesized then g.shape.containers else g.shape.groups
    writeAll
      ((upTo g.shape.stages).flatMap fun i =>
        (upTo g.shape.containers).map fun k => g.namingPlan.outputMux i k)
      (mux (count * g.slots + 1))

def alus : Generate String := do
  let g ← get
  let inputs := (upTo g.shape.containers).map Mux.input
  let stages ← (upTo g.shape.stages).mapM fun i => do
    let stateless ← writeAll (upTo g.shape.alus) fun j =>
      statelessAlu ("stateless_alu_" ++ toString i ++ "_" ++ toString j) inputs
    let stateful ← writeAll g.units fun l =>
      statefulAlu ("stateful_alu_" ++ toString i ++ "_" ++ toString l)
    return stateless ++ stateful
  return String.join stages

/-- What is asked of a sketch. -/
structure Request where
  specFile : String
  mode : Mode
  synthesized : Bool
  extraConstraints : List String := []
  /-- The values of the holes, for a sketch that checks them. -/
  values : List (String × String) := []
  testcases : String := ""

/-- The value of a part that has to be there. -/
def present {α : Type} : Option α → Generate α
  | some a => pure a
  | none => throw .absentPart

def holeBlock (g : Generator) (r : Request) : String :=
  g.constants.text ++
    match r.mode with
    | .verify =>
      String.intercalate "\n" (r.values.map fun (hole, value) =>
        "int " ++ hole ++ " = " ++ value ++ ";")
    | _ => g.preamble

def program (r : Request) : Generate Program := do
  reset
  if r.mode = .solveVerify then throw (.check .modeWithoutSketch)
  let alus ← alus
  let operandMuxes ← operandMuxes
  let outputMuxes ← outputMuxes
  if (← get).synthesized then
    fieldAllocator
    stateAllocatorSynthesized
  else stateAllocatorCanonical
  let g ← get
  let statelessMuxes ← present g.statelessMuxes
  let spec ← lift ((← read).readText r.specFile)
  let statefulHoles ← present g.statefulHoles
  return {
    plan := ⟨g.shape, r.synthesized, statelessMuxes, statefulHoles, g.operands, g.slots⟩
    specFile := r.specFile
    spec := spec
    holeBlock := g.holeBlock r
    operandMuxes := operandMuxes
    outputMuxes := outputMuxes
    alus := alus
    extraConstraints := r.extraConstraints
    constraints := g.constraints
    testcases := r.testcases }

def sketch (r : Request) : Generate String := do
  return (← program r).text

end Generator

end SwitchSynth.Sketch
