import SwitchSynth.Sketch.Generator

/-!
# Workloads for the writers of sketches

Holes and constraints of pipelines whose dimensions are all the same, helpers of primitives, stateless ALUs,
and descriptions that are read once and looked at again and again. What was written is measured by its length.
-/

namespace SwitchSynth.Workload

open Sketch (Family Generate Generator Helper Primitive StatelessAlu upTo)

/-! ## Holes and constraints -/

/-- A pipeline with as many stages as state groups and ALUs in each stage. -/
def squareShape (side : Int) : Sketch.Shape :=
  { sketchName := "sqr", containers := side, groups := side, alus := side, stages := side
    fields := side, outputFields := [], outputGroups := [], inputFields := [], groupSize := 1
    tofino := false }

/-- The holes of a square pipeline, a further hole for each of its places and a further constraint for each
of its stages. -/
def allocate (side : Int) : Generate Unit := do
  Generator.stateAllocatorCanonical
  for k in List.range (side.toNat * side.toNat) do
    Generator.addHole ("extra_" ++ toString k) (k % 4 + 1)
  for i in upTo side do
    Generator.addConstraint (.given ("extra_" ++ toString i ++ " < " ++ toString side))

def generated (shape : Sketch.Shape) (synthesized : Bool) (steps : Generate Unit) :
    Except Error Generator := do
  let empty ← Generator.create shape synthesized "" "" ["0", "1", "2", "3"]
  match (steps.run {}).run.run empty with
  | (.ok (), g) => .ok g
  | (.error e, _) => .error e

/-- The generator with the holes and constraints of a square pipeline. -/
def allocation (side : Int) : Except Error Generator :=
  generated (squareShape side) false (allocate side)

/-- A pipeline with as many containers, all of them read, as it has stages and state groups. -/
def cubicShape (side : Int) : Sketch.Shape :=
  { squareShape side with inputFields := (upTo side).map Int.ofNat }

/-- The generator with the holes that place packet fields and state groups freely: one for each field and
container, and one for each state group, stage and container. -/
def freeAllocation (side : Int) : Except Error Generator :=
  generated (cubicShape side) true do
    Generator.fieldAllocator
    Generator.stateAllocatorSynthesized

/-! ## Helpers -/

/-- Each primitive once; the numeral of a multiplexer is given. -/
def eachPrimitive (numeral : Nat) : List Primitive :=
  [.mux5, .mux4, .mux3, .mux3Num (toString numeral), .mux2, .relOp, .arithOp, .opt, .constant,
   .computeAlu, .boolOp]

def sixfold : List Primitive :=
  (List.range 6).flatMap eachPrimitive

/-- The helpers of some primitives, numbered within their families. -/
def numbered (ps : List Primitive) : List Helper :=
  ps.foldl (fun helpers p => helpers ++ [⟨p, Sketch.familyCount p.family helpers⟩]) []

/-- A stateful ALU that has nothing but the helpers of six uses of each primitive. -/
def helperAlu (name : String) : Sketch.StatefulAlu where
  name := name
  constantBits := 2
  helpers := numbered sixfold
  code := ""
  packetFields := []
  stateVars := []

structure HelperTotals where
  length : Nat
  holes : Nat
  arguments : List (String × Int)

def writeHelpers (alus : Int) : HelperTotals :=
  let written := (upTo alus).map fun i => helperAlu ("v" ++ toString i)
  { length := (written.map fun a => a.helperText.length).foldl (· + ·) 0
    holes := (written.map fun a => a.globalHoles.length).foldl (· + ·) 0
    arguments := ((written.getLast?.map (·.arguments)).getD []).mergeSort
      fun a b => decide (a.1 ≤ b.1) }

/-! ## Stateless ALUs -/

/-- A stateless ALU that returns one of several results, as its opcode says. -/
structure InstructionSet where
  holes : List String
  packetFields : List String
  results : List String

namespace InstructionSet

/-- The condition of an arm. The last arm has none. -/
def condition (s : InstructionSet) (i : Nat) : String :=
  if i + 1 = s.results.length then "else"
  else (if i = 0 then "if" else "elif") ++ " (opcode == " ++ toString i ++ ")"

def text (s : InstructionSet) : String :=
  "// Max value of opcode is " ++ toString (s.results.length - 1) ++
    "\ntype : stateless\nstate variables : \x7b\x7d\nhole variables : \x7b" ++
    String.intercalate ", " s.holes ++ "\x7d\npacket fields : \x7b" ++
    String.intercalate ", " s.packetFields ++ "\x7d\n" ++
    String.join (s.results.zipIdx.map fun (r, i) => s.condition i ++ " \x7b return " ++ r ++ "; \x7d\n")

/-- An ALU with an additional hole and most of the operators. -/
def mixed : InstructionSet where
  holes := ["opcode", "immediate_operand", "extra"]
  packetFields := ["pkt_0", "pkt_1"]
  results :=
    ["pkt_0 + pkt_1 - extra", "(pkt_0 - immediate_operand) * extra",
     "pkt_0 >= pkt_1 ? pkt_0 : pkt_1 / 2", "pkt_0 <= immediate_operand && extra != 0",
     "extra == 1 || !(extra < 2)", "pkt_0 > 31 ? True : extra"]

/-- Copies, sums, differences and extrema. -/
def switchAlu : InstructionSet where
  holes := ["opcode", "immediate_operand"]
  packetFields := ["pkt_0", "pkt_1"]
  results :=
    ["pkt_0", "immediate_operand", "pkt_0 + pkt_1", "pkt_0 + immediate_operand", "pkt_1 - pkt_0",
     "pkt_0 - immediate_operand", "immediate_operand - pkt_0", "pkt_0 > pkt_1 ? pkt_0 : pkt_1",
     "pkt_0 > immediate_operand ? pkt_0 : immediate_operand", "pkt_0 > pkt_1 ? pkt_1 : pkt_0",
     "pkt_0 > immediate_operand ? immediate_operand : pkt_0"]

/-- Arithmetic, comparisons, choices and logic. -/
def generalAlu : InstructionSet where
  holes := ["opcode", "immediate_operand"]
  packetFields := ["pkt_0", "pkt_1", "pkt_2"]
  results :=
    ["immediate_operand", "pkt_0 + pkt_1", "pkt_0 + immediate_operand", "pkt_0 - pkt_1",
     "pkt_0 - immediate_operand", "immediate_operand - pkt_0", "(pkt_0 != pkt_1)",
     "(pkt_0 != immediate_operand)", "(pkt_0 == pkt_1)", "(pkt_0 == immediate_operand)",
     "(pkt_0 >= pkt_1)", "(pkt_0 >= immediate_operand)", "(pkt_0 < pkt_1)",
     "(pkt_0 < immediate_operand)", "pkt_0 != 0 ? pkt_1 : pkt_2",
     "pkt_0 != 0 ? pkt_1 : immediate_operand", "((pkt_0 != 0) || (pkt_1 != 0))",
     "((pkt_0 != 0) || (immediate_operand != 0))", "((pkt_0 != 0) && (pkt_1 != 0))",
     "((pkt_0 != 0) && (immediate_operand != 0))", "(pkt_0 == 0)"]

def turn (i : Nat) : InstructionSet :=
  match i % 3 with
  | 0 => mixed
  | 1 => switchAlu
  | _ => generalAlu

/-- The ALU under a name, with three operands. -/
def alu (s : InstructionSet) (name : String) : Except Error StatelessAlu := do
  StatelessAlu.declare name ["op0", "op1", "op2"] ⟨← StatelessAlu.opcodeBits s.text, 2⟩
    (Alu.Source.read (Alu.lex s.text))

end InstructionSet

/-- The length of a stateless ALU and its holes in alphabetical order. -/
structure WrittenAlu where
  length : Nat
  holes : List String

def writeStatelessAlus (count : Int) : Except Error (List WrittenAlu) :=
  (upTo count).mapM fun i => do
    let a ← (InstructionSet.turn i).alu ("sl_" ++ toString i)
    return ⟨(← a.mainText).length, (a.globalHoles.map Prod.fst).mergeSort fun x y => decide (x ≤ y)⟩

/-- The holes of a free allocation with side five, for each of a number of stateless ALUs. -/
def statelessHoles (count : Int) : Except Error Nat := do
  return count.toNat * (← freeAllocation 5).holes.length

/-! ## Reading descriptions -/

/-- The general ALU with only some of its results. -/
def InstructionSet.restricted (count : Nat) : InstructionSet :=
  { InstructionSet.generalAlu with results := InstructionSet.generalAlu.results.take count }

def sixDescriptions : List InstructionSet :=
  [.mixed, .switchAlu, .generalAlu, .restricted 6, .restricted 14, .restricted 16]

def rootParts (s : InstructionSet) : Nat :=
  match Alu.Description.read (Alu.lex s.text) with
  | .ok d =>
    match d.tree with
    | .node _ children => children.length
    | .leaf _ _ => 0
  | .error _ => 0

/-- The parts of six descriptions, a number of times over. -/
def visitDescriptions (rounds : Int) : List Nat :=
  (upTo rounds).flatMap fun _ => sixDescriptions.map rootParts

/-- The free allocation that goes with a number of rounds: its side grows by three from round to round. -/
def roundsAllocation (rounds : Int) : Except Error Generator :=
  freeAllocation (18 + 3 * rounds)

end SwitchSynth.Workload
