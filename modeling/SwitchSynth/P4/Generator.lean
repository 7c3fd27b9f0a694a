import SwitchSynth.Digest.Md5
import SwitchSynth.P4.Program
import SwitchSynth.P4.StatefulAlu
import SwitchSynth.Sketch.DataPath
import SwitchSynth.Text.Replace
import SwitchSynth.Workspace

/-!
# Switch programs from hole values

The values that synthesis found for the holes of a sketch are turned into a switch program. Every value is
used up by the part of the program that it decides; what is left over in the end is listed.
-/

namespace SwitchSynth.P4

open Sketch (upTo)

/-- The pipeline that a switch program is made for. -/
structure Target where
  sketchName : String
  alus : Int
  stages : Int
  /-- State groups, each with one stateful ALU in each stage. -/
  groups : Int
  constants : List String
  statefulFile : String
  deriving Repr

/-- The values that decide a stateless ALU. -/
structure StatelessConfig where
  enable : Int
  opcode : Int
  result : Nat
  first : Int
  second : Int
  immediate : String
  deriving Repr

def StatelessConfig.instruction (c : StatelessConfig) : Instruction :=
  .ofOpcode (containerText c.result) (containerText c.first) (containerText c.second) c.immediate c.opcode

/-- What decides a stateful ALU: its expressions and the container of its output. -/
structure StatefulConfig where
  expressions : Table String
  output : Int

/-- Using up hole values with the files at hand. -/
abbrev Assemble := ReaderT (Target × Files) (ExceptT Error (StateM (Table Int)))

namespace Assemble

def take (hole : String) : Assemble Int := do
  match (← get).get? hole with
  | some value =>
    set ((← get).erase hole)
    return value
  | none => throw (.missingKey hole)

/-- The result of a step that uses up no hole. -/
def ofExcept {α : Type} : Except Error α → Assemble α
  | .ok a => pure a
  | .error e => throw e

/-- Do something at each place of a stage, in each stage. -/
def grid {α : Type} (width : Int) (f : Nat → Nat → Assemble α) : Assemble (List (List α)) := do
  (upTo (← read).1.stages).mapM fun stage => (upTo width).mapM (f stage)

def aluName (sketch kind : String) (stage number : Nat) : String :=
  sketch ++ "_" ++ kind ++ "_alu_" ++ toString stage ++ "_" ++ toString number

def statelessAlu (stage number : Nat) : Assemble StatelessConfig := do
  let t := (← read).1
  let own := aluName t.sketchName "stateless" stage number
  let enable ← take (own ++ "_demux_ctrl")
  let opcode ← take (own ++ "_opcode")
  let first ← take (own ++ "_operand_mux_0_ctrl")
  let second ← take (own ++ "_operand_mux_1_ctrl")
  let immediate ← ofExcept (atPlace t.constants (← take (own ++ "_immediate_operand")))
  return ⟨enable, opcode, number, first, second, immediate⟩

def statelessAlus : Assemble (List (List StatelessConfig)) := do
  grid (← read).1.alus statelessAlu

/-- The expressions of the stateful ALU that goes by a name in the sketch. -/
def statefulAlu (alu : String) : Assemble (Table String) := do
  let (t, files) ← read
  let own := t.sketchName ++ "_" ++ alu
  let text ← ofExcept (files.readAscii t.statefulFile)
  let low ← take (own ++ "_operand_mux_0_ctrl")
  let high ← take (own ++ "_operand_mux_1_ctrl")
  let (result, l) := StatefulAlu.lower ⟨own, t.constants, containerText low, containerText high⟩
    (← get) (Alu.Source.read (Alu.lex text))
  set l.holes
  ofExcept result
  return l.expressions

def statefulConfig (stage number : Nat) : Assemble StatefulConfig := do
  let expressions ←
    statefulAlu ("stateful_alu_" ++ toString stage ++ "_" ++ toString number)
  let output ← take (aluName (← read).1.sketchName "stateful" stage number ++ "_demux_ctrl")
  return ⟨expressions, output⟩

def statefulAlus : Assemble (List (List StatefulConfig)) := do
  grid (← read).1.groups statefulConfig

/-- Which stateful ALUs are active. -/
def configurations : Assemble (List (List Int)) := do
  let t := (← read).1
  grid t.groups fun stage group =>
    take (t.sketchName ++ "_salu_config_" ++ toString stage ++ "_" ++ toString group)

end Assemble

/-- All that the hole values decide. -/
structure Assembly where
  stateful : List (List StatefulConfig)
  stateless : List (List StatelessConfig)
  configurations : List (List Int)

/-- Use up all hole values. -/
def assemble : Assemble Assembly := do
  let stateful ← Assemble.statefulAlus
  let stateless ← Assemble.statelessAlus
  let configurations ← Assemble.configurations
  return ⟨stateful, stateless, configurations⟩

/-- The name of the tables: short, because the switch does not take long ones. -/
def tableName (sketchName : String) : Except Error String :=
  match Text.firstWideRun? sketchName with
  | some (c, offset, length) => .error (.wideChars c offset length)
  | none => .ok ("A" ++ ((Digest.hexText (Digest.md5 sketchName.toUTF8.toList)).take 15).toString)

namespace Assembly

def statefulPlace (c : StatefulConfig × Int) : Except Error (Option Blackbox) :=
  if c.2 = 1 then
    some <$> Blackbox.ofExpressions c.1.expressions (containerText c.1.output)
  else .ok none

def statelessPlace (c : StatelessConfig) : Option Instruction :=
  if c.enable = 1 then some c.instruction else none

/-- The program of all that the hole values decide. -/
def program (a : Assembly) (name : String) (groups : Nat) : Except Error Program := do
  let stateful ← (a.stateful.zip a.configurations).mapM fun (row, active) =>
    (row.zip active).mapM statefulPlace
  return {
    name := name
    groups := groups
    stages := (a.stateless.zip stateful).map fun (row, boxes) => ⟨row.map statelessPlace, boxes⟩ }

end Assembly

/-- A switch cannot read the state before an update twice: the register itself stands for it. -/
def withoutCopies (text : String) : String :=
  Text.replaceAll "original_hi" "register_hi" (Text.replaceAll "original_lo" "register_lo" text)

/-- The hole values that are left over, in the order of their names. -/
def leftOver (holes : Table Int) : List String :=
  (holes.toList.mergeSort fun a b => decide (a.1 ≤ b.1)).map fun (hole, value) =>
    "int " ++ hole ++ " = " ++ toString value

/-- Write the switch program and say what was left over. -/
def emit (t : Target) (a : Assembly) (left : Table Int) : Work Unit := do
  let name ← Work.ofExcept (tableName t.sketchName)
  if 0 < left.size then
    Work.say "List of holes that we haven't used to generate p4 code"
  (leftOver left).forM Work.say
  let text := (← Work.ofExcept (a.program name t.groups.toNat)).render
  let final := withoutCopies text
  if final ≠ text then
    Work.say "Need to substitute original_hi/original_lo with register_hi/register_lo"
  let file := t.sketchName ++ ".p4"
  Work.write (plainPath file) final
  Work.say ("Compilation to p4 done. Output left at " ++ file)

/-- Make the switch program of hole values: the result, the values left over and the workspace. -/
def generate (t : Target) (holes : Table Int) (w : Workspace) :
    Except Error Unit × Table Int × Workspace :=
  match (assemble.run (t, w.files)).run.run holes with
  | (.error e, left) => (.error e, left, w)
  | (.ok a, left) =>
    let (result, w) := (emit t a left).run.run w
    (result, left, w)

end SwitchSynth.P4
