import SwitchSynth.CommandLine
import SwitchSynth.Synthesis.Compiler
import SwitchSynth.Synthesis.Elimination
import SwitchSynth.Synthesis.Report
import SwitchSynth.Synthesis.Testcase

/-!
# Synthesis in rounds

Each round asks the synthesiser for values of the holes that are right for small inputs, and the solver
for a counterexample among larger inputs. Without a counterexample synthesis has succeeded. Otherwise the
next round either excludes the values or has the counterexample as a test case and its values among the
constants. Synthesis has failed when the synthesiser finds no values.
-/

namespace SwitchSynth

open Formula (Solver Counterexample)
open Sketch (HoleValue)

namespace Arguments

/-- A file name without directories and from the first point on. -/
def stem (file : String) : String :=
  (Text.split "." ((Text.split "/" file).getLastD "")).headD ""

def sketchName (a : Arguments) : String :=
  stem a.specFile ++ "_" ++ stem a.statefulFile ++ "_" ++ stem a.statelessFile ++ "_" ++
    toString a.stages ++ "_" ++ toString a.alus

def constantList (a : Arguments) : List String :=
  (Text.split "," a.constants).eraseDups

/-- The number of stateful ALUs in each stage that synthesis reports. -/
def statefulAlus (a : Arguments) (groups : Nat) : Nat :=
  match a.outputGroups, a.outputFields with
  | some chosen, _ => chosen.length
  | none, some _ => 0
  | none, none => groups

def options (a : Arguments) (groupSize : Nat) : Compiler.Options where
  specFile := a.specFile
  statefulFile := a.statefulFile
  statelessFile := a.statelessFile
  stages := a.stages
  alus := a.alus
  sketchName := a.sketchName
  parallelSketch := some a.parallelSketch
  constants := a.constantList
  groupSize := groupSize
  synthesized := a.synthesized
  outputFields := a.outputFields
  outputGroups := a.outputGroups
  inputFields := a.inputFields
  tofino := a.tofino

end Arguments

namespace Loop

/-- What does not change from round to round. -/
structure Setup where
  arguments : Arguments
  /-- The solver, as it answers in each round. -/
  solver : Nat → Solver
  inputs : Inputs
  groupSize : Nat

/-- What a round hands on to the next. -/
structure Progress where
  round : Nat := 1
  constraints : List String := []
  testcases : String := ""

def valuesText (t : Table Int) : String :=
  if t.size = 0 then "OrderedDict()"
  else
    "OrderedDict([" ++
      String.intercalate ", " (t.toList.map fun (k, v) =>
        "(" ++ Text.quoted k ++ ", " ++ toString v ++ ")") ++ "])"

def constantsText (constants : List String) : String :=
  "OrderedSet(" ++ Text.quotedList constants ++ ")"

def addConstants (constants new : List String) : List String :=
  new.foldl (fun cs c => if c ∈ cs then cs else cs ++ [c]) constants

def candidate (s : Setup) (p : Progress) : Compile Compile.Run := do
  if s.arguments.parallel then
    match ← Compile.parallel p.constraints p.testcases with
    | some run => return run
    | none => throw .wrongType
  else Compile.serial (toString p.round) p.constraints p.testcases

/-- Report success and make the switch program if there is a switch. -/
def succeed (s : Setup) (run : Compile.Run) : Compile Unit := do
  let a := s.arguments
  Compile.work (Report.success a.sketchName run.values run.output)
  if a.tofino then Compile.switchProgram run.values
  Compile.work (Report.constants (← get).constants)
  let stateful := a.statefulAlus s.inputs.groups.length
  Compile.say ("Using " ++ toString a.alus ++ " stateless ALUs per stage")
  Compile.say ("Using " ++ toString stateful ++ " stateful ALUs per stage")
  Compile.say ("Synthesis succeeded with " ++ toString a.stages ++ " stages and " ++
    toString (stateful + a.alus) ++ " ALUs per stage")

def learnConstants (found : Counterexample) : Compile Unit := do
  let values := (found.packetFields.values ++ found.states.values).map toString
  modify fun c => { c with constants := addConstants c.constants values }
  let constants := (← get).constants
  Compile.say ("updated constant array " ++ constantsText constants)
  Compile.updateConstants constants

def testcase (s : Setup) (round : Nat) (found : Counterexample) : Compile Testcase := do
  let fields ← Compile.work (fillIn 0 found.packetFields s.inputs.fieldNames)
  let states ← Compile.work (fillIn 0 found.states s.inputs.stateNames)
  let texts (t : Table Int) := t.toList.map fun (k, v) => (k, toString v)
  let names (ns : Option (List Int)) := ns.map fun l => l.map toString
  return ⟨round, texts fields, texts states,
    .ofChoice (names s.arguments.outputFields) (names s.arguments.outputGroups) s.groupSize⟩

/-- What a round leaves to do after a counterexample. -/
def learn (s : Setup) (p : Progress) (run : Compile.Run) (found : Counterexample) :
    Compile Progress := do
  if s.arguments.holeElimination then
    let new ← Compile.work (Work.ofExcept (Elimination.constraints run.values))
    return { p with round := p.round + 1, constraints := p.constraints ++ new }
  else
    Compile.say ("Use returned counterexamples " ++ valuesText found.packetFields ++ " " ++
      valuesText found.states)
    learnConstants found
    let t ← testcase s p.round found
    return { p with round := p.round + 1, testcases := p.testcases ++ t.text }

/-- One round: the exit code if synthesis ends with it, else what the next round starts from. -/
def round (s : Setup) (p : Progress) : Compile (Int ⊕ Progress) := do
  Compile.say ("Iteration #" ++ toString p.round)
  let run ← candidate s p
  if run.code ≠ 0 then
    Compile.work (Report.failure s.arguments.sketchName run.output)
    return .inl 1
  Compile.say "Synthesis succeeded with 2 bits, proceeding to verification."
  let found ← Compile.verify (s.solver p.round) run.values s.arguments.inputBits (toString p.round)
  if found.isEmpty then
    succeed s run
    return .inl 0
  Compile.say "Verification failed."
  return .inr (← learn s p run found)

/-- Rounds until synthesis ends, at most so many. -/
def rounds (s : Setup) : Nat → Progress → Compile Int
  | 0, _ => throw (.exit 1)
  | fuel + 1, p => do
    match ← round s p with
    | .inl code => return code
    | .inr next => rounds s fuel next

end Loop

/-- Synthesise what the arguments ask for: the exit code. Every round but the last takes a reply of the
synthesiser, so that there are at most as many further rounds as replies. -/
def synthesize (solver : Nat → Solver) (a : Arguments) : Work Int := do
  let spec ← Work.readText a.specFile
  let fields ← Work.ofExcept (Spec.fieldCount spec)
  let groups := (Spec.stateGroups spec).toList
  match groups with
  | [] => throw .unboundValue
  | (_, states) :: _ =>
    let compiler ← Work.ofExcept (Compiler.create (a.options states.length) (← get).files)
    let setup : Loop.Setup := ⟨a, solver, ⟨fields, groups⟩, states.length⟩
    let bound := (← get).replies.length + 1
    ExceptT.mk do
      let (result, _) ← (Loop.rounds setup bound {}).run.run compiler
      return result

/-- Run the program with the arguments of a command line, the first one being its own name. -/
def runProgram (arguments : List String) : Work Int := do
  let a ← Work.ofExcept (CommandLine.read (arguments.drop 1))
  synthesize (fun _ => Solver.bounded a.inputBits) a

end SwitchSynth
