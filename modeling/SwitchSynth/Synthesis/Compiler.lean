import SwitchSynth.Formula.Circuit
import SwitchSynth.Formula.Solver
import SwitchSynth.P4.Generator
import SwitchSynth.Sketch.Generator
import SwitchSynth.Sketch.HoleValue
import SwitchSynth.Spec
import SwitchSynth.Synthesis.Synthesizer

/-!
# The compiler

A compiler turns a specification into values for the holes of a sketch, checks such values, and turns them
into a switch program. It asks the synthesiser for the values, either once for the whole sketch or once for
each way to place the state groups in stages.
-/

namespace SwitchSynth

open Sketch (Generator Generate HoleValue upTo)
open Formula (Solver Counterexample)

/-- What a compiler is made for. A list of packet fields or state groups may be left out. -/
structure Compiler.Options where
  specFile : String
  statefulFile : String
  statelessFile : String
  stages : Int
  alus : Int
  sketchName : String
  /-- Whether the synthesiser works in parallel; none if that is neither a yes nor a no. -/
  parallelSketch : Option Bool := some false
  constants : List String
  groupSize : Int
  synthesized : Bool := false
  outputFields : Option (List Int) := some []
  outputGroups : Option (List Int) := some []
  inputFields : Option (List Int) := some []
  tofino : Bool := false

structure Compiler where
  options : Compiler.Options
  constants : List String
  fields : Nat
  groups : Nat
  generator : Generator

namespace Compiler

def given (choice : Option (List Int)) : Option (List Int) :=
  match choice with
  | some (x :: xs) => some (x :: xs)
  | _ => none

def below (n : Nat) : List Int :=
  (List.range n).map Int.ofNat

/-- Stop unless the fields fit into the containers of a stage. -/
def checkFields (o : Options) (fields : Nat) : Except Error Unit := do
  let check (holds : Prop) [Decidable holds] (c : Check) : Except Error Unit :=
    if holds then .ok () else .error (.check c)
  match given o.inputFields with
  | none => check (fields ≤ o.alus) (.tooManyFields fields o.alus)
  | some inputs =>
    check (inputs.length ≤ o.alus) (.tooManyInputs inputs.length o.alus)
    match o.outputFields with
    | none => pure ()
    | some outputs => check (outputs.length ≤ o.alus) (.tooManyChecked outputs.length o.alus)

/-- The shape of the pipeline. If neither packet fields nor state groups are chosen, all are compared. -/
def shape (o : Options) (fields groups : Nat) : Sketch.Shape :=
  let (outputFields, outputGroups) :=
    match given o.outputFields, given o.outputGroups with
    | none, none => (below fields, below groups)
    | chosenFields, chosenGroups => (chosenFields.getD [], chosenGroups.getD [])
  { sketchName := o.sketchName
    containers := o.alus
    groups := groups
    alus := o.alus
    stages := o.stages
    fields := fields
    outputFields := outputFields
    outputGroups := outputGroups
    inputFields := (given o.inputFields).getD (below fields)
    groupSize := o.groupSize
    tofino := o.tofino }

def create (o : Options) (files : Files) : Except Error Compiler := do
  let spec ← files.readText o.specFile
  let fields ← Spec.fieldCount spec
  let groups := (Spec.stateGroups spec).size
  checkFields o fields
  let generator ← Generator.create (shape o fields groups) o.synthesized o.statefulFile
    o.statelessFile o.constants
  return ⟨o, o.constants, fields, groups, generator⟩

end Compiler

abbrev Compile := ExceptT Error (StateT Compiler (StateM Workspace))

namespace Compile

def work {α : Type} (m : Work α) : Compile α :=
  ExceptT.mk (StateT.lift m.run)

def say (line : String) : Compile Unit :=
  work (Work.say line)

def generating {α : Type} (m : Generate α) : Compile α :=
  ExceptT.mk fun c w =>
    let (result, g) := (m.run w.files).run.run c.generator
    ((result, { c with generator := g }), w)

/-- What is asked of the synthesiser in one go. -/
structure Job where
  constraints : List String
  testcases : String
  file : String

/-- What came of a job. -/
structure Run where
  code : Int
  output : String
  /-- The values of the holes; none if the job failed. -/
  values : Table HoleValue

def outputFile (file : String) : String :=
  (Text.split ".sk" file).headD "" ++ "_output.txt"

/-- Do a job: write the sketch, let the synthesiser fill its holes and read their values. -/
def job (j : Job) : Compile Run := do
  let o := (← get).options
  let sketch ← generating (Generator.sketch
    { specFile := o.specFile
      mode := .codegen
      synthesized := o.synthesized
      extraConstraints := j.constraints
      testcases := j.testcases })
  work (Work.write j.file sketch)
  say ("Total number of hole bits is " ++ toString (← get).generator.totalBits)
  say ("Sketch file is " ++ j.file)
  let (code, output) ← work (Synthesizer.synthesize j.file "2" "1" o.parallelSketch)
  work (Work.write (outputFile j.file) output)
  let values ←
    if code = 0 then
      work (Work.ofExcept (Sketch.assignment ((← get).generator.holes.map (·.name)) output))
    else pure {}
  return ⟨code, output, values⟩

/-- Fill the holes of the whole sketch. -/
def serial (iteration : String) (constraints : List String) (testcases : String) : Compile Run := do
  let name := (← get).options.sketchName
  job ⟨constraints, testcases, name ++ "_codegen_iteration_" ++ iteration ++ ".sk"⟩

/-- All lists of a length with members below a bound, the last member changing fastest. -/
def placements (bound : Int) : Nat → List (List Nat)
  | 0 => [[]]
  | n + 1 => (upTo bound).flatMap fun stage => (placements bound n).map (stage :: ·)

def placementText : List Nat → String
  | [stage] => "(" ++ toString stage ++ ",)"
  | stages => "(" ++ String.intercalate ", " (stages.map toString) ++ ")"

/-- The constraints that place each state group in its stage and in no other. -/
def placementConstraints (shape : Sketch.Shape) (placement : List Nat) : List String :=
  placement.zipIdx.flatMap fun (chosen, group) =>
    (upTo shape.stages).map fun stage =>
      Sketch.Allocation.activeBit shape stage group ++ (if stage = chosen then " == 1" else " == 0")

def placementJobs (c : Compiler) (constraints : List String) (testcases : String) :
    List (List Nat × Nat × Job) :=
  (placements c.options.stages c.groups).zipIdx.map fun (placement, i) =>
    (placement, i + 1,
      { constraints := constraints ++ placementConstraints c.generator.shape placement
        testcases := testcases
        file := c.options.sketchName ++ "_" ++ toString (i + 1) ++ "_codegen.sk" })

/-- Do a job on a copy of the compiler; an error is a result like any other. -/
def attempt (j : Job) : Compile (Except Error Run) :=
  ExceptT.mk fun c w =>
    let ((result, _), w) := (job j).run.run c w
    ((.ok result, c), w)

/-- The first success among results in the order in which they come in; without one, the last result. -/
def settle (last : Option Run) : List (Except Error Run) → Compile (Option Run)
  | [] => pure last
  | .error e :: _ => throw e
  | .ok run :: rest =>
    if run.code = 0 then do
      say "Success"
      return some run
    else do
      say "One run failed, waiting for others."
      settle (some run) rest

/-- Fill the holes for each placement of the state groups in stages. -/
def parallel (constraints : List String) (testcases : String) : Compile (Option Run) := do
  let jobs := placementJobs (← get) constraints testcases
  jobs.forM fun (placement, number, _) =>
    say ("Now in assignment #  " ++ toString number ++ "  assignment is  " ++ placementText placement)
  if jobs.isEmpty then throw .noWorkers
  settle none (← jobs.mapM fun (_, _, j) => attempt j)

/-- The formula that says that values of the holes are right for inputs of a number of bits. -/
def question (values : Table HoleValue) (inputBits : Int) (iteration : String) :
    Compile Formula.Quantified := do
  let c ← get
  work (Work.require (c.generator.holes.all fun h => values.contains h.name) .unassignedHole)
  let sketch ← generating (Generator.sketch
    { specFile := c.options.specFile
      mode := .verify
      synthesized := c.options.synthesized
      values := values.toList.map fun (hole, value) => (hole, value.shown) })
  let file := c.options.sketchName ++ "_verify_iter_" ++ iteration ++ ".sk"
  work (Work.write (plainPath file) sketch)
  let circuit ← work (Synthesizer.circuit file)
  work (Work.ofExcept (Formula.Circuit.formula circuit inputBits))

def judge (verdict : Formula.Verdict) : Compile Counterexample := do
  match verdict with
  | .sat model => return Counterexample.ofValues model
  | verdict =>
    say ("Failed to generate counterexamples, z3 returned " ++ verdict.text)
    return {}

/-- Look for a counterexample to values of the holes, for inputs of a number of bits. -/
def verify (solver : Solver) (values : Table HoleValue) (inputBits : Int) (iteration : String) :
    Compile Counterexample := do
  judge (solver (← question values inputBits iteration))

def switchProgram (values : Table HoleValue) : Compile Unit := do
  let c ← get
  let numbers ← work (Work.ofExcept (values.toList.mapM fun (hole, value) => do
    return (hole, ← value.asNumber)))
  let target : P4.Target :=
    ⟨c.options.sketchName, c.options.alus, c.options.stages, c.groups, c.constants,
     c.options.statefulFile⟩
  ExceptT.mk fun c w =>
    let (result, _, w) := P4.generate target (.ofList numbers) w
    ((result, c), w)

/-- Give the sketches new constants. -/
def updateConstants (values : List String) : Compile Unit :=
  generating (Generator.updateConstants values)

end Compile

end SwitchSynth
