import SwitchSynth.Text.Replace
import SwitchSynth.Workspace

/-!
# The synthesiser

The synthesiser is another program, to which commands are given. Before anything else is asked of it, it has
to accept the syntax of the sketch.
-/

namespace SwitchSynth.Synthesizer

/-- Whether the synthesiser says that it could not read a sketch. -/
def reportsParseError (output : String) : Bool :=
  Text.occurs "Program Parse Error:".toList output.toList

def checkSyntax (file : String) : Work Unit := do
  let reply ← Work.command ("sketch " ++ file ++ " --slv-timeout=0.001")
  if reply.code = 0 then
    Work.say (file ++ " passed syntax check. ")
    Work.require (!reportsParseError reply.output) .unreadableSketch
  else if reportsParseError reply.output then
    throw (.rejectedSketch file reply.output)

/-- Let the synthesiser fill the holes of a sketch: its exit code and its output. Whether it works in parallel
has to be a clear yes or no. -/
def synthesize (file inputBits seed : String) (parallel : Option Bool) : Work (Int × String) := do
  match parallel with
  | none => throw (.check .notASwitch)
  | some parallel =>
    checkSyntax file
    let reply ← Work.command
      ("time sketch -V 12 --slv-nativeints " ++ file ++ " --bnd-inbits=" ++ inputBits ++
        " --slv-seed=" ++ seed ++ if parallel then " --slv-parallel" else "")
    Work.require (!reportsParseError reply.output) .unreadableSketch
    return (reply.code, reply.output)

def writeFormula (file formulaFile bits : String) : Work Unit := do
  checkSyntax file
  let _ ← Work.command
    ("sketch " ++ file ++ " --bnd-inbits=" ++ bits ++ " --slv-timeout=0.1 --beopt:writeSMT " ++
      formulaFile)

def circuitFile (file : String) : String :=
  let cs := file.toList.reverse
  match cs with
  | 'k' :: 's' :: rest => String.ofList (rest.reverse ++ "dag".toList)
  | '\n' :: 'k' :: 's' :: rest => String.ofList (rest.reverse ++ "dag\n".toList)
  | _ => file

/-- Let the synthesiser write the circuit of a sketch, and read it. -/
def circuit (file : String) : Work String := do
  checkSyntax file
  let dag := circuitFile file
  let _ ← Work.command
    ("sketch -V 3 " ++ file ++ " --debug-output-dag " ++ dag ++ " --slv-seed 1 --slv-timeout 0.1")
  Work.readText dag

end SwitchSynth.Synthesizer
