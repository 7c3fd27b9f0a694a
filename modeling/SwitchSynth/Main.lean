import SwitchSynth.Synthesis.Loop

/-!
# The command line

The program starts no other program by itself. It prints each command on the standard error channel and
reads what became of it from the standard input: a line with the exit code, a line with the number of lines
of output, and these lines. Files that a command names are on the disk before it is given, and are read
again afterwards.

The run itself is a function of the files and the replies. After each reply it starts over with one reply
more, until all its commands have one.
-/

namespace SwitchSynth

def fileOnDisk? (path : String) : IO (Option String) := do
  try
    return some (← IO.FS.readFile path)
  catch _ => return none

def filesOnDisk (paths : List String) : IO (List (String × String)) := do
  let mut found := []
  for path in paths do
    if let some text ← fileOnDisk? path then
      found := found ++ [(pathName path, text)]
  return found

def namedFiles (arguments : List String) : List String :=
  match CommandLine.read arguments with
  | .ok a => [a.specFile, a.statefulFile, a.statelessFile]
  | .error _ => []

/-- Read a reply to a command that names some files. -/
def readReply (paths : List String) : IO Reply := do
  let stdin ← IO.getStdin
  let code := (Text.readInt (← stdin.getLine)).toOption.getD 1
  let count := (Text.readInt (← stdin.getLine)).toOption.getD 0
  let mut output := ""
  for _ in List.range count.toNat do
    output := output ++ (← stdin.getLine)
  return ⟨code, output, ← filesOnDisk paths⟩

def exitCode : Except Error Int → Int
  | .ok code => code
  | .error (.exit code) => code
  | .error _ => 1

/-- Run with some replies, and with more of them as long as a command has none. -/
partial def runWithReplies (arguments : List String) (files : Files) (replies : List Reply) :
    IO UInt32 := do
  let (result, w) := (runProgram ("" :: arguments)).run.run { files := files, replies := replies }
  match w.commands[replies.length]? with
  | some command =>
    let words := Text.split " " command
    for (path, text) in w.files.toList do
      if path ∈ words.map pathName then IO.FS.writeFile path text
    IO.eprintln command
    let reply ← readReply words
    runWithReplies arguments files (replies ++ [reply])
  | none =>
    for (path, text) in w.files.toList do
      if files.get? path ≠ some text then IO.FS.writeFile path text
    IO.print w.printed
    match result with
    | .ok _ | .error (.exit _) => pure ()
    | .error e => IO.eprintln (e.message.getD "")
    return UInt32.ofNat (exitCode result).toNat

end SwitchSynth

/-- Compile a specification to a pipeline. -/
def main (arguments : List String) : IO UInt32 := do
  let files ← SwitchSynth.filesOnDisk (SwitchSynth.namedFiles arguments)
  SwitchSynth.runWithReplies arguments (SwitchSynth.Table.ofList files) []
