import SwitchSynth.Files

/-!
# Workspaces

A workspace is where a run leaves its traces: the files of the working directory, the text that was
printed, and the commands that were given to other programs together with the replies that are still to
come. Work in it may stop at an error and leaves what was done until then.
-/

namespace SwitchSynth

/-- What another program does with a command: its exit code, what it prints and the files it writes. -/
structure Reply where
  code : Int := 1
  output : String := ""
  files : List (String × String) := []
  deriving Repr

/-- The surroundings of a run. -/
structure Workspace where
  files : Files := {}
  printed : String := ""
  commands : List String := []
  replies : List Reply := []

abbrev Work := ExceptT Error (StateM Workspace)

namespace Work

def say (line : String) : Work Unit :=
  modify fun w => { w with printed := w.printed ++ line ++ "\n" }

/-- The result of a step that needs no workspace. -/
def ofExcept {α : Type} : Except Error α → Work α
  | .ok a => pure a
  | .error e => throw e

def require (holds : Bool) (c : Check) : Work Unit :=
  if holds then pure () else throw (.check c)

def readText (path : String) : Work String := do
  ofExcept ((← get).files.readText path)

def write (path text : String) : Work Unit := do
  let files ← ofExcept ((← get).files.write path text)
  modify fun w => { w with files := files }

/-- Give a command and take the next reply to it. Without a reply the command fails silently. -/
def command (line : String) : Work Reply := do
  let reply := (← get).replies.headD {}
  modify fun w =>
    { w with
      commands := w.commands ++ [line]
      replies := w.replies.tail
      files := reply.files.foldl (fun files f => files.insert (pathName f.1) f.2) w.files }
  return reply

end Work

end SwitchSynth
