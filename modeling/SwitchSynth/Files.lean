import SwitchSynth.Error
import SwitchSynth.Table
import SwitchSynth.Text.Ascii
import SwitchSynth.Text.Lines
import SwitchSynth.Text.Split

/-!
# Files

The files of a working directory, by their path in it. A directory is there if a file is somewhere below
it. Texts are read with every end of line as a single line feed, and written as they are.
-/

namespace SwitchSynth

/-- Follow parts one after the other, without those that lead nowhere. -/
def follow (parts : List String) : List String :=
  (parts.foldl
    (fun acc part =>
      if part = "" ∨ part = "." then acc
      else if part = ".." then acc.drop 1
      else part :: acc)
    []).reverse

/-- The parts of a path, without those that lead nowhere. -/
def pathParts (path : String) : List String :=
  follow (Text.split "/" path)

/-- The parts of a path as the name of a file in the working directory. -/
def pathName (path : String) : String :=
  String.intercalate "/" (pathParts path)

/-- A path without the parts that say nothing; the empty path is the working directory itself. -/
def plainPath (path : String) : String :=
  let parts := (Text.split "/" path).filter fun part => part ≠ "" ∧ part ≠ "."
  let whole := String.intercalate "/" parts
  if Text.startsWith "/" path then "/" ++ whole
  else if parts.isEmpty then "."
  else whole

def lastPart (path : String) : String :=
  (Text.split "/" (plainPath path)).getLastD ""

abbrev Files := Table String

namespace Files

def hasDirectory (files : Files) (parts : List String) : Bool :=
  parts.isEmpty || files.keys.any fun name =>
    let own := pathParts name
    parts.isPrefixOf own && parts.length < own.length

/-- Why a path leads to no file: a part before the last is a file, or the path leads nowhere. -/
def whyAbsent (files : Files) (path : String) : Error :=
  let parts := (pathParts path).dropLast
  if (List.range parts.length).any fun n => files.contains ("/".intercalate (parts.take (n + 1)))
  then .notADirectory path
  else .noSuchFile path

/-- Why a path cannot be followed up to its last part: what comes before is a file, or is not there. -/
def obstacle? (files : Files) (path : String) : Option Error :=
  let parts := Text.split "/" path
  ((List.range parts.length).drop 1).findSome? fun n =>
    let directory := follow (parts.take n)
    if files.contains ("/".intercalate directory) then some (.notADirectory path)
    else if files.hasDirectory directory then none
    else some (.noSuchFile path)

def content (files : Files) (path : String) : Except Error String :=
  if path.isEmpty || Text.startsWith "/" path then .error (.noSuchFile path)
  else
    match files.obstacle? path with
    | some e => .error e
    | none =>
      if files.hasDirectory (pathParts path) then .error (.isADirectory path)
      else
        match files.get? (pathName path) with
        | some text => .ok text
        | none => .error (.noSuchFile path)

def readText (files : Files) (path : String) : Except Error String := do
  return Text.read (← files.content (plainPath path))

/-- Read a text that may hold only ASCII; ends of line stay as they are. -/
def readAscii (files : Files) (path : String) : Except Error String := do
  let text ← files.content path
  match Text.firstWideByte? text with
  | some (byte, offset) => .error (.wideByte byte offset)
  | none => .ok text

/-- Write a file. The directory has to be there. -/
def write (files : Files) (path text : String) : Except Error Files :=
  let parts := pathParts path
  if path.isEmpty || Text.startsWith "/" path then .error (.noSuchFile path)
  else if files.contains (pathName path) then .ok (files.insert (pathName path) text)
  else if files.hasDirectory parts then .error (.isADirectory path)
  else if files.hasDirectory parts.dropLast then .ok (files.insert (pathName path) text)
  else .error (files.whyAbsent path)

end Files

end SwitchSynth
