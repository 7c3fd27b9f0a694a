import SwitchSynth.Text.Ascii

/-!
# Lines

A line ends at a line feed, a carriage return, or the two together; all three mean the same.
-/

namespace SwitchSynth.Text

/-- A text in which every end of line is a single line feed. -/
def unifyLines : List Char → List Char
  | [] => []
  | '\r' :: '\n' :: rest => '\n' :: unifyLines rest
  | '\r' :: rest => '\n' :: unifyLines rest
  | c :: rest => c :: unifyLines rest

/-- A text as it is read: every end of line is a single line feed. -/
def read (s : String) : String :=
  String.ofList (unifyLines (chars s))

def firstLine (s : String) : String :=
  let cs := chars s
  let line := cs.takeWhile (· != '\n')
  String.ofList (cs.take (line.length + 1))

/-- The characters that end a line: line feeds of all kinds and the separators of files, groups, records,
lines and paragraphs. -/
def isLineEnd (c : Char) : Bool :=
  [0x0a, 0x0b, 0x0c, 0x0d, 0x1c, 0x1d, 0x1e, 0x85, 0x2028, 0x2029].contains c.toNat

/-- The lines of a text after a part of the first one, which is given in reverse. A carriage return with a
line feed behind it ends one line. -/
def linesFrom : List Char → List Char → List (List Char)
  | [], current => if current.isEmpty then [] else [current.reverse]
  | '\r' :: '\n' :: rest, current => current.reverse :: linesFrom rest []
  | c :: rest, current =>
    if isLineEnd c then current.reverse :: linesFrom rest [] else linesFrom rest (c :: current)

/-- The lines of a text, without what ends them. -/
def lines (s : String) : List String :=
  (linesFrom (chars s) []).map String.ofList

end SwitchSynth.Text
