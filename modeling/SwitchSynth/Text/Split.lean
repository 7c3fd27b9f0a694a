/-!
# Splitting a text

A separator that is not empty splits a text into the pieces between its occurrences, which are found from left
to right and without overlaps.
-/

namespace SwitchSynth.Text

/-- The pieces of a text after a part of the first one, which is given in reverse, and after a number of
characters that belong to the last separator. -/
def splitFrom (separator : List Char) : Nat → List Char → List Char → List (List Char)
  | _, current, [] => [current.reverse]
  | skip + 1, current, _ :: rest => splitFrom separator skip current rest
  | 0, current, c :: rest =>
    if separator.isPrefixOf (c :: rest) then
      current.reverse :: splitFrom separator (separator.length - 1) [] rest
    else splitFrom separator 0 (c :: current) rest

/-- The pieces of a text between the occurrences of a separator that is not empty. -/
def split (separator s : String) : List String :=
  (splitFrom separator.toList 0 [] s.toList).map String.ofList

def startsWith (start s : String) : Bool :=
  start.toList.isPrefixOf s.toList

end SwitchSynth.Text
