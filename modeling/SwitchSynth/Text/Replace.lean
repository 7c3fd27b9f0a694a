/-!
# Finding and replacing in a text

A piece of text occurs in another one if it starts at one of its places. In replacing, every occurrence of a piece of text is
replaced, from left to right and without overlaps; what was put in is not looked at again.
-/

namespace SwitchSynth.Text

def occurs (piece : List Char) : List Char → Bool
  | [] => piece.isEmpty
  | c :: rest => piece.isPrefixOf (c :: rest) || occurs piece rest

/-- Replace the occurrences of `old` after a number of characters that belong to the last one. -/
def replaceFrom (old new : List Char) : Nat → List Char → List Char
  | _, [] => []
  | skip + 1, _ :: rest => replaceFrom old new skip rest
  | 0, c :: rest =>
    if old.isPrefixOf (c :: rest) then new ++ replaceFrom old new (old.length - 1) rest
    else c :: replaceFrom old new 0 rest

def replaceAll (old new s : String) : String :=
  String.ofList (replaceFrom old.toList new.toList 0 s.toList)

end SwitchSynth.Text
