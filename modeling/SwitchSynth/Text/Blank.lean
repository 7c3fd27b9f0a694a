import SwitchSynth.Text.Range

/-!
# Blank space

The characters that separate words.
-/

namespace SwitchSynth.Text

def blankRanges : Ranges :=
  [(0x9, 0xd), (0x1c, 0x20), (0x85, 0x85), (0xa0, 0xa0), (0x1680, 0x1680), (0x2000, 0x200a),
   (0x2028, 0x2029), (0x202f, 0x202f), (0x205f, 0x205f), (0x3000, 0x3000)]

def isBlank (c : Char) : Bool :=
  blankRanges.has c.toNat

/-- The longest pieces of a text without blank space, in order. -/
def wordsFrom : List Char → List Char → List (List Char)
  | [], current => if current.isEmpty then [] else [current.reverse]
  | c :: rest, current =>
    if isBlank c then
      if current.isEmpty then wordsFrom rest [] else current.reverse :: wordsFrom rest []
    else wordsFrom rest (c :: current)

/-- The pieces of a text between its blank spaces. -/
def words (s : String) : List String :=
  (wordsFrom s.toList []).map String.ofList

end SwitchSynth.Text
