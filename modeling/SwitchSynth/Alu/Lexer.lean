import SwitchSynth.Alu.Token
import SwitchSynth.Text.Ascii

/-!
# Reading tokens

`scan` cuts a text into pieces. Each piece is the longest text that some kind matches where it starts,
under the first kind that matches that much; where no kind matches anything, a run of characters is
discarded instead. Nothing is lost: the pieces, in order, make up the text.
-/

namespace SwitchSynth.Alu

def isLetter (c : Char) : Bool :=
  ('a' ≤ c && c ≤ 'z') || ('A' ≤ c && c ≤ 'Z')

def isDigit (c : Char) : Bool :=
  '0' ≤ c && c ≤ '9'

def isIdentRest (c : Char) : Bool :=
  isLetter c || isDigit c || c == '_'

def isBlank (c : Char) : Bool :=
  c == ' ' || c == '\n' || c == '\t' || c == '\r'

def isCommentRest (c : Char) : Bool :=
  c != '\r' && c != '\n'

/-- The number of characters that two texts have in common at their start. -/
def commonLength : List Char → List Char → Nat
  | a :: as, b :: bs => if a = b then commonLength as bs + 1 else 0
  | _, _ => 0

/-- The length of `word` if the text starts with it, else zero. -/
def wordLength (word cs : List Char) : Nat :=
  if word.isPrefixOf cs then word.length else 0

namespace Kind

/-- The length of the longest start of `cs` that is a text of this kind; zero if there is none. -/
def matchLength (k : Kind) (cs : List Char) : Nat :=
  match k.spelling with
  | some s => wordLength s.toList cs
  | none =>
    match k, cs with
    | blank, cs => (cs.takeWhile isBlank).length
    | comment, '/' :: '/' :: rest => (rest.takeWhile isCommentRest).length + 2
    | ident, c :: rest => if isLetter c then (rest.takeWhile isIdentRest).length + 1 else 0
    | number, c :: rest =>
      if c = '0' then 1
      else if isDigit c then (rest.takeWhile isDigit).length + 1 else 0
    | _, _ => 0

/-- The length of the longest start of `cs` that can still grow into a text of this kind. -/
def reach (k : Kind) (cs : List Char) : Nat :=
  match k.spelling with
  | some s => commonLength s.toList cs
  | none =>
    match k with
    | comment => max (commonLength ['/', '/'] cs) (comment.matchLength cs)
    | k => k.matchLength cs

end Kind

/-- The better of two candidates: the longer one, and the first one if they are as long. -/
def longer (a b : Kind × Nat) : Kind × Nat :=
  if a.2 < b.2 then b else a

/-- The preferred kind at the start of `cs` with the length of its text; the length is zero if no kind
matches. -/
def bestMatch (cs : List Char) : Kind × Nat :=
  (Kind.all.map fun k => (k, k.matchLength cs)).foldl longer (.blank, 0)

/-- How many characters are thrown away where no kind matches: those that could still have grown into a
token and the first one with which no token can go on. -/
def discardLength (cs : List Char) : Nat :=
  (Kind.all.map fun k => k.reach cs).foldl max 0 + 1

/-- A piece of a text. A piece without a kind was discarded. -/
structure Piece where
  kind? : Option Kind
  text : List Char
  position : Position
  deriving DecidableEq, Repr

def firstPiece (cs : List Char) (p : Position) : Piece :=
  let best := bestMatch cs
  if best.2 = 0 then ⟨none, cs.take (discardLength cs), p⟩
  else ⟨some best.1, cs.take best.2, p⟩

theorem firstPiece_text_ne_nil (c : Char) (cs : List Char) (p : Position) :
    (firstPiece (c :: cs) p).text ≠ [] := by
  unfold firstPiece
  dsimp only
  split
  · simp [discardLength]
  · rename_i h
    simp only [ne_eq, List.take_eq_nil_iff, reduceCtorEq, or_false]
    exact h

def scan (cs : List Char) (p : Position) : List Piece :=
  match cs with
  | [] => []
  | c :: rest =>
    let piece := firstPiece (c :: rest) p
    piece :: scan ((c :: rest).drop piece.text.length) (p.advance piece.text)
termination_by cs.length
decreasing_by
  have h := firstPiece_text_ne_nil c rest p
  have h' : 0 < (firstPiece (c :: rest) p).text.length := List.length_pos_iff.2 h
  simp only [List.length_drop, List.length_cons]
  omega

/-- The tokens of a text with what lies beside them. -/
structure Lexed where
  /-- All tokens but comments, hidden ones included. -/
  tokens : List Token
  /-- Where a run of characters was discarded. -/
  errors : List Position
  finish : Position
  deriving Repr

/-- The token of a piece; comments and discarded pieces have none. -/
def Piece.token? (piece : Piece) : Option Token :=
  match piece.kind? with
  | none | some .comment => none
  | some k => some ⟨k, String.ofList piece.text, piece.position⟩

def lex (text : String) : Lexed :=
  let cs := Text.chars text
  let pieces := scan cs {}
  { tokens := pieces.filterMap Piece.token?
    errors := (pieces.filter fun piece => piece.kind?.isNone).map Piece.position
    finish := Position.advance {} cs }

def Lexed.visible (lexed : Lexed) : List Token :=
  lexed.tokens.filter fun t => !t.kind.isHidden

end SwitchSynth.Alu
