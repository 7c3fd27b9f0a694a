import SwitchSynth.Text.Ascii
import SwitchSynth.Text.Blank
import SwitchSynth.Text.Digit
import SwitchSynth.Text.Word

/-!
# Patterns of text

A pattern describes pieces of text. `Pattern.ends` lists the places where a match that starts at a given
place can end, in the order in which they are preferred; the first one is the match. `Pattern.findAll`
collects the matches of a text from left to right, none overlapping another.
-/

namespace SwitchSynth.Text

/-- The members of a class of characters. -/
inductive CharItem where
  | char (c : Char)
  | range (lo hi : Char)
  | digit
  | word
  | blank
  | other (item : CharItem)
  deriving DecidableEq, Repr

def CharItem.holds : CharItem → Char → Bool
  | char x, c => x == c
  | range lo hi, c => lo ≤ c && c ≤ hi
  | digit, c => isDigit c
  | word, c => isWord c
  | blank, c => isBlank c
  | other item, c => !item.holds c

/-- How a repetition chooses between more rounds and fewer. -/
inductive Preference where
  | greedy
  | lazy
  /-- As many rounds as possible, without going back. -/
  | possessive
  deriving DecidableEq, Repr

/-- A pattern. -/
inductive Pattern where
  /-- Matches the empty text. -/
  | empty
  /-- One character of a class, or one outside of it. -/
  | one (negated : Bool) (items : List CharItem)
  | seq (first second : Pattern)
  | alt (first second : Pattern)
  /-- At least so many rounds of a pattern, and at most so many. -/
  | rounds (inner : Pattern) (least : Nat) (most : Option Nat) (preference : Preference)
  /-- A pattern whose text is kept under a number. -/
  | group (number : Nat) (inner : Pattern)
  /-- Only the preferred match of a pattern. -/
  | atomic (inner : Pattern)
  /-- The text that a group has kept. -/
  | again (number : Nat)
  /-- Whether a pattern matches what follows; matches the empty text. -/
  | ahead (wanted : Bool) (inner : Pattern)
  /-- Whether a pattern matches so many characters before; matches the empty text. -/
  | behind (wanted : Bool) (width : Nat) (inner : Pattern)
  | start
  /-- The end of the text, or the place before a line feed that ends it. -/
  | finish
  /-- The very end of the text. -/
  | stop
  /-- A place between a word character and another one, or a place that is none. The empty text has
  neither. -/
  | edge (wanted : Bool)
  deriving Repr

/-- A place in a text, with the texts that groups have kept, latest first. -/
structure Cursor where
  before : List Char
  rest : List Char
  remaining : Nat
  groups : List (Nat × String) := []
  deriving Repr

namespace Cursor

def ofText (cs : List Char) : Cursor :=
  ⟨[], cs, cs.length, []⟩

def advance (c : Cursor) : Cursor :=
  match c.rest with
  | x :: rest => { c with before := x :: c.before, rest := rest, remaining := c.remaining - 1 }
  | [] => c

/-- The place so many characters earlier. -/
def goBack (c : Cursor) (n : Nat) : Cursor :=
  { c with
    before := c.before.drop n
    rest := (c.before.take n).reverse ++ c.rest
    remaining := (c.before.take n).length + c.remaining }

/-- The place behind a text that has to come next. -/
def accept (c : Cursor) : List Char → Option Cursor
  | [] => some c
  | x :: xs =>
    match c.rest with
    | y :: _ => if x = y then c.advance.accept xs else none
    | [] => none

/-- Whether the place is between a word character and another one. -/
def atEdge (c : Cursor) : Bool :=
  (c.before.head?.any isWord) != (c.rest.head?.any isWord)

def textSince (c earlier : Cursor) : String :=
  String.ofList (earlier.rest.take (earlier.remaining - c.remaining))

/-- The texts of the groups from 1 to a number; a group that took no part has the empty text. -/
def captures (c : Cursor) (count : Nat) : List String :=
  (List.range count).map fun i => (c.groups.lookup (i + 1)).getD ""

end Cursor

namespace Pattern

/-- The ends of rounds of a pattern, `step` being the ends of one round. A round that matches the empty text
is the last. -/
def roundEnds (step : Cursor → List Cursor) (lazy : Bool) :
    Nat → Nat → Option Nat → Cursor → List Cursor
  | 0, least, _, c => if least = 0 then [c] else []
  | fuel + 1, least, most, c =>
    let more :=
      if most = some 0 then []
      else (step c).flatMap fun d =>
        if d.remaining = c.remaining ∧ least = 0 then [d]
        else roundEnds step lazy fuel (least - 1) (most.map (· - 1)) d
    if 0 < least then more
    else if lazy then c :: more
    else more ++ [c]

/-- Where a match that starts at a place can end, best first. -/
def ends : Pattern → Cursor → List Cursor
  | empty, c => [c]
  | one negated items, c =>
    match c.rest with
    | x :: _ => if (items.any (·.holds x)) != negated then [c.advance] else []
    | [] => []
  | seq p q, c => (p.ends c).flatMap q.ends
  | alt p q, c => p.ends c ++ q.ends c
  | rounds p least most preference, c =>
    let all := roundEnds p.ends (preference == .lazy) (c.remaining + least + 1) least most c
    if preference = .possessive then all.take 1 else all
  | group n p, c => (p.ends c).map fun d => { d with groups := (n, d.textSince c) :: d.groups }
  | atomic p, c => (p.ends c).take 1
  | again n, c =>
    match c.groups.lookup n with
    | some text => (c.accept text.toList).toList
    | none => []
  | ahead wanted p, c =>
    match (p.ends c).head? with
    | some d => if wanted then [{ c with groups := d.groups }] else []
    | none => if wanted then [] else [c]
  | behind wanted width p, c =>
    let found := if c.before.length < width then none else (p.ends (c.goBack width)).head?
    match found with
    | some d => if wanted then [{ c with groups := d.groups }] else []
    | none => if wanted then [] else [c]
  | start, c => if c.before.isEmpty then [c] else []
  | finish, c => if c.rest.isEmpty || c.rest == ['\n'] then [c] else []
  | stop, c => if c.rest.isEmpty then [c] else []
  | edge wanted, c =>
    if (c.before.isEmpty && c.rest.isEmpty) || c.atEdge != wanted then [] else [c]

/-- The matches from a place on. Directly behind an empty match, another empty match is none. -/
def findFrom (p : Pattern) : Nat → Bool → Cursor → List Cursor
  | 0, _, _ => []
  | fuel + 1, afterEmpty, c =>
    let fits (d : Cursor) : Bool := !afterEmpty || d.remaining < c.remaining
    match (p.ends c).find? fits with
    | some d =>
      d :: p.findFrom fuel (d.remaining == c.remaining) { d with groups := [] }
    | none => if c.rest.isEmpty then [] else p.findFrom fuel false c.advance

/-- All matches in a text, by where they end. -/
def findAll (p : Pattern) (s : String) : List Cursor :=
  let cs := chars s
  p.findFrom (2 * cs.length + 2) false (Cursor.ofText cs)

def char (c : Char) : Pattern := one false [.char c]

def anyInLine : Pattern := one true [.char '\n']

def seqAll (ps : List Pattern) : Pattern :=
  ps.foldr seq empty

def text (s : String) : Pattern :=
  seqAll (s.toList.map char)

def digits : Pattern := rounds (one false [.digit]) 1 none .greedy

def wordChars : Pattern := rounds (one false [.word]) 1 none .greedy

/-- The number of characters of every match, if it is the same for all. -/
def width? : Pattern → Option Nat
  | one _ _ => some 1
  | seq p q => do return (← p.width?) + (← q.width?)
  | alt p q => do
    let m ← p.width?
    let n ← q.width?
    if m = n then some m else none
  | rounds p least most _ => do
    let n ← p.width?
    if most = some least then some (n * least) else if n = 0 then some 0 else none
  | group _ p | atomic p => p.width?
  | again _ => none
  | empty | ahead _ _ | behind _ _ _ | start | finish | stop | edge _ => some 0

end Pattern

end SwitchSynth.Text
