import SwitchSynth.Text.Pattern.Basic

/-!
# Reading patterns

The written form of patterns: most characters stand for themselves, `.` for any character but a line feed,
`[…]` for a class, `(…)` for a group, `|` for a choice, `*`, `+`, `?` and `{m,n}` for rounds, `^` and `$`
for the ends of the text, and a backslash begins an escape. A text that is no pattern has no reading.
-/

namespace SwitchSynth.Text.Pattern

/-- The state of reading. -/
structure Reading where
  rest : List Char
  groups : Nat := 0
  opened : List Nat := []
  names : List (String × Nat) := []

abbrev Read := StateT Reading Option

namespace Read

def peek : Read (Option Char) := do
  return (← get).rest.head?

def next : Read Char := do
  match (← get).rest with
  | c :: rest =>
    modify fun r => { r with rest := rest }
    return c
  | [] => failure

/-- Take a text if it comes next. -/
def accept (s : String) : Read Bool := do
  let r ← get
  if s.toList.isPrefixOf r.rest then
    set { r with rest := r.rest.drop s.length }
    return true
  else return false

/-- Take a text that has to come next. -/
def expect (s : String) : Read Unit := do
  if !(← accept s) then failure

def takeWhile (most : Nat) (kind : Char → Bool) : Read (List Char) := do
  let r ← get
  let taken := (r.rest.take most).takeWhile kind
  set { r with rest := r.rest.drop taken.length }
  return taken

def takeUntil (delimiter : Char) : Read String := do
  let r ← get
  let taken := r.rest.takeWhile (· != delimiter)
  set { r with rest := r.rest.drop taken.length }
  expect (String.singleton delimiter)
  return String.ofList taken

end Read

open Read

def valueOf (base : Nat) (digits : List Char) : Nat :=
  digits.foldl (fun n c =>
    base * n +
      (if c.isDigit then c.toNat - '0'.toNat
       else if c.isUpper then c.toNat - 'A'.toNat + 10
       else c.toNat - 'a'.toNat + 10)) 0

def isHexDigit (c : Char) : Bool :=
  c.isDigit || ('a' ≤ c && c ≤ 'f') || ('A' ≤ c && c ≤ 'F')

def isOctalDigit (c : Char) : Bool :=
  '0' ≤ c && c ≤ '7'

def charOf (n : Nat) : Read Char :=
  if n.isValidChar then pure (Char.ofNat n) else failure

/-- A character written with a fixed number of hexadecimal digits. -/
def hexChar (digits : Nat) : Read Char := do
  let taken ← takeWhile digits isHexDigit
  if taken.length = digits then charOf (valueOf 16 taken) else failure

def classEscape : Char → Option CharItem
  | 'd' => some .digit
  | 'D' => some (.other .digit)
  | 'w' => some .word
  | 'W' => some (.other .word)
  | 's' => some .blank
  | 'S' => some (.other .blank)
  | _ => none

def letterEscape : Char → Option Nat
  | 'a' => some 7
  | 'f' => some 12
  | 'n' => some 10
  | 'r' => some 13
  | 't' => some 9
  | 'v' => some 11
  | _ => none

/-- The character of an escape other than those for classes and places. Letters without a meaning are no
escapes. -/
def charEscape (c : Char) : Read Char := do
  match letterEscape c with
  | some n => charOf n
  | none =>
    if c = 'x' then hexChar 2
    else if c = 'u' then hexChar 4
    else if c = 'U' then hexChar 8
    else if c.isAlphanum then failure
    else return c

/-- An octal number of at most three digits, of which one has been taken. -/
def octalChar (first : Char) : Read Char := do
  let more ← takeWhile 2 isOctalDigit
  let n := valueOf 8 (first :: more)
  if 255 < n then failure else charOf n

/-- One end of a range in a class, or a class inside a class. -/
def classMember : Read CharItem := do
  let c ← next
  if c = '\\' then
    let e ← next
    match classEscape e with
    | some item => return item
    | none =>
      if e = 'b' then return .char '\x08'
      else if isOctalDigit e then return .char (← octalChar e)
      else return .char (← charEscape e)
  else return .char c

/-- The members of a class up to the bracket that closes it, which is an ordinary member in first place. -/
def classItems : Nat → Bool → Read (List CharItem)
  | 0, _ => failure
  | fuel + 1, first => do
    if !first && (← accept "]") then return []
    let lo ← classMember
    if (← peek) = some '-' && !((← get).rest.drop 1).isEmpty
        && ((← get).rest.drop 1).head? != some ']' then
      expect "-"
      let hi ← classMember
      match lo, hi with
      | .char a, .char b =>
        if b < a then failure
        return .range a b :: (← classItems fuel false)
      | _, _ => failure
    else return lo :: (← classItems fuel false)

/-- A class behind its opening bracket. -/
def readClass : Read Pattern := do
  let negated ← accept "^"
  let items ← classItems ((← get).rest.length + 1) true
  return one negated items

def reference (n : Nat) : Read Pattern := do
  let r ← get
  if n = 0 ∨ r.groups < n ∨ n ∈ r.opened then failure
  return again n

def readEscape : Read Pattern := do
  let c ← next
  match classEscape c with
  | some item => return one false [item]
  | none =>
    if c = 'A' then return start
    else if c = 'Z' then return stop
    else if c = 'b' then return edge true
    else if c = 'B' then return edge false
    else if c = '0' then return char (← octalChar c)
    else if c.isDigit then
      let two := (← get).rest.take 2
      if isOctalDigit c && two.length = 2 && two.all isOctalDigit then return char (← octalChar c)
      else
        let more ← takeWhile 1 Char.isDigit
        reference (valueOf 10 (c :: more))
    else return char (← charEscape c)

/-- Whether rounds of a pattern can be asked for: places have none, and rounds have none of their own. -/
def repeatable : Pattern → Bool
  | start | finish | stop | edge _ | rounds _ _ _ _ => false
  | _ => true

/-- The bounds of rounds in braces, if that is what is in the braces. -/
def readBounds : Read (Option (Nat × Option Nat)) := do
  let before ← get
  expect "\x7b"
  if (← peek) = some '\x7d' then
    set before
    return none
  let lo ← takeWhile before.rest.length Char.isDigit
  let hi ← if ← accept "," then takeWhile before.rest.length Char.isDigit else pure lo
  if !(← accept "\x7d") then
    set before
    return none
  let least := valueOf 10 lo
  if hi.isEmpty then return some (least, none)
  let most := valueOf 10 hi
  if most < least then failure
  return some (least, some most)

/-- The bounds of rounds, if they come next. -/
def roundBounds : Read (Option (Nat × Option Nat)) := do
  match ← peek with
  | some '*' => expect "*"; return some (0, none)
  | some '+' => expect "+"; return some (1, none)
  | some '?' => expect "?"; return some (0, some 1)
  | some '\x7b' => readBounds
  | _ => return none

def withRounds (p : Pattern) : Read Pattern := do
  match ← roundBounds with
  | none => return p
  | some (least, most) =>
    if !repeatable p then failure
    let preference ←
      if ← accept "?" then pure Preference.lazy
      else if ← accept "+" then pure Preference.possessive
      else pure Preference.greedy
    if (← roundBounds).isSome then failure
    return rounds p least most preference

def isGroupName (name : String) : Bool :=
  match name.toList with
  | c :: rest => isWord c && !isDigit c && rest.all isWord
  | [] => false

def openGroup (name : Option String) : Read Nat := do
  let n := (← get).groups + 1
  match name with
  | some s =>
    if !isGroupName s || ((← get).names.lookup s).isSome then failure
    modify fun r => { r with names := (s, n) :: r.names }
  | none => pure ()
  modify fun r => { r with groups := n, opened := n :: r.opened }
  return n

def closing (p : Pattern) : Read Pattern := do
  expect ")"
  return p

mutual
/-- Read the alternatives up to a closing parenthesis or the end. -/
def readChoice : Nat → Read Pattern
  | 0 => failure
  | fuel + 1 => do
    let p ← readSeq fuel
    if ← accept "|" then return alt p (← readChoice fuel) else return p
def readSeq : Nat → Read Pattern
  | 0 => failure
  | fuel + 1 => do
    match ← peek with
    | none | some '|' | some ')' => return empty
    | some _ =>
      let p ← readItem fuel
      return seq p (← readSeq fuel)
def readItem : Nat → Read Pattern
  | 0 => failure
  | fuel + 1 => do
    if (← roundBounds).isSome then failure
    let c ← next
    let p ←
      if c = '(' then readGroup fuel
      else if c = '[' then readClass
      else if c = '\\' then readEscape
      else if c = '.' then pure anyInLine
      else if c = '^' then pure start
      else if c = '$' then pure finish
      else pure (char c)
    withRounds p
/-- Read a group behind its opening parenthesis. -/
def readGroup : Nat → Read Pattern
  | 0 => failure
  | fuel + 1 => do
    if ← accept "?" then
      let c ← next
      match c with
      | ':' => closing (← readChoice fuel)
      | '>' => closing (atomic (← readChoice fuel))
      | '=' => closing (ahead true (← readChoice fuel))
      | '!' => closing (ahead false (← readChoice fuel))
      | '#' =>
        let _ ← takeUntil ')'
        return empty
      | '<' =>
        let wanted ← if ← accept "=" then pure true else do expect "!"; pure false
        let p ← readChoice fuel
        match p.width? with
        | some w => closing (behind wanted w p)
        | none => failure
      | 'P' =>
        if ← accept "<" then
          let name ← takeUntil '>'
          readNumbered fuel (some name)
        else
          expect "="
          let name ← takeUntil ')'
          match (← get).names.lookup name with
          | some n => reference n
          | none => failure
      | _ => failure
    else readNumbered fuel none
/-- Read a numbered group behind its opening. -/
def readNumbered : Nat → Option String → Read Pattern
  | 0, _ => failure
  | fuel + 1, name => do
    let n ← openGroup name
    let p ← readChoice fuel
    let whole ← closing (group n p)
    modify fun r => { r with opened := r.opened.erase n }
    return whole
end

def read? (s : String) : Option (Pattern × Nat) := do
  let (p, r) ← (readChoice (4 * s.length + 4)).run { rest := s.toList }
  if r.rest.isEmpty then some (p, r.groups) else none

end SwitchSynth.Text.Pattern
