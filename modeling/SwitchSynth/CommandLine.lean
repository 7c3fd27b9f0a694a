import SwitchSynth.Error
import SwitchSynth.Text.Numeral

/-!
# Command lines

The arguments of the program: seven that go by their place, and options that begin with a hyphen. A long
option may be shortened as long as no other begins the same way, and takes a value behind an equals sign or
in the arguments that follow it. A negative number is no option, and neither is anything behind `--`.

Every mistake ends the program with code 2, asking for help ends it with code 0, and whichever comes first
from the left decides; an option that cannot be told apart from another is noticed before all else.
-/

namespace SwitchSynth

/-- What the program is asked to do. -/
structure Arguments where
  specFile : String
  statefulFile : String
  statelessFile : String
  stages : Int
  alus : Int
  /-- The constants, with commas between them. -/
  constants : String
  inputBits : Int
  outputFields : Option (List Int) := none
  outputGroups : Option (List Int) := none
  inputFields : Option (List Int) := none
  /-- Whether each placement of the state groups is tried by itself. -/
  parallel : Bool := false
  /-- Whether the synthesiser works in parallel. -/
  parallelSketch : Bool := false
  /-- Whether assignments that failed are excluded, instead of testing counterexamples. -/
  holeElimination : Bool := false
  synthesized : Bool := false
  tofino : Bool := false
  deriving Repr

namespace CommandLine

inductive Flag where
  | help
  | outputFields
  | outputGroups
  | inputFields
  | parallel
  | parallelSketch
  | holeElimination
  | synthesized
  | tofino
  deriving DecidableEq, Repr

def spellings : List (String × Flag) :=
  [("-h", .help), ("--help", .help), ("--pkt-fields", .outputFields),
   ("--state-groups", .outputGroups), ("--input-packet", .inputFields), ("-p", .parallel),
   ("--parallel", .parallel), ("--parallel-sketch", .parallelSketch),
   ("--hole-elimination", .holeElimination), ("--synthesized-allocation", .synthesized),
   ("--target-tofino", .tofino)]

def Flag.takesValues : Flag → Bool
  | outputFields | outputGroups | inputFields => true
  | _ => false

/-- An argument as it is understood. -/
inductive Item where
  | plain (text : String)
  /-- The mark behind which no argument is an option. -/
  | divider
  /-- An option, whether letters are joined to it, and the value or the letters. -/
  | option (flag : Flag) (joined : Bool) (value : Option String)
  | stray
  deriving DecidableEq, Repr

def mistake {α : Type} : Except Error α := .error (.exit 2)

/-- A text up to an equals sign and what is behind it. -/
def splitValue (text : List Char) : List Char × Option String :=
  match text.dropWhile (· != '=') with
  | [] => (text, none)
  | _ :: value => (text.takeWhile (· != '='), some (String.ofList value))

def candidates (text : List Char) : List (Flag × Bool × Option String) :=
  match text with
  | '-' :: '-' :: _ =>
    let (start, value) := splitValue text
    (spellings.filter fun s => start.isPrefixOf s.1.toList).map fun s => (s.2, false, value)
  | '-' :: c :: value =>
    spellings.filterMap fun s =>
      if s.1.toList = ['-', c] then some (s.2, true, some (String.ofList value))
      else if text.isPrefixOf s.1.toList then some (s.2, false, none)
      else none
  | _ => []

def isNegativeNumber (text : List Char) : Bool :=
  match text with
  | '-' :: rest =>
    let rest := if rest.getLast? = some '\n' then rest.dropLast else rest
    let fraction := rest.dropWhile Text.isDigit
    match fraction with
    | [] => !rest.isEmpty
    | '.' :: digits => !digits.isEmpty && digits.all Text.isDigit
    | _ => false
  | _ => false

def classify (argument : String) : Except Error Item :=
  let text := argument.toList
  match text with
  | '-' :: _ :: _ =>
    let (start, value) := splitValue text
    let exact := fun (cs : List Char) => spellings.find? fun s => s.1.toList = cs
    match exact text, exact start, value with
    | some s, _, _ => .ok (.option s.2 false none)
    | none, some s, some value => .ok (.option s.2 false (some value))
    | none, _, _ =>
      match candidates text with
      | [(flag, joined, value)] => .ok (.option flag joined value)
      | _ :: _ :: _ => mistake
      | [] =>
        if isNegativeNumber text || text.contains ' ' then .ok (.plain argument) else .ok .stray
  | _ => .ok (.plain argument)

def classifyAll : List String → Except Error (List Item)
  | [] => .ok []
  | "--" :: rest => .ok (.divider :: rest.map .plain)
  | argument :: rest => do return (← classify argument) :: (← classifyAll rest)

/-- What has been understood so far. -/
structure Parsed where
  /-- The arguments that go by their place. -/
  places : List String := []
  /-- The values of options that take some. -/
  values : List (Flag × List Int) := []
  /-- The options that take none. -/
  switches : List Flag := []
  /-- Whether there is an argument that has no place. -/
  excess : Bool := false

def placeCount : Nat := 7

def readNumber (text : String) : Except Error Int :=
  match Text.readInt text with
  | .ok n => .ok n
  | .error _ => mistake

def numberPlaces : List Nat := [3, 4, 6]

def addPlace (p : Parsed) (text : String) : Except Error Parsed := do
  if p.places.length ∈ numberPlaces then
    let _ ← readNumber text
  return { p with places := p.places ++ [text] }

/-- Put arguments in the next places as long as there are places, and return the items that are left. A
divider goes along with an argument next to it. -/
def fillPlaces (p : Parsed) : List Item → Except Error (Parsed × List Item)
  | .plain text :: rest =>
    if p.places.length < placeCount then do
      let p ← addPlace p text
      match rest with
      | .divider :: rest => fillPlaces p rest
      | rest => fillPlaces p rest
    else .ok (p, .plain text :: rest)
  | .divider :: .plain text :: rest =>
    if p.places.length < placeCount then do fillPlaces (← addPlace p text) rest
    else .ok (p, .divider :: .plain text :: rest)
  | items => .ok (p, items)

def addSwitch (p : Parsed) : Flag → Except Error Parsed
  | .help => .error (.exit 0)
  | flag => .ok { p with switches := p.switches ++ [flag] }

def addValues (p : Parsed) (flag : Flag) (texts : List String) : Except Error Parsed := do
  return { p with values := p.values ++ [(flag, ← texts.mapM readNumber)] }

/-- The options in the rest of an argument with several short ones, up to a letter that is none, and whether
there is such a letter. None of them takes a value. -/
def shortTail : List Char → Except Error (List Flag × Bool)
  | [] => .ok ([], false)
  | '-' :: _ => mistake
  | c :: rest =>
    match spellings.find? fun s => s.1.toList = ['-', c] with
    | none => .ok ([], true)
    | some s =>
      if rest.head? = some '=' then mistake
      else do
        let (flags, excess) ← shortTail rest
        return (s.2 :: flags, excess)

def leadingPlain : List Item → List String
  | .plain text :: rest => text :: leadingPlain rest
  | _ => []

/-- Take an option and the values that follow it, and return the items that are left. -/
def takeOption (p : Parsed) (flag : Flag) (joined : Bool) (value : Option String)
    (rest : List Item) : Except Error (Parsed × List Item) := do
  match flag.takesValues, value with
  | true, some text => return (← addValues p flag [text], rest)
  | true, none =>
    match leadingPlain rest with
    | [] => mistake
    | texts => return (← addValues p flag texts, rest.drop texts.length)
  | false, none => return (← addSwitch p flag, rest)
  | false, some text =>
    if joined && !text.isEmpty then
      let (flags, excess) ← shortTail text.toList
      let p ← (flag :: flags).foldlM addSwitch p
      return ({ p with excess := p.excess || excess }, rest)
    else mistake

/-- Go through the items, at most so many. -/
def process (p : Parsed) : Nat → List Item → Except Error Parsed
  | 0, _ | _, [] => .ok p
  | fuel + 1, .option flag joined value :: rest => do
    let (p, rest) ← takeOption p flag joined value rest
    process p fuel rest
  | fuel + 1, .stray :: rest => process { p with excess := true } fuel rest
  | fuel + 1, items => do
    let (filled, rest) ← fillPlaces p items
    if filled.places.length = p.places.length then
      process { p with excess := true } fuel (rest.drop 1)
    else process filled fuel rest

/-- The values of an option; the last ones count. -/
def Parsed.valuesOf (p : Parsed) (flag : Flag) : Option (List Int) :=
  p.values.reverse.lookup flag

/-- The arguments that have been understood, if none is missing and none has no place. -/
def Parsed.arguments (p : Parsed) : Except Error Arguments := do
  if p.excess then mistake
  match p.places with
  | [spec, stateful, stateless, stages, alus, constants, inputBits] =>
    return {
      specFile := spec
      statefulFile := stateful
      statelessFile := stateless
      stages := ← readNumber stages
      alus := ← readNumber alus
      constants := constants
      inputBits := ← readNumber inputBits
      outputFields := p.valuesOf .outputFields
      outputGroups := p.valuesOf .outputGroups
      inputFields := p.valuesOf .inputFields
      parallel := .parallel ∈ p.switches
      parallelSketch := .parallelSketch ∈ p.switches
      holeElimination := .holeElimination ∈ p.switches
      synthesized := .synthesized ∈ p.switches
      tofino := .tofino ∈ p.switches }
  | _ => mistake

/-- Read a command line without the name of the program. -/
def read (arguments : List String) : Except Error Arguments := do
  let items ← classifyAll arguments
  (← process {} (items.length + 1) items).arguments

end CommandLine

end SwitchSynth
