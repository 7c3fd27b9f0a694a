import SwitchSynth.Formula.Quantified
import SwitchSynth.Table
import SwitchSynth.Text.Blank
import SwitchSynth.Text.Lines
import SwitchSynth.Text.Numeral

/-!
# Circuits as formulas

The synthesiser writes a sketch with values for its holes as a circuit: one node a line, with the number of
the node, an operation and the numbers of its operands. The formula of a circuit says that all its
assertions hold for all values of its sources within a number of bits.

Truth values and integers are mixed freely: where an operation needs the other kind, a truth value becomes
one or zero, and an integer becomes whether it is positive.
-/

namespace SwitchSynth.Formula

/-- What has been read of a circuit. -/
structure Circuit where
  graph : Graph := #[]
  terms : Table Term := {}
  asserted : List String := []
  sources : List String := []

abbrev ReadCircuit := StateT Circuit (Except Error)

namespace Circuit

def build (b : Build Term) : ReadCircuit Term := do
  let c ← get
  let (t, graph) := b.run c.graph
  set { c with graph := graph }
  return t

def word (words : List String) (i : Nat) : ReadCircuit String :=
  match words[i]? with
  | some w => pure w
  | none => throw .outOfRange

def nodeName (number : String) : String :=
  "_n" ++ number

def lookUp (name : String) : ReadCircuit Term := do
  match (← get).terms.get? name with
  | some t => return t
  | none => throw (.missingKey name)

/-- The operand whose number stands at a place of a line. -/
def operand (words : List String) (i : Nat) : ReadCircuit Term := do
  lookUp (nodeName (← word words i))

def define (name : String) (t : Term) : ReadCircuit Unit :=
  modify fun c => { c with terms := c.terms.insert name t }

inductive Binary where
  | and | or | xor | plus | times | div | mod | lt | eq
  deriving DecidableEq, Repr

def Binary.ofWord? : String → Option Binary
  | "AND" => some and | "OR" => some or | "XOR" => some xor | "PLUS" => some plus
  | "TIMES" => some times | "DIV" => some div | "MOD" => some mod | "LT" => some lt
  | "EQ" => some eq
  | _ => none

/-- The term of an operation on two operands. -/
def Binary.term (op : Binary) (a b : Term) : Build Term := do
  match op with
  | and | or | xor =>
    let a ← Build.asBool a
    let b ← Build.asBool b
    Build.app (match op with | and => .and | or => .or | _ => .xor) .bool [a, b]
  | plus | times | div | mod =>
    let a ← Build.asInt a
    let b ← Build.asInt b
    Build.app (match op with | plus => .add | times => .mul | div => .div | _ => .mod) .int [a, b]
  | lt =>
    let a ← Build.asInt a
    let b ← Build.asInt b
    Build.compare .lt .gt a b
  | eq =>
    let a ← Build.asInt a
    let b ← Build.asInt b
    Build.compare .eq .eq a b

def bit (w : String) : ReadCircuit Bool :=
  if w = "0" then pure false
  else if w = "1" then pure true
  else throw (.check .notABit)

def integer (w : String) : ReadCircuit Int :=
  match Text.readInt w with
  | .ok n => pure n
  | .error e => throw e

def selected (selector : Term) (literal : ReadCircuit String) : ReadCircuit Term := do
  match selector.kind with
  | .bool =>
    let b ← bit (← literal)
    build do
      let t ← Build.truth b
      Build.app .eq .bool [selector, t]
  | .int =>
    let n ← integer (← literal)
    build do
      let t ← Build.numeral n
      Build.app .eq .bool [selector, t]
  | .numeral => throw (.check .selectorType)

def constant (words : List String) : ReadCircuit Term := do
  match ← word words 3 with
  | "INT" =>
    let n ← integer (← word words 4)
    build (Build.numeral n)
  | "BOOL" =>
    let b ← bit (← word words 4)
    build (Build.truth b)
  | type => throw (.check (.constantType type))

def source (line : String) (words : List String) : ReadCircuit Term := do
  let type ← word words 3
  let name ← word words 4
  if type ≠ "INT" then throw (.check (.sourceType line))
  let t ← build (Build.var name)
  define name t
  modify fun c => { c with sources := c.sources ++ [name] }
  return t

def readNode (line : String) (words : List String) : ReadCircuit Unit := do
  let name := nodeName (← word words 0)
  match ← word words 2 with
  | "ASSERT" =>
    let asserted := nodeName (← word words 3)
    modify fun c => { c with asserted := c.asserted ++ [asserted] }
  | "S" => define name (← source line words)
  | "CONST" => define name (← constant words)
  | "NEG" =>
    let a ← operand words 4
    define name (← build do Build.app .sub .int [← Build.asInt a])
  | "NOT" =>
    let a ← operand words 4
    define name (← build do Build.app .not .bool [← Build.asBool a])
  | "ARRACC" =>
    let selector ← operand words 4
    let yes ← operand words 7
    let no ← operand words 6
    define name (← build do Build.choose (← Build.asBool selector) yes no)
  | "ARRASS" =>
    let selector ← operand words 4
    let condition ← selected selector (word words 6)
    let yes ← operand words 8
    let no ← operand words 7
    define name (← build (Build.choose condition yes no))
  | operation =>
    match Binary.ofWord? operation with
    | none => throw (.check (.unknownOperation line))
    | some op =>
      let a ← operand words 4
      let b ← operand words 5
      define name (← build (op.term a b))

/-- Read a line; the lines of the header say nothing. -/
def readLine (line : String) : ReadCircuit Unit := do
  let words := Text.words line
  let start ← word words 0
  if start = "dag" ∨ start = "TUPLE_DEF" then return
  readNode line words

def conjunction (t : Term) : List String → ReadCircuit Term
  | [] => pure t
  | name :: rest => do
    let a ← lookUp name
    if a.kind ≠ .bool then throw .illFormed
    conjunction (← build (Build.app .and .bool [t, a])) rest

def ranges (bits : Int) (t : Term) : List String → ReadCircuit Term
  | [] => pure t
  | name :: rest => do
    let x ← lookUp name
    let t ← build do
      let zero ← Build.numeral 0
      let low ← Build.app .ge .bool [x, zero]
      let limit ← Build.numeral (Int.pow 2 bits.toNat)
      let high ← Build.app .lt .bool [x, limit]
      Build.app .and .bool [t, ← Build.app .and .bool [low, high]]
    ranges bits t rest

def variableName (name : String) : ReadCircuit String := do
  let t ← lookUp name
  match (← get).graph[t.node]? with
  | some (.var x) => return x
  | _ => throw .illFormed

def quantified (bits : Int) : ReadCircuit Quantified := do
  let asserted ← conjunction (← build (Build.truth true)) (← get).asserted
  let sources := (← get).sources
  let range ← ranges bits (← build (Build.truth true)) sources
  let names ← sources.mapM variableName
  if names.isEmpty then throw .illFormed
  let body ← build (Build.app .implies .bool [range, asserted])
  return Quantified.closing true names (← get).graph body.node

def formula (text : String) (bits : Int) : Except Error Quantified := do
  let read : ReadCircuit Quantified := do
    (Text.lines text).forM readLine
    quantified bits
  return (← read.run {}).1

end Circuit

end SwitchSynth.Formula
