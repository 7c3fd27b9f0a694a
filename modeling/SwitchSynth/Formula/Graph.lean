/-!
# Graphs of terms

Terms over integers and truth values are kept in a graph: a list of nodes in which a node refers to earlier
ones by their number, so that a term which is used often is kept once. All values are found in one pass
(`Graph.values`).
-/

namespace SwitchSynth.Formula

inductive Op where
  | and | or | not | xor | implies | eq | ite | add | sub | mul | div | mod | lt | gt | le | ge
  deriving DecidableEq, Repr

def Op.text : Op → String
  | and => "and" | or => "or" | not => "not" | xor => "xor" | implies => "=>" | eq => "="
  | ite => "if" | add => "+" | sub => "-" | mul => "*" | div => "div" | mod => "mod"
  | lt => "<" | gt => ">" | le => "<=" | ge => ">="

inductive Node where
  | numeral (n : Int)
  | truth (b : Bool)
  | var (name : String)
  /-- A variable that a quantifier binds, counted from the innermost one. -/
  | bound (i : Nat)
  | app (op : Op) (arguments : List Nat)
  deriving DecidableEq, Repr, Inhabited

/-- Nodes that refer to earlier ones. -/
abbrev Graph := Array Node

inductive Value where
  | int (n : Int)
  | bool (b : Bool)
  deriving DecidableEq, Repr, Inhabited

namespace Value

/-- A value as an integer: a truth value is one or zero. -/
def toInt : Value → Int
  | int n => n
  | bool b => if b then 1 else 0

/-- A value as a truth value: an integer is true if it is positive. -/
def toBool : Value → Bool
  | int n => decide (0 < n)
  | bool b => b

end Value

/-- Values for variables: by name, and by number for those that a quantifier binds. What a division by zero
gives is not fixed by the operators, so a valuation says that too. -/
structure Valuation where
  named : String → Int
  bound : Nat → Int := fun _ => 0
  quotientByZero : Int → Int := fun _ => 0
  remainderByZero : Int → Int := fun n => n

namespace Valuation

/-- Quotients. Division is Euclidean: the remainder is never negative. -/
def quotient (v : Valuation) (a b : Int) : Int :=
  if b = 0 then v.quotientByZero a else a / b

def remainder (v : Valuation) (a b : Int) : Int :=
  if b = 0 then v.remainderByZero a else a % b

end Valuation

def Op.apply (v : Valuation) (op : Op) (args : List Value) : Value :=
  match op, args with
  | .and, args => .bool (args.all Value.toBool)
  | .or, args => .bool (args.any Value.toBool)
  | .not, [a] => .bool (!a.toBool)
  | .xor, [a, b] => .bool (a.toBool != b.toBool)
  | .implies, [a, b] => .bool (!a.toBool || b.toBool)
  | .eq, [a, b] => .bool (a == b)
  | .ite, [c, a, b] => if c.toBool then a else b
  | .add, args => .int ((args.map Value.toInt).foldl (· + ·) 0)
  | .mul, args => .int ((args.map Value.toInt).foldl (· * ·) 1)
  | .sub, [a] => .int (-a.toInt)
  | .sub, [a, b] => .int (a.toInt - b.toInt)
  | .div, [a, b] => .int (v.quotient a.toInt b.toInt)
  | .mod, [a, b] => .int (v.remainder a.toInt b.toInt)
  | .lt, [a, b] => .bool (decide (a.toInt < b.toInt))
  | .gt, [a, b] => .bool (decide (a.toInt > b.toInt))
  | .le, [a, b] => .bool (decide (a.toInt ≤ b.toInt))
  | .ge, [a, b] => .bool (decide (a.toInt ≥ b.toInt))
  | _, _ => .int 0

def Node.value (v : Valuation) (earlier : Array Value) : Node → Value
  | numeral n => .int n
  | truth b => .bool b
  | var name => .int (v.named name)
  | bound i => .int (v.bound i)
  | app op arguments => op.apply v (arguments.map fun i => earlier.getD i default)

namespace Graph

def values (g : Graph) (v : Valuation) : Array Value :=
  g.foldl (fun earlier node => earlier.push (node.value v earlier)) #[]

def valueAt (g : Graph) (v : Valuation) (i : Nat) : Value :=
  (g.values v).getD i default

end Graph

/-- The kind of a term. A plain numeral is told from other integers because it changes the order in which a
comparison is written. -/
inductive Kind where
  | bool | int | numeral
  deriving DecidableEq, Repr

/-- A term of a graph with its kind. -/
structure Term where
  node : Nat
  kind : Kind
  deriving DecidableEq, Repr

abbrev Build := StateM Graph

namespace Build

def node (n : Node) (kind : Kind) : Build Term := do
  let g ← get
  set (g.push n)
  return ⟨g.size, kind⟩

def numeral (n : Int) : Build Term :=
  node (.numeral n) .numeral

def truth (b : Bool) : Build Term :=
  node (.truth b) .bool

def var (name : String) : Build Term :=
  node (.var name) .int

def app (op : Op) (kind : Kind) (args : List Term) : Build Term :=
  node (.app op (args.map Term.node)) kind

/-- A term as an integer: a truth value becomes one or zero. -/
def asInt (t : Term) : Build Term := do
  match t.kind with
  | .bool =>
    let one ← numeral 1
    let zero ← numeral 0
    app .ite .int [t, one, zero]
  | _ => return t

/-- A term as a truth value: an integer becomes whether it is positive. -/
def asBool (t : Term) : Build Term := do
  match t.kind with
  | .bool => return t
  | _ =>
    let zero ← numeral 0
    app .gt .bool [t, zero]

/-- A comparison of integers. A numeral on the right of another integer comes first, with the comparison
turned around. -/
def compare (op turned : Op) (a b : Term) : Build Term :=
  if a.kind = .int ∧ b.kind = .numeral then app turned .bool [b, a] else app op .bool [a, b]

/-- A choice between two terms. If one of them is an integer, both become integers. -/
def choose (condition yes no : Term) : Build Term := do
  if yes.kind = .bool ∧ no.kind = .bool then app .ite .bool [condition, yes, no]
  else
    let yes ← asInt yes
    let no ← asInt no
    app .ite .int [condition, yes, no]

end Build

end SwitchSynth.Formula
