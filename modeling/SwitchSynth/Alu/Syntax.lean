import SwitchSynth.Alu.Token

/-!
# Syntax of the ALU description language

An ALU description declares what kind of ALU it is, its state variables, holes and packet fields, and a
body of statements. Expressions hold the primitives that a synthesiser may configure: multiplexers,
optional operands, constants and the four configurable operators.
-/

namespace SwitchSynth.Alu

inductive BinaryOp where
  | add | sub | mul | div | eq | gt | ge | lt | le | ne | and | or
  deriving DecidableEq, Repr, Inhabited

namespace BinaryOp

def kind : BinaryOp → Kind
  | add => .plus | sub => .minus | mul => .star | div => .slash
  | eq => .equal | gt => .greater | ge => .greaterEqual | lt => .less | le => .lessEqual
  | ne => .notEqual | and => .and | or => .or

def ofKind? : Kind → Option BinaryOp
  | .plus => some add | .minus => some sub | .star => some mul | .slash => some div
  | .equal => some eq | .greater => some gt | .greaterEqual => some ge | .less => some lt
  | .lessEqual => some le | .notEqual => some ne | .and => some and | .or => some or
  | _ => none

def text (op : BinaryOp) : String :=
  op.kind.spelling.getD ""

/-- The four operators of arithmetic share one level and one form of expression. -/
def isArithmetic : BinaryOp → Bool
  | add | sub | mul | div => true
  | _ => false

/-- How tightly an operator binds: a higher level binds tighter. -/
def level : BinaryOp → Nat
  | add | sub | mul | div => 25
  | eq => 22
  | gt => 21
  | ge => 20
  | lt => 19
  | le => 18
  | ne => 17
  | and => 16
  | or => 15

end BinaryOp

def notLevel : Nat := 14

def ternaryLevel : Nat := 12

/-- Expressions. Parentheses are kept, with the text that closes them, because the order in which an
expression is written matters to what is generated from it. -/
inductive Expr where
  | var (name : String)
  | num (digits : String)
  | truth
  | const
  | paren (inner : Expr) (close : String)
  | binary (op : BinaryOp) (left right : Expr)
  | not (operand : Expr)
  | ternary (condition yes no : Expr)
  | mux2 (a b : Expr)
  | mux3 (a b c : Expr)
  | mux3Num (a b : Expr) (digits : String)
  | mux4 (a b c d : Expr)
  | mux5 (a b c d e : Expr)
  | opt (operand : Expr)
  | arith (a b : Expr)
  | compute (a b : Expr)
  | rel (a b : Expr)
  | bool (a b : Expr)
  deriving DecidableEq, Repr, Inhabited

/-- The sort of a temporary variable. -/
inductive TempSort where
  | int | bit
  deriving DecidableEq, Repr

def TempSort.kind : TempSort → Kind
  | int => .intWord
  | bit => .bitWord

/-- The word that declares a temporary of a sort, with the space after it. -/
def TempSort.text (s : TempSort) : String :=
  s.kind.spelling.getD ""

mutual
/-- Statements. An update keeps the text that ends it. -/
inductive Stmt where
  | update (target : String) (value : Expr) (terminator : String)
  | temp (sort : TempSort) (name : String) (value : Expr) (terminator : String)
  | ret (value : Expr) (terminator : String)
  | branch (condition : Expr) (body : Body) (rest : Else)
  | assertFalse
/-- One statement or more. -/
inductive Body where
  | last (s : Stmt)
  | cons (s : Stmt) (rest : Body)
/-- What follows the first arm of a branch. -/
inductive Else where
  | none
  | elif (condition : Expr) (body : Body) (rest : Else)
  | otherwise (body : Body)
end

def Body.toList : Body → List Stmt
  | .last s => [s]
  | .cons s rest => s :: rest.toList

/-- What an ALU says of itself: whether it keeps state, or words that say neither. -/
inductive Indicator where
  | stateless
  | stateful
  | unknown (words : List String)
  deriving DecidableEq, Repr, Inhabited

/-- The three lists of names that an ALU declares. -/
inductive Section where
  | stateVars | holeVars | packetFields
  deriving DecidableEq, Repr

structure Description where
  indicator : Indicator
  stateVars : List String
  holeVars : List String
  packetFields : List String
  body : Body

end SwitchSynth.Alu
