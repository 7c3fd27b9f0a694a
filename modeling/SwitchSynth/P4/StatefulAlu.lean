import SwitchSynth.Alu.Repair
import SwitchSynth.P4.Form
import SwitchSynth.Sketch.StatefulAlu
import SwitchSynth.Table

/-!
# Stateful ALUs in switch programs

With values for its holes a stateful ALU is lowered: every primitive is resolved, which uses up its hole,
and the expressions of the temporaries that the switch program needs are kept by name. Expressions that the
switch language has no text for have no value, and joining such an expression with text is an error.
-/

namespace SwitchSynth.P4

open Alu (Expr Stmt Body Else Description Fragment Section)
open Sketch (Primitive Family)

/-- What a stateful ALU is lowered with. -/
structure Setting where
  alu : String
  constants : List String
  lowOperand : String
  highOperand : String
  deriving Repr

/-- What has been lowered so far. -/
structure Lowering where
  main : String := ""
  holes : Table Int := {}
  resolved : List Family := []
  expressions : Table String := {}
  packetFields : List String := []
  stateVars : List String := []

/-- Lowering, which may stop at an error with what was reached until then. -/
abbrev Lower := ReaderT Setting (ExceptT Error (StateM Lowering))

namespace Lowering

/-- The number of primitives of a family that have been resolved. -/
def count (l : Lowering) (f : Family) : Nat :=
  l.resolved.count f

end Lowering

namespace StatefulAlu

/-- The temporaries whose expressions the switch program needs. -/
def neededNames : List String :=
  ["condition_hi", "condition_lo", "update_lo_1_predicate", "update_lo_1_value",
   "update_lo_2_predicate", "update_lo_2_value", "update_hi_1_predicate", "update_hi_1_value",
   "update_hi_2_predicate", "update_hi_2_value", "output_value", "output_dst"]

def put (s : String) : Lower Unit :=
  modify fun l => { l with main := l.main ++ s }

def needText : Option String → Lower String
  | some s => pure s
  | none => throw .wrongType

def putValue (value : Option String) : Lower Unit := do
  put (← needText value)

def require (holds : Bool) (c : Check) : Lower Unit :=
  if holds then pure () else throw (.check c)

def fullHoleName (alu hole : String) : String :=
  alu ++ "_" ++ hole ++ "_global"

def takeHole (hole : String) : Lower Int := do
  let key := fullHoleName (← read).alu hole
  match (← get).holes.get? key with
  | none => throw (.missingKey key)
  | some value =>
    modify fun l => { l with holes := l.holes.erase key }
    return value

/-- The number of the hole of a primitive. The hole of an optional operand goes by the number of
arithmetic operators so far. -/
def holeNumber (l : Lowering) (f : Family) : Nat :=
  match f with
  | .opt => l.count .arithOp
  | f => l.count f

/-- Use up the hole of a primitive and resolve it. -/
def resolvePrimitive (p : Primitive) (operands : List (Option String)) : Lower (Option String) := do
  let f := p.family
  let value ← takeHole (f.hole (holeNumber (← get) f))
  modify fun l => { l with resolved := l.resolved ++ [f] }
  match p with
  | .constant =>
    match atPlace (← read).constants value with
    | .ok c => return some c
    | .error e => throw e
  | p => return resolve p operands value

def variableText (name : String) : Lower String := do
  if name = "metadata_lo" then return (← read).lowOperand
  else if name = "metadata_hi" then return (← read).highOperand
  else return name

/-- The value of an expression. Comparisons other than `==`, and `? :`, have the value of their last
operand. -/
def lowerExpr : Expr → Lower (Option String)
  | .var name => return some (← variableText name)
  | .num digits => return some digits
  | .truth => return none
  | .const => resolvePrimitive .constant []
  | .paren inner close => do
    let s ← needText (← lowerExpr inner)
    return some ("(" ++ s ++ close)
  | .binary op left right => do
    let l ← lowerExpr left
    match op with
    | .gt | .ge | .lt | .le | .ne => lowerExpr right
    | .add | .sub | .mul | .div | .eq =>
      let l ← needText l
      let r ← needText (← lowerExpr right)
      return some (l ++ op.text ++ r)
    | .and | .or =>
      let l ← needText l
      let r ← needText (← lowerExpr right)
      return some (l ++ " " ++ op.text ++ " " ++ r)
  | .not operand => do
    let s ← needText (← lowerExpr operand)
    return some (" !" ++ s)
  | .ternary c y n => do
    let _ ← lowerExpr c
    let _ ← lowerExpr y
    lowerExpr n
  | .mux2 a b => do
    let a ← lowerExpr a
    let b ← lowerExpr b
    resolvePrimitive .mux2 [a, b]
  | .mux3 a b c => do
    let a ← lowerExpr a
    let b ← lowerExpr b
    let c ← lowerExpr c
    resolvePrimitive .mux3 [a, b, c]
  | .mux3Num a b digits => do
    let a ← lowerExpr a
    let b ← lowerExpr b
    resolvePrimitive (.mux3Num digits) [a, b]
  | .mux4 a b c d => do
    let a ← lowerExpr a
    let b ← lowerExpr b
    let c ← lowerExpr c
    let d ← lowerExpr d
    resolvePrimitive .mux4 [a, b, c, d]
  | .mux5 a b c d e => do
    let a ← lowerExpr a
    let b ← lowerExpr b
    let c ← lowerExpr c
    let d ← lowerExpr d
    let e ← lowerExpr e
    resolvePrimitive .mux5 [a, b, c, d, e]
  | .opt operand => do
    let a ← lowerExpr operand
    resolvePrimitive .opt [a]
  | .arith a b => do
    let a ← lowerExpr a
    let b ← lowerExpr b
    resolvePrimitive .arithOp [a, b]
  | .compute a b => do
    let a ← lowerExpr a
    let b ← lowerExpr b
    resolvePrimitive .computeAlu [a, b]
  | .rel a b => do
    let a ← lowerExpr a
    let b ← lowerExpr b
    resolvePrimitive .relOp [a, b]
  | .bool a b => do
    let a ← lowerExpr a
    let b ← lowerExpr b
    resolvePrimitive .boolOp [a, b]

/-- Lower a return: the state variables go back to the state group first. -/
def lowerReturn (value : Expr) : Lower Unit := do
  for (s, i) in (← get).stateVars.zipIdx do
    put ("\nstate_group.state_" ++ toString i ++ " = " ++ s ++ ";")
  put "return "
  putValue (← lowerExpr value)
  put ";"

/-- Keep the expression of a temporary that the switch program needs. -/
def keep (name expr : String) : Lower Unit :=
  if name ∈ neededNames then
    modify fun l => { l with expressions := l.expressions.insert (name ++ "_expr") expr }
  else pure ()

mutual
def lowerStmt : Stmt → Lower Unit
  | .update target value terminator => do
    require (terminator == ";") .unterminatedUpdate
    put (← variableText target)
    put " = "
    putValue (← lowerExpr value)
    put ";"
  | .temp sort name value terminator => do
    require (terminator == ";") .unterminatedUpdate
    put sort.text
    put name
    put "="
    let s ← needText (← lowerExpr value)
    put s
    put ";"
    keep name s
  | .ret value _ => lowerReturn value
  | .branch condition inner rest => do
    put "if"
    put " ("
    putValue (← lowerExpr condition)
    put ")\n \x7b"
    lowerBody inner
    put "\n\x7d\n"
    lowerElse rest
  | .assertFalse => put "assert(false);"
def lowerBody : Body → Lower Unit
  | .last s => lowerStmt s
  | .cons s rest => do
    lowerStmt s
    lowerBody rest
def lowerElse : Else → Lower Unit
  | .none => pure ()
  | .elif condition inner rest => do
    put "else "
    put "if"
    put " ("
    putValue (← lowerExpr condition)
    put ")\n \x7b"
    lowerBody inner
    put "\n\x7d\n"
    lowerElse rest
  | .otherwise inner => do
    put "else \x7b\n"
    lowerBody inner
    put "\n\x7d\n"
end

def lowerArm (condition : Expr) (inner : Body) : Lower Unit := do
  put " ("
  putValue (← lowerExpr condition)
  put ")\n \x7b"
  lowerBody inner
  put "\n\x7d\n"

def takeFields (names : List String) : Lower Unit := do
  modify fun l => { l with packetFields := l.packetFields ++ names }
  put (String.intercalate ", " (names.map ("int " ++ ·)))

def declare (names : List String) : Lower Unit :=
  modify fun l => { l with stateVars := l.stateVars ++ names }

def lowerDescription (d : Description) : Lower Unit := do
  put ("int " ++ (← read).alu ++ "(ref | StateGroup | state_group, ")
  takeFields d.packetFields
  declare d.stateVars
  put ") \x7b\n"
  require (!d.stateVars.isEmpty) .noStateVariable
  for (s, i) in d.stateVars.zipIdx do
    put ("\nint " ++ s ++ " = state_group.state_" ++ toString i ++ ";")
  lowerBody d.body
  put "\n\n\x7d"

/-- Lower whatever can be made of a text. -/
def lowerSource : Alu.Source → Lower Unit
  | .whole d => lowerDescription d
  | .headerOnly _ => do
    put ("int " ++ (← read).alu ++ "(ref | StateGroup | state_group, ")
    throw .absentPart

/-- Lower a fragment by itself; only names of temporaries and variables, and expressions, have a value. -/
def lowerFragment : Fragment → Lower (Option String)
  | .tempVar name => return some name
  | .variableName name => return some (← variableText name)
  | .name .packetFields name => do takeFields [name]; return none
  | .names .packetFields names | .nameSeq .packetFields names
  | .nameSection .packetFields names => do takeFields names; return none
  | .name .stateVars name => do declare [name]; return none
  | .names .stateVars names | .nameSeq .stateVars names | .nameSection .stateVars names => do
    declare names
    return none
  | .name .holeVars _ | .names .holeVars _ | .nameSeq .holeVars _ | .nameSection .holeVars _
  | .statelessWord | .statefulWord | .indicator _ => return none
  | .body b => do lowerBody b; return none
  | .arm condition b => do lowerArm condition b; return none
  | .stmt s => do lowerStmt s; return none
  | .ret value _ => do lowerReturn value; return none
  | .expr e => lowerExpr e
  | .description d => do lowerDescription d; return none

/-- Lower a text with values for its holes: the result, and what was reached. -/
def lower (setting : Setting) (holes : Table Int) (source : Alu.Source) :
    Except Error Unit × Lowering :=
  (((lowerSource source).run setting).run.run { holes := holes })

end StatefulAlu

end SwitchSynth.P4
