import SwitchSynth.Alu.Repair
import SwitchSynth.Error
import SwitchSynth.Sketch.Primitive

/-!
# Stateful ALUs in sketches

A stateful ALU becomes a function of the packet fields, the state group and the holes, and one helper for
each use of a primitive. The code of the function is a value (`Code`) in which the calls of helpers can be
told from the text around them; `Code.render` writes it.

Of the infix operators only arithmetic, `&&` and `||` are written between their operands. The others, `? :`
and `True` have no text of their own.
-/

namespace SwitchSynth.Sketch

open Alu (Expr Stmt Body Else Description Fragment Section)

/-- Code of a function in a sketch. -/
inductive Code where
  | text (s : String)
  | append (a b : Code)
  /-- A call of a helper of a primitive, by the number it is called under, with its operands and the number
  of its hole. -/
  | call (p : Primitive) (helper : Nat) (operands : List Code) (hole : Nat)
  | aluName
  /-- The place of the parameters for the holes. -/
  | parameters

namespace Code

instance : Append Code := ⟨append⟩

instance : Coe String Code := ⟨text⟩

mutual
/-- The text of some code in an ALU of a name, with the parameters for the holes. -/
def render (alu parameters : String) : Code → String
  | .text s => s
  | .append a b => a.render alu parameters ++ b.render alu parameters
  | .call p helper operands hole =>
    p.family.helper alu helper ++ "(" ++ renderOperands alu parameters operands ++
      p.family.hole hole ++ (if p.yieldsTruth then ") == 1" else ")")
  | .aluName => alu
  | .parameters => parameters
def renderOperands (alu parameters : String) : List Code → String
  | [] => ""
  | c :: cs => c.render alu parameters ++ "," ++ renderOperands alu parameters cs
end

end Code

def familyCount (f : Family) (helpers : List Helper) : Nat :=
  helpers.countP fun h => h.primitive.family = f

namespace StatefulAlu

/-- The code of a call. Operands come first; the helper gets the number that is free after them, but the
call goes by the number that was free before them. -/
def call (p : Primitive) (operands : List (StateM (List Helper) Code)) :
    StateM (List Helper) Code := do
  let before := familyCount p.family (← get)
  let codes ← operands.mapM id
  let after := familyCount p.family (← get)
  modify fun helpers => helpers ++ [⟨p, after⟩]
  return .call p before codes after

def operatorText (op : Alu.BinaryOp) : String :=
  match op with
  | .add | .sub | .mul | .div => op.text
  | .and => " && "
  | .or => " || "
  | .eq | .gt | .ge | .lt | .le | .ne => ""

def exprCode : Expr → StateM (List Helper) Code
  | .var name => return name
  | .num digits => return digits
  | .truth => return ""
  | .const => call .constant []
  | .paren inner _ => return "(" ++ (← exprCode inner) ++ ")"
  | .binary op left right => do
    let l ← exprCode left
    let r ← exprCode right
    return l ++ operatorText op ++ r
  | .not operand => return " !" ++ (← exprCode operand)
  | .ternary c y n => do
    let c ← exprCode c
    let y ← exprCode y
    let n ← exprCode n
    return c ++ y ++ n
  | .mux2 a b => call .mux2 [exprCode a, exprCode b]
  | .mux3 a b c => call .mux3 [exprCode a, exprCode b, exprCode c]
  | .mux3Num a b digits => call (.mux3Num digits) [exprCode a, exprCode b]
  | .mux4 a b c d => call .mux4 [exprCode a, exprCode b, exprCode c, exprCode d]
  | .mux5 a b c d e => call .mux5 [exprCode a, exprCode b, exprCode c, exprCode d, exprCode e]
  | .opt operand => call .opt [exprCode operand]
  | .arith a b => call .arithOp [exprCode a, exprCode b]
  | .compute a b => call .computeAlu [exprCode a, exprCode b]
  | .rel a b => call .relOp [exprCode a, exprCode b]
  | .bool a b => call .boolOp [exprCode a, exprCode b]

/-- What has been written so far. -/
structure Draft where
  main : Code := ""
  helpers : List Helper := []
  packetFields : List String := []
  stateVars : List String := []

/-- Writing an ALU, which may stop at an error with what was written until then. -/
abbrev Write := ExceptT Error (StateM Draft)

def put (c : Code) : Write Unit :=
  modify fun d => { d with main := d.main ++ c }

def require (holds : Bool) (c : Check) : Write Unit :=
  if holds then pure () else throw (.check c)

def putExpr (e : Expr) : Write Unit :=
  modify fun d =>
    let (code, helpers) := (exprCode e).run d.helpers
    { d with main := d.main ++ code, helpers := helpers }

/-- Write a return: the state variables go back to the state group first. -/
def putReturn (value : Expr) : Write Unit := do
  for (s, i) in (← get).stateVars.zipIdx do
    put ("\nstate_group.state_" ++ toString i ++ " = " ++ s ++ ";")
  put "return "
  putExpr value
  put ";"

mutual
def putStmt : Stmt → Write Unit
  | .update target value terminator => do
    require (terminator == ";") .unterminatedUpdate
    put target
    put " = "
    putExpr value
    put ";"
  | .temp sort name value terminator => do
    require (terminator == ";") .unterminatedUpdate
    put sort.text
    put name
    put "="
    putExpr value
    put ";"
  | .ret value _ => putReturn value
  | .branch condition inner rest => do
    put "if"
    put " ("
    putExpr condition
    put ")\n \x7b"
    putBody inner
    put "\n\x7d\n"
    putElse rest
  | .assertFalse => put "assert(false);"
def putBody : Body → Write Unit
  | .last s => putStmt s
  | .cons s rest => do
    putStmt s
    putBody rest
def putElse : Else → Write Unit
  | .none => pure ()
  | .elif condition inner rest => do
    put "else "
    put "if"
    put " ("
    putExpr condition
    put ")\n \x7b"
    putBody inner
    put "\n\x7d\n"
    putElse rest
  | .otherwise inner => do
    put "else \x7b\n"
    putBody inner
    put "\n\x7d\n"
end

def putArm (condition : Expr) (inner : Body) : Write Unit := do
  put " ("
  putExpr condition
  put ")\n \x7b"
  putBody inner
  put "\n\x7d\n"

def putFields (names : List String) : Write Unit := do
  modify fun d => { d with packetFields := d.packetFields ++ names }
  put (String.intercalate ", " (names.map ("int " ++ ·)))

def declare (names : List String) : Write Unit :=
  modify fun d => { d with stateVars := d.stateVars ++ names }

def putOpening : Write Unit := do
  put "int "
  put .aluName
  put "(ref | StateGroup | state_group, "

def putDescription (d : Description) : Write Unit := do
  putOpening
  putFields d.packetFields
  declare d.stateVars
  put ", "
  put .parameters
  put ") \x7b\n"
  require (!d.stateVars.isEmpty) .noStateVariable
  for (s, i) in d.stateVars.zipIdx do
    put ("\nint " ++ s ++ " = state_group.state_" ++ toString i ++ ";")
  putBody d.body
  put "\n\n\x7d"

/-- Write whatever can be made of a text. -/
def putSource : Alu.Source → Write Unit
  | .whole d => putDescription d
  | .headerOnly _ => do
    putOpening
    throw .absentPart

def putFragment : Fragment → Write Unit
  | .tempVar name | .variableName name => put name
  | .name .packetFields name => putFields [name]
  | .names .packetFields names | .nameSeq .packetFields names
  | .nameSection .packetFields names => putFields names
  | .name .stateVars name => declare [name]
  | .names .stateVars names | .nameSeq .stateVars names | .nameSection .stateVars names =>
    declare names
  | .name .holeVars _ | .names .holeVars _ | .nameSeq .holeVars _ | .nameSection .holeVars _
  | .statelessWord | .statefulWord | .indicator _ => pure ()
  | .body b => putBody b
  | .arm condition b => putArm condition b
  | .stmt s => putStmt s
  | .ret value _ => putReturn value
  | .expr e => putExpr e
  | .description d => putDescription d

end StatefulAlu

/-- A text in which every pair of percent signs is a single one; none if one stands alone. -/
def singlePercents : List Char → Option (List Char)
  | [] => some []
  | '%' :: '%' :: rest => (singlePercents rest).map ('%' :: ·)
  | '%' :: _ => none
  | c :: rest => (singlePercents rest).map (c :: ·)

/-- A stateful ALU of a sketch. -/
structure StatefulAlu where
  name : String
  /-- The number of bits of a hole for a constant. -/
  constantBits : Int
  /-- One helper for each use of a primitive. -/
  helpers : List Helper
  code : Code
  packetFields : List String
  stateVars : List String

namespace StatefulAlu

/-- The holes, as the function names them, with their widths. -/
def arguments (a : StatefulAlu) : List (String × Int) :=
  a.helpers.map fun h => (h.hole, h.primitive.width a.constantBits)

/-- The holes, as the whole sketch names them, with their widths. -/
def globalHoles (a : StatefulAlu) : List (String × Int) :=
  a.helpers.map fun h => (h.globalHole a.name, h.primitive.width a.constantBits)

def helperText (a : StatefulAlu) : String :=
  "\n\n\n" ++ String.join (a.helpers.map (Helper.text a.name))

/-- The names of the holes in alphabetical order. -/
def sortedHoles (a : StatefulAlu) : List String :=
  (a.helpers.map Helper.hole).mergeSort fun x y => decide (x ≤ y)

def parameterText (a : StatefulAlu) : String :=
  String.intercalate "," (a.sortedHoles.map ("int " ++ ·))

/-- The function. A percent sign in the name of the ALU has to be doubled. -/
def mainText (a : StatefulAlu) : Except Error String :=
  match singlePercents a.name.toList with
  | some name => .ok (a.code.render (String.ofList name) a.parameterText)
  | none => .error .wrongType

def ofSource (name : String) (constantBits : Int) (source : Alu.Source) :
    Except Error StatefulAlu :=
  match (putSource source).run.run {} with
  | (.error e, _) => .error e
  | (.ok (), d) => .ok ⟨name, constantBits, d.helpers, d.main, d.packetFields, d.stateVars⟩

def writeFragment (name : String) (constantBits : Int) (f : Fragment) :
    Except Error Unit × String :=
  let (result, d) := (putFragment f).run.run {}
  let finished : StatefulAlu :=
    ⟨name, constantBits, d.helpers, d.main, d.packetFields, d.stateVars⟩
  match result, f with
  | .ok (), .description _ =>
    match finished.mainText with
    | .ok main => (.ok (), main)
    | .error e => (.error e, d.main.render name "%s")
  | result, _ => (result, d.main.render name "%s")

end StatefulAlu

end SwitchSynth.Sketch
