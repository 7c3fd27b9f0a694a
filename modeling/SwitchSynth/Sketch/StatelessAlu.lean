import SwitchSynth.Alu.Repair
import SwitchSynth.Sketch.BitWidth
import SwitchSynth.Sketch.StatefulAlu
import SwitchSynth.Text.Lines
import SwitchSynth.Text.Numeral

/-!
# Stateless ALUs in sketches

A stateless ALU becomes a function of its operands, of its holes and of one control hole for each packet
field: a multiplexer chooses the operand that a packet field stands for. The first line of the text gives
the greatest opcode, which decides the width of the hole `opcode`.

The names of temporaries are not written, nor is `!`; an update stops the writing, as do the primitives
other than the wide multiplexers, `compute_alu` and `bool_op`, of which only the operands are written.
-/

namespace SwitchSynth.Sketch

open Alu (Expr Stmt Body Else Description Fragment Indicator Section)

/-- Text that was written, up to the error at which writing stopped. -/
structure Written where
  text : String
  failure : Option Error := none
  deriving DecidableEq, Repr

namespace Written

/-- Go on writing unless there was an error. -/
protected def append (a b : Written) : Written :=
  match a.failure with
  | some e => ⟨a.text, some e⟩
  | none => ⟨a.text ++ b.text, b.failure⟩

instance : Append Written := ⟨Written.append⟩

instance : Coe String Written := ⟨fun s => ⟨s, none⟩⟩

def stop (e : Error) : Written := ⟨"", some e⟩

/-- Write one thing after the other. -/
def join (ws : List Written) : Written :=
  ws.foldr (fun a b => a ++ b) ""

def toExcept (w : Written) : Except Error String :=
  match w.failure with
  | some e => .error e
  | none => .ok w.text

end Written

namespace StatelessAlu

/-- Stop at a primitive that a stateless ALU must not use. -/
def unexpected (word : String) : Written :=
  .stop (.check (.unexpectedKeyword word))

def exprText : Expr → Written
  | .var name => name
  | .num digits => digits
  | .truth => "true"
  | .const => unexpected "C()"
  | .paren inner close => "(" ++ exprText inner ++ close
  | .binary op left right => exprText left ++ op.text ++ exprText right
  | .not operand => exprText operand
  | .ternary c y n => exprText c ++ "?" ++ exprText y ++ ":" ++ exprText n
  | .mux2 _ _ => unexpected "Mux2"
  | .mux3 _ _ _ | .mux3Num _ _ _ => unexpected "Mux3"
  | .opt _ => unexpected "Opt"
  | .rel _ _ => unexpected "rel_op"
  | .arith _ _ => unexpected "arith_op"
  | .mux4 a b c d => exprText a ++ exprText b ++ exprText c ++ exprText d
  | .mux5 a b c d e => exprText a ++ exprText b ++ exprText c ++ exprText d ++ exprText e
  | .compute a b | .bool a b => exprText a ++ exprText b

def returnText (value : Expr) : Written :=
  "\t\treturn " ++ exprText value ++ ";"

/-- An update has to end with a semicolon. -/
def terminated (terminator : String) : Written :=
  if terminator = ";" then "" else .stop (.check .unterminatedUpdate)

mutual
def stmtText : Stmt → Written
  | .update _ _ terminator => terminated terminator ++ .stop .absentPart
  | .temp sort _ value terminator =>
    terminated terminator ++ sort.text ++ "=" ++ exprText value ++ ";"
  | .ret value _ => returnText value
  | .branch condition inner rest =>
    "if" ++ (" (" ++ exprText condition ++ ")\n \x7b" ++ bodyText inner ++ "\n\x7d\n") ++
      elseText rest
  | .assertFalse => ""
def bodyText : Body → Written
  | .last s => stmtText s
  | .cons s rest => stmtText s ++ bodyText rest
def elseText : Else → Written
  | .none => ""
  | .elif condition inner rest =>
    "else if" ++ (" (" ++ exprText condition ++ ")\n \x7b" ++ bodyText inner ++ "\n\x7d\n") ++
      elseText rest
  | .otherwise inner => "else \x7b\n" ++ bodyText inner ++ "\n\x7d\n"
end

def armText (condition : Expr) (inner : Body) : Written :=
  " (" ++ exprText condition ++ ")\n \x7b" ++ bodyText inner ++ "\n\x7d\n"

/-- The ending of the parameters that are holes. -/
def localSuffix : String := "_hole_local"

/-- Whether a text stands somewhere in another. -/
def occursIn (part whole : List Char) : Bool :=
  match whole with
  | [] => part.isEmpty
  | c :: rest => part.isPrefixOf (c :: rest) || occursIn part rest

/-- The text in front of the first place where another text stands in it. -/
def beforeFirst (part : List Char) : List Char → List Char
  | [] => []
  | c :: rest => if part.isPrefixOf (c :: rest) then [] else c :: beforeFirst part rest

/-- Whether a hole chooses a constant. -/
def isImmediate (name : String) : Bool :=
  occursIn "immediate_operand".toList name.toList

/-- The widths of the holes of a stateless ALU. -/
structure Widths where
  opcode : Int
  constant : Int
  deriving DecidableEq, Repr

def Widths.of (w : Widths) (name : String) : Int :=
  if isImmediate name then w.constant
  else if name = "opcode" then w.opcode
  else 2

/-- Whether a hole variable can be added to others. A variable is given once, and is not the name of the
parameter of another. -/
def mayAdd (names : List String) (name : String) : Except Error Unit :=
  if name ∈ names then .error (.check .repeatedHole)
  else if name ∈ names.map (· ++ localSuffix) then .error (.check .repeatedArgument)
  else .ok ()

/-- The parameters for hole variables, after those for `before`. -/
def holeParameters (before : List String) : List String → Written
  | [] => ""
  | [name] =>
    match mayAdd before name with
    | .error e => .stop e
    | .ok () => "int " ++ name ++ localSuffix
  | name :: rest =>
    match mayAdd before name with
    | .error e => .stop e
    | .ok () => "int " ++ name ++ localSuffix ++ ", " ++ holeParameters (before ++ [name]) rest

def checkIndicator : Indicator → Except Error Unit
  | .stateless => .ok ()
  | .stateful => .error (.check (.notStateless "stateful"))
  | .unknown [_, _, word] =>
    if word = "stateless" then .ok () else .error (.check (.notStateless word))
  | .unknown _ => .error (.check .incompleteIndicator)

end StatelessAlu

/-- A stateless ALU whose declarations have been read. -/
structure StatelessAlu where
  name : String
  operands : List String
  widths : StatelessAlu.Widths
  holeVars : List String
  packetFields : List String
  body : Body

namespace StatelessAlu

/-- The holes, as the function names its parameters, with their widths. -/
def arguments (a : StatelessAlu) : List (String × Int) :=
  a.holeVars.map fun h => (h ++ localSuffix, a.widths.of h)

/-- The holes, as the whole sketch names them, with their widths. -/
def globalHoles (a : StatelessAlu) : List (String × Int) :=
  a.holeVars.map fun h => (a.name ++ "_" ++ h, a.widths.of h)

def muxName (a : StatelessAlu) (k : Nat) : String :=
  a.name ++ "_operand_mux_" ++ toString k

def muxNames (a : StatelessAlu) : List String :=
  (List.range a.packetFields.length).map a.muxName

def control (k : Nat) : String :=
  "operand_mux_" ++ toString k ++ "_ctrl" ++ localSuffix

/-- The parameters that stand at the end if there are more than two holes. -/
def extraParameters (a : StatelessAlu) : List String :=
  if 2 < a.holeVars.length then
    (a.holeVars.map (· ++ localSuffix)).mergeSort fun x y => decide (x ≤ y)
  else []

def parameters (a : StatelessAlu) : List String :=
  a.operands ++ a.holeVars.map (· ++ localSuffix) ++
    (List.range a.packetFields.length).map control ++ a.extraParameters

def holeLine (hole : String) : String :=
  let argument := hole ++ localSuffix
  let target := String.ofList (beforeFirst localSuffix.toList argument.toList)
  if isImmediate target then
    "\tint " ++ target ++ " = constant_vector[" ++ argument ++ "];\n"
  else "\tint " ++ target ++ " = " ++ argument ++ ";\n"

/-- The line that chooses the operand of a packet field. -/
def muxLine (a : StatelessAlu) (field : String) (k : Nat) : String :=
  "\tint " ++ field ++ " = " ++ a.muxName k ++ "(" ++ String.join (a.operands.map (· ++ ",")) ++
    control k ++ ");\n"

/-- The function up to its holes. -/
def openingText (name : String) (operands : List String) : String :=
  "int " ++ name ++ "(" ++ String.join (operands.map fun p => "int " ++ p ++ ",")

/-- The function up to its body, with a text for the parameters at the end. -/
def headText (a : StatelessAlu) (extra : String) : Written :=
  openingText a.name a.operands ++ holeParameters [] a.holeVars ++
    String.join ((List.range a.packetFields.length).map fun k => ", int " ++ control k) ++
    " " ++ extra ++ ")\x7b\n" ++ String.join (a.holeVars.map holeLine) ++
    String.join (a.packetFields.zipIdx.map fun (p, k) => a.muxLine p k)

def functionText (a : StatelessAlu) (extra : String) : Written :=
  a.headText extra ++ bodyText a.body ++ "\n\x7d"

/-- The ALU with single percent signs for doubled ones in its name and operands. -/
def plain (a : StatelessAlu) : Option StatelessAlu := do
  let name ← singlePercents a.name.toList
  let operands ← a.operands.mapM fun p => (singlePercents p.toList).map String.ofList
  return { a with name := String.ofList name, operands := operands }

def extraText (a : StatelessAlu) : String :=
  if a.extraParameters.isEmpty then ""
  else "," ++ String.intercalate "," (a.extraParameters.map ("int " ++ ·))

/-- The function. A percent sign in the name of the ALU or of an operand has to be doubled. -/
def mainText (a : StatelessAlu) : Except Error String := do
  let _ ← (bodyText a.body).toExcept
  match a.plain with
  | none => .error .wrongType
  | some plain => (plain.functionText a.extraText).toExcept

def helperText (muxes : List String) : String :=
  "\n\n\n" ++ String.join muxes

def greatestOpcode (text : String) : Except Error Int :=
  let opening := "// Max value of opcode is ".toList
  let line := Text.chars (Text.firstLine (Text.read text))
  if opening.isPrefixOf line then
    let digits := (line.drop opening.length).takeWhile Text.isDigit
    if digits.isEmpty then .error .absentPart else Text.readInt (String.ofList digits)
  else .error .absentPart

def opcodeBits (text : String) : Except Error Nat := do
  bitWidth ((← greatestOpcode text) + 1)

def declare (name : String) (operands : List String) (widths : Widths) (source : Alu.Source) :
    Except Error StatelessAlu := do
  checkIndicator source.indicator
  match source with
  | .headerOnly _ => throw .absentPart
  | .whole d =>
    let _ ← (holeParameters [] d.holeVars).toExcept
    return ⟨name, operands, widths, d.holeVars, d.packetFields, d.body⟩

def writeFragment (name : String) (operands : List String) (widths : Widths) :
    Fragment → Written
  | .tempVar _ | .variableName _ | .statelessWord | .statefulWord => ""
  | .name .holeVars h => holeParameters [] [h]
  | .names .holeVars hs | .nameSeq .holeVars hs | .nameSection .holeVars hs => holeParameters [] hs
  | .name _ _ | .names _ _ | .nameSeq _ _ | .nameSection _ _ => ""
  | .indicator i =>
    match checkIndicator i with
    | .error e => .stop e
    | .ok () => ""
  | .body b => bodyText b
  | .arm condition b => armText condition b
  | .stmt s => stmtText s
  | .ret value _ => returnText value
  | .expr e => exprText e
  | .description d =>
    match checkIndicator d.indicator with
    | .error e => .stop e
    | .ok () =>
      let a : StatelessAlu := ⟨name, operands, widths, d.holeVars, d.packetFields, d.body⟩
      match a.mainText with
      | .ok main => main
      | .error e => ⟨(a.functionText "%s").text, some e⟩

end StatelessAlu

end SwitchSynth.Sketch
