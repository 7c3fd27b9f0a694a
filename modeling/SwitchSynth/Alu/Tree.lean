import SwitchSynth.Alu.Syntax

/-!
# Labelled trees

Every piece of syntax can be shown as a tree whose inner nodes carry the grammar rule they come from,
with the alternative of the rule, and whose leaves are the tokens.
-/

namespace SwitchSynth.Alu

/-- The rules of the grammar, in the order of their index. -/
inductive Rule where
  | stateVar | tempVar | packetField | holeVar | stateless | stateful | stateIndicator
  | stateVarDef | stateVarSeq | stateVars | holeDef | holeSeq | holeVars
  | packetFieldDef | packetFieldSeq | packetFields | aluBody | conditionBlock | statement
  | returnStatement | variableName | expr | alu
  deriving DecidableEq, Repr

namespace Rule

def all : List Rule :=
  [stateVar, tempVar, packetField, holeVar, stateless, stateful, stateIndicator,
   stateVarDef, stateVarSeq, stateVars, holeDef, holeSeq, holeVars,
   packetFieldDef, packetFieldSeq, packetFields, aluBody, conditionBlock, statement,
   returnStatement, variableName, expr, alu]

def name : Rule → String
  | stateVar => "state_var" | tempVar => "temp_var" | packetField => "packet_field"
  | holeVar => "hole_var" | stateless => "stateless" | stateful => "stateful"
  | stateIndicator => "state_indicator" | stateVarDef => "state_var_def"
  | stateVarSeq => "state_var_seq" | stateVars => "state_vars" | holeDef => "hole_def"
  | holeSeq => "hole_seq" | holeVars => "hole_vars" | packetFieldDef => "packet_field_def"
  | packetFieldSeq => "packet_field_seq" | packetFields => "packet_fields"
  | aluBody => "alu_body" | conditionBlock => "condition_block" | statement => "statement"
  | returnStatement => "return_statement" | variableName => "variable" | expr => "expr" | alu => "alu"

def ofName? (s : String) : Option Rule :=
  all.find? fun r => r.name == s

def index (r : Rule) : Nat :=
  all.idxOf r

end Rule

namespace Section

def defRule : Section → Rule
  | stateVars => .stateVarDef | holeVars => .holeDef | packetFields => .packetFieldDef

def seqRule : Section → Rule
  | stateVars => .stateVarSeq | holeVars => .holeSeq | packetFields => .packetFieldSeq

def namesRule : Section → Rule
  | stateVars => .stateVars | holeVars => .holeVars | packetFields => .packetFields

def nameRule : Section → Rule
  | stateVars => .stateVar | holeVars => .holeVar | packetFields => .packetField

end Section

/-- The alternatives of the rule for expressions. -/
inductive ExprForm where
  | var | withOp | withParen | num | equals | greater | greaterEqual | less | lessEqual | notEqual
  | and | or | not | truth | ternary | mux2 | mux3WithNum | mux3 | mux4 | mux5 | opt | constant
  | arithOp | computeAlu | relOp | boolOp
  deriving DecidableEq, Repr

/-- The alternatives of the rule for statements. -/
inductive StmtForm where
  | updateExpr | updateTempInt | updateTempBit | ret | branch | assertFalse
  deriving DecidableEq, Repr

/-- A rule, with its alternative where the rule has several. -/
inductive Label where
  | rule (r : Rule)
  | singleName (s : Section)
  | severalNames (s : Section)
  | stmt (form : StmtForm)
  | expr (form : ExprForm)
  deriving DecidableEq, Repr

namespace Label

def toRule : Label → Rule
  | rule r => r
  | singleName s | severalNames s => s.namesRule
  | stmt _ => .statement
  | expr _ => .expr

def capitalized (s : String) : String :=
  match s.toList with
  | [] => ""
  | c :: cs => String.ofList (c.toUpper :: cs)

def name : Label → String
  | rule r => capitalized r.name
  | singleName .stateVars => "SingleStateVar"
  | singleName .holeVars => "SingleHoleVar"
  | singleName .packetFields => "SinglePacketField"
  | severalNames .stateVars => "MultipleStateVars"
  | severalNames .holeVars => "MultipleHoleVars"
  | severalNames .packetFields => "MultiplePacketFields"
  | stmt .updateExpr => "StmtUpdateExpr"
  | stmt .updateTempInt => "StmtUpdateTempInt"
  | stmt .updateTempBit => "StmtUpdateTempBit"
  | stmt .ret => "StmtReturn"
  | stmt .branch => "StmtIfElseIfElse"
  | stmt .assertFalse => "AssertFalse"
  | expr .var => "Var" | expr .withOp => "ExprWithOp" | expr .withParen => "ExprWithParen"
  | expr .num => "Num" | expr .equals => "Equals" | expr .greater => "Greater"
  | expr .greaterEqual => "GreaterEqual" | expr .less => "Less" | expr .lessEqual => "LessEqual"
  | expr .notEqual => "NotEqual" | expr .and => "And" | expr .or => "Or" | expr .not => "NOT"
  | expr .truth => "True" | expr .ternary => "Ternary" | expr .mux2 => "Mux2"
  | expr .mux3WithNum => "Mux3WithNum" | expr .mux3 => "Mux3" | expr .mux4 => "Mux4"
  | expr .mux5 => "Mux5" | expr .opt => "Opt" | expr .constant => "Constant"
  | expr .arithOp => "ArithOp" | expr .computeAlu => "ComputeAlu" | expr .relOp => "RelOp"
  | expr .boolOp => "BoolOp"

end Label

/-- A tree of labels over tokens. -/
inductive Tree where
  | leaf (kind : Kind) (text : String)
  | node (label : Label) (children : List Tree)

namespace Tree

def mark (k : Kind) : Tree :=
  .leaf k (k.spelling.getD "")

mutual
def leaves : Tree → List String
  | .leaf _ t => [t]
  | .node _ cs => leavesAll cs
def leavesAll : List Tree → List String
  | [] => []
  | c :: cs => c.leaves ++ leavesAll cs
end

def text (t : Tree) : String :=
  String.join t.leaves

mutual
/-- The tree with parentheses: a node without children is only its rule. -/
def lisp : Tree → String
  | .leaf _ t => t
  | .node label [] => label.toRule.name
  | .node label (c :: cs) => "(" ++ label.toRule.name ++ lispAll (c :: cs) ++ ")"
def lispAll : List Tree → String
  | [] => ""
  | c :: cs => " " ++ c.lisp ++ lispAll cs
end

mutual
/-- The inner nodes, each before those below it. -/
def nodes : Tree → List (Label × List Tree)
  | .leaf _ _ => []
  | .node label cs => (label, cs) :: nodesAll cs
def nodesAll : List Tree → List (Label × List Tree)
  | [] => []
  | c :: cs => c.nodes ++ nodesAll cs
end

def labels (t : Tree) : List Label :=
  t.nodes.map Prod.fst

mutual
/-- The greatest nesting of inner nodes. -/
def depth : Tree → Nat
  | .leaf _ _ => 0
  | .node _ cs => depthAll cs + 1
def depthAll : List Tree → Nat
  | [] => 0
  | c :: cs => max c.depth (depthAll cs)
end

end Tree

/-- The form of expression that an infix operator makes. -/
def BinaryOp.form : BinaryOp → ExprForm
  | .add | .sub | .mul | .div => .withOp
  | .eq => .equals | .gt => .greater | .ge => .greaterEqual | .lt => .less | .le => .lessEqual
  | .ne => .notEqual | .and => .and | .or => .or

/-- The tree of a variable in an expression or on the left of an update. -/
def variableTree (name : String) : Tree :=
  .node (.rule .variableName) [.leaf .ident name]

/-- A call of a primitive over the trees of its operands. -/
def callTree (form : ExprForm) (k : Kind) (operands : List Tree) : Tree :=
  .node (.expr form)
    (.mark k :: .mark .lparen :: operands.intersperse (.mark .comma) ++ [.mark .rparen])

def Expr.tree : Expr → Tree
  | .var name => .node (.expr .var) [variableTree name]
  | .num digits => .node (.expr .num) [.leaf .number digits]
  | .truth => .node (.expr .truth) [.mark .trueWord]
  | .const => .node (.expr .constant) [.mark .constant]
  | .paren inner close => .node (.expr .withParen) [.mark .lparen, inner.tree, .leaf .rparen close]
  | .binary op left right => .node (.expr op.form) [left.tree, .mark op.kind, right.tree]
  | .not operand => .node (.expr .not) [.mark .not, operand.tree]
  | .ternary c y n =>
    .node (.expr .ternary) [c.tree, .mark .question, y.tree, .mark .colon, n.tree]
  | .mux2 a b => callTree .mux2 .mux2 [a.tree, b.tree]
  | .mux3 a b c => callTree .mux3 .mux3 [a.tree, b.tree, c.tree]
  | .mux3Num a b digits => callTree .mux3WithNum .mux3 [a.tree, b.tree, .leaf .number digits]
  | .mux4 a b c d => callTree .mux4 .mux4 [a.tree, b.tree, c.tree, d.tree]
  | .mux5 a b c d e => callTree .mux5 .mux5 [a.tree, b.tree, c.tree, d.tree, e.tree]
  | .opt operand => callTree .opt .opt [operand.tree]
  | .arith a b => callTree .arithOp .arithOp [a.tree, b.tree]
  | .compute a b => callTree .computeAlu .computeAlu [a.tree, b.tree]
  | .rel a b => callTree .relOp .relOp [a.tree, b.tree]
  | .bool a b => callTree .boolOp .boolOp [a.tree, b.tree]

def tempVarTree (name : String) : Tree :=
  .node (.rule .tempVar) [.leaf .ident name]

def TempSort.form : TempSort → StmtForm
  | .int => .updateTempInt
  | .bit => .updateTempBit

def returnTree (value : Expr) (terminator : String) : Tree :=
  .node (.rule .returnStatement)
    [.mark .returnWord, value.tree, .leaf .semicolon terminator]

def armTree (condition : Expr) (inner : Tree) : Tree :=
  .node (.rule .conditionBlock)
    [.mark .lparen, condition.tree, .mark .rparen, .mark .lbrace, inner, .mark .rbrace]

mutual
def Stmt.tree : Stmt → Tree
  | .update target value terminator =>
    .node (.stmt .updateExpr)
      [variableTree target, .mark .assign, value.tree, .leaf .semicolon terminator]
  | .temp sort name value terminator =>
    .node (.stmt sort.form)
      [.mark sort.kind, tempVarTree name, .mark .assign, value.tree, .leaf .semicolon terminator]
  | .ret value terminator => .node (.stmt .ret) [returnTree value terminator]
  | .branch condition body rest =>
    .node (.stmt .branch)
      (.mark .ifWord :: armTree condition (.node (.rule .aluBody) body.trees) :: rest.trees)
  | .assertFalse => .node (.stmt .assertFalse) [.mark .assertFalse]
def Body.trees : Body → List Tree
  | .last s => [s.tree]
  | .cons s rest => s.tree :: rest.trees
def Else.trees : Else → List Tree
  | .none => []
  | .elif condition body rest =>
    .mark .elifWord :: armTree condition (.node (.rule .aluBody) body.trees) :: rest.trees
  | .otherwise body =>
    [.mark .elseWord, .mark .lbrace, .node (.rule .aluBody) body.trees, .mark .rbrace]
end

def Body.tree (b : Body) : Tree :=
  .node (.rule .aluBody) b.trees

namespace Section

def nameTree (s : Section) (name : String) : Tree :=
  .node (.rule s.nameRule) [.leaf .ident name]

def namesTree (s : Section) : List String → Tree
  | [] => .node (.singleName s) []
  | [name] => .node (.singleName s) [s.nameTree name]
  | name :: rest => .node (.severalNames s) [s.nameTree name, .mark .comma, s.namesTree rest]

def seqTree (s : Section) (names : List String) : Tree :=
  .node (.rule s.seqRule) (if names.isEmpty then [] else [s.namesTree names])

def words : Section → List Kind
  | stateVars => [.state, .variablesWord]
  | holeVars => [.hole, .variablesWord]
  | packetFields => [.packet, .fields]

def defTree (s : Section) (names : List String) : Tree :=
  .node (.rule s.defRule)
    (s.words.map Tree.mark ++
      [.mark .colon, .mark .lbrace, s.seqTree names, .mark .rbrace])

end Section

def Indicator.tree : Indicator → Tree
  | .stateless =>
    .node (.rule .stateIndicator)
      [.mark .typeWord, .mark .colon, .node (.rule .stateless) [.mark .stateless]]
  | .stateful =>
    .node (.rule .stateIndicator)
      [.mark .typeWord, .mark .colon, .node (.rule .stateful) [.mark .stateful]]
  | .unknown words => .node (.rule .stateIndicator) (words.map fun w => .leaf .ident w)

def Description.tree (d : Description) : Tree :=
  .node (.rule .alu)
    [d.indicator.tree, Section.stateVars.defTree d.stateVars, Section.holeVars.defTree d.holeVars,
     Section.packetFields.defTree d.packetFields, d.body.tree]

end SwitchSynth.Alu
