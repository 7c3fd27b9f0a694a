import SwitchSynth.Alu.Tree

/-!
# Parts of a node by name

A node of a labelled tree names the parts its rule can have: a rule or a token that has a name of its own.
A part that can occur more than once is a list.
-/

namespace SwitchSynth.Alu

/-- What a named part of a node is. -/
inductive Part where
  | rule (r : Rule)
  | token (k : Kind)
  deriving DecidableEq, Repr

namespace Part

def name : Part → String
  | rule r => r.name
  | token k => k.name

def holds : Part → Tree → Bool
  | rule r, .node label _ => label.toRule == r
  | token k, .leaf k' _ => k == k'
  | _, _ => false

end Part

/-- A part that a node may have, once or repeatedly. -/
structure Accessor where
  part : Part
  repeated : Bool := false
  deriving DecidableEq, Repr

/-- The value of an accessor at a node. -/
inductive Access where
  | one (text : Option String)
  | many (texts : List String)
  deriving DecidableEq, Repr

def Accessor.read (a : Accessor) (children : List Tree) : Access :=
  let texts := (children.filter a.part.holds).map Tree.text
  if a.repeated then .many texts else .one texts.head?

private def one (r : Rule) : Accessor := ⟨.rule r, false⟩

private def many (r : Rule) : Accessor := ⟨.rule r, true⟩

private def token (k : Kind) : Accessor := ⟨.token k, false⟩

def ExprForm.accessors : ExprForm → List Accessor
  | .var => [one .variableName]
  | .withOp => [many .expr]
  | .withParen => [one .expr]
  | .num => [token .number]
  | .equals => [many .expr, token .equal]
  | .greater => [many .expr, token .greater]
  | .greaterEqual => [many .expr, token .greaterEqual]
  | .less => [many .expr, token .less]
  | .lessEqual => [many .expr, token .lessEqual]
  | .notEqual => [many .expr, token .notEqual]
  | .and => [many .expr, token .and]
  | .or => [many .expr, token .or]
  | .not => [token .not, one .expr]
  | .truth => [token .trueWord]
  | .ternary => [many .expr, token .question]
  | .mux2 => [token .mux2, many .expr]
  | .mux3WithNum => [token .mux3, many .expr, token .number]
  | .mux3 => [token .mux3, many .expr]
  | .mux4 => [token .mux4, many .expr]
  | .mux5 => [token .mux5, many .expr]
  | .opt => [token .opt, one .expr]
  | .constant => [token .constant]
  | .arithOp => [token .arithOp, many .expr]
  | .computeAlu => [token .computeAlu, many .expr]
  | .relOp => [token .relOp, many .expr]
  | .boolOp => [token .boolOp, many .expr]

def StmtForm.accessors : StmtForm → List Accessor
  | .updateExpr => [one .variableName, one .expr]
  | .updateTempInt | .updateTempBit => [one .tempVar, one .expr]
  | .ret => [one .returnStatement]
  | .branch =>
    [token .ifWord, many .conditionBlock, ⟨.token .elifWord, true⟩, token .elseWord, one .aluBody]
  | .assertFalse => [token .assertFalse]

def Label.accessors : Label → List Accessor
  | .expr form => form.accessors
  | .stmt form => form.accessors
  | .singleName s => [one s.nameRule]
  | .severalNames s => [one s.nameRule, one s.namesRule]
  | .rule .stateVar | .rule .tempVar | .rule .packetField | .rule .holeVar | .rule .variableName =>
    [token .ident]
  | .rule .stateIndicator => [one .stateless, one .stateful]
  | .rule .stateVarDef => [one .stateVarSeq]
  | .rule .holeDef => [one .holeSeq]
  | .rule .packetFieldDef => [one .packetFieldSeq]
  | .rule .stateVarSeq => [one .stateVars]
  | .rule .holeSeq => [one .holeVars]
  | .rule .packetFieldSeq => [one .packetFields]
  | .rule .aluBody => [many .statement]
  | .rule .conditionBlock => [one .expr, one .aluBody]
  | .rule .returnStatement => [token .returnWord, one .expr]
  | .rule .alu =>
    [one .stateIndicator, one .stateVarDef, one .holeDef, one .packetFieldDef, one .aluBody]
  | .rule .stateless | .rule .stateful | .rule .stateVars | .rule .holeVars | .rule .packetFields
  | .rule .statement | .rule .expr => []

/-- The named parts of every node of a tree, with their values. -/
def Tree.accesses (t : Tree) : List (Label × List (String × Access)) :=
  t.nodes.map fun (label, children) =>
    (label, label.accessors.map fun a => (a.part.name, a.read children))

end SwitchSynth.Alu
