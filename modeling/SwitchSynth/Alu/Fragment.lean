import SwitchSynth.Alu.Lexer
import SwitchSynth.Alu.Parser
import SwitchSynth.Alu.Tree

/-!
# Fragments

Every rule of the grammar can be read by itself. What a rule reads is a `Fragment`, and each fragment has
a tree. `Fragment.read` starts at any rule; `Description.read` reads a whole description.
-/

namespace SwitchSynth.Alu

/-- What one rule of the grammar reads. -/
inductive Fragment where
  | tempVar (name : String)
  | variableName (name : String)
  | name (s : Section) (name : String)
  | names (s : Section) (names : List String)
  | nameSeq (s : Section) (names : List String)
  | nameSection (s : Section) (names : List String)
  | statelessWord
  | statefulWord
  | indicator (i : Indicator)
  | body (b : Body)
  | arm (condition : Expr) (b : Body)
  | stmt (s : Stmt)
  | ret (value : Expr) (terminator : String)
  | expr (e : Expr)
  | description (d : Description)

namespace Fragment

def tree : Fragment → Tree
  | tempVar n => tempVarTree n
  | variableName n => variableTree n
  | name s n => s.nameTree n
  | names s ns => s.namesTree ns
  | nameSeq s ns => s.seqTree ns
  | nameSection s ns => s.defTree ns
  | statelessWord => .node (.rule .stateless) [.mark .stateless]
  | statefulWord => .node (.rule .stateful) [.mark .stateful]
  | indicator i => i.tree
  | body b => b.tree
  | arm c b => armTree c b.tree
  | stmt s => s.tree
  | ret v t => returnTree v t
  | expr e => e.tree
  | description d => d.tree

end Fragment

open Parse in
def Rule.parser (fuel : Nat) : Rule → Parse Fragment
  | .stateVar => return .name .stateVars (← expect .ident)
  | .holeVar => return .name .holeVars (← expect .ident)
  | .packetField => return .name .packetFields (← expect .ident)
  | .tempVar => return .tempVar (← expect .ident)
  | .variableName => return .variableName (← expect .ident)
  | .stateless => do let _ ← expect .stateless; return .statelessWord
  | .stateful => do let _ ← expect .stateful; return .statefulWord
  | .stateIndicator => return .indicator (← indicator)
  | .stateVarDef => return .nameSection .stateVars (← nameSection fuel .stateVars)
  | .holeDef => return .nameSection .holeVars (← nameSection fuel .holeVars)
  | .packetFieldDef => return .nameSection .packetFields (← nameSection fuel .packetFields)
  | .stateVarSeq => return .nameSeq .stateVars (← nameSeq fuel)
  | .holeSeq => return .nameSeq .holeVars (← nameSeq fuel)
  | .packetFieldSeq => return .nameSeq .packetFields (← nameSeq fuel)
  | .stateVars => return .names .stateVars (← names fuel)
  | .holeVars => return .names .holeVars (← names fuel)
  | .packetFields => return .names .packetFields (← names fuel)
  | .aluBody => return .body (← body fuel)
  | .conditionBlock => do
    let (c, b) ← arm fuel
    return .arm c b
  | .statement => return .stmt (← stmt fuel)
  | .returnStatement => do
    let _ ← expect .returnWord
    let value ← exprAt fuel 0
    return .ret value (← expect .semicolon)
  | .expr => return .expr (← exprAt fuel 0)
  | .alu => return .description (← description fuel)

/-- The position of the token where a parser failed, or of the end of the text. -/
def Failure.position (f : Failure) (finish : Position) : Position :=
  match f.rest with
  | t :: _ => t.position
  | [] => finish

namespace Fragment

/-- Read a rule from the start of a text; the result is what was read and the tokens that are left, or
the position of the first unsuitable token. -/
def read (r : Rule) (lexed : Lexed) : Except Position (Fragment × List Token) :=
  match r.parser (fuelFor lexed.visible) lexed.visible with
  | .ok result => .ok result
  | .error f => .error (f.position lexed.finish)

end Fragment

/-- Read a whole description, or find the position of the first unsuitable token. -/
def Description.read (lexed : Lexed) : Except Position Description :=
  match Parse.description (fuelFor lexed.visible) lexed.visible with
  | .ok (d, _) => .ok d
  | .error f => .error (f.position lexed.finish)

end SwitchSynth.Alu
