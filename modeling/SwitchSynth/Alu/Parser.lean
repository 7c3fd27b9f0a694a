import SwitchSynth.Alu.Syntax

/-!
# Reading syntax from tokens

Recursive descent over the visible tokens, with the operator levels of `BinaryOp.level` deciding how
infix operators nest. A parser takes as much as it can and leaves the rest. It fails at the first token
with which what was read so far is no longer the start of anything it could read.

Recursion is bounded by a number that `fuelFor` takes from the count of tokens: no step is taken without
either reading a token or going one level deeper at the same token, and the levels are few.
-/

namespace SwitchSynth.Alu

/-- What a parser needs at the place where it fails. -/
inductive Wanted where
  | mark (kind : Kind)
  | oneOf (kinds : List Kind)
  deriving DecidableEq, Repr

/-- A failure, with the tokens from the unsuitable one on; there are none at the end of the text. -/
structure Failure where
  rest : List Token
  wanted : Wanted
  deriving DecidableEq, Repr

abbrev Parse (α : Type) := StateT (List Token) (Except Failure) α

namespace Parse

def fail {α : Type} (wanted : Wanted) : Parse α :=
  fun ts => .error ⟨ts, wanted⟩

def peek? : Parse (Option Kind) :=
  fun ts => .ok (ts.head?.map Token.kind, ts)

/-- Take the next token, which has to be of a given kind, and return its text. -/
def expect (k : Kind) : Parse String
  | t :: ts => if t.kind = k then .ok (t.text, ts) else .error ⟨t :: ts, .mark k⟩
  | [] => .error ⟨[], .mark k⟩

/-- Take the next token if it is of a given kind. -/
def accept (k : Kind) : Parse Bool
  | t :: ts => if t.kind = k then .ok (true, ts) else .ok (false, t :: ts)
  | [] => .ok (false, [])

def exprStarts : List Kind :=
  [.ident, .lparen, .number, .not, .trueWord, .mux2, .mux3, .mux4, .mux5, .opt, .constant,
   .arithOp, .computeAlu, .relOp, .boolOp]

def stmtStarts : List Kind :=
  [.ident, .intWord, .bitWord, .returnWord, .ifWord, .assertFalse]

def twoArgs (arg : Parse Expr) : Parse (Expr × Expr) := do
  let _ ← expect .lparen
  let a ← arg
  let _ ← expect .comma
  let b ← arg
  let _ ← expect .rparen
  return (a, b)

def threeArgs (arg : Parse Expr) : Parse (Expr × Expr × Expr) := do
  let _ ← expect .lparen
  let a ← arg
  let _ ← expect .comma
  let b ← arg
  let _ ← expect .comma
  let c ← arg
  let _ ← expect .rparen
  return (a, b, c)

def fourArgs (arg : Parse Expr) : Parse (Expr × Expr × Expr × Expr) := do
  let _ ← expect .lparen
  let a ← arg
  let _ ← expect .comma
  let b ← arg
  let _ ← expect .comma
  let c ← arg
  let _ ← expect .comma
  let d ← arg
  let _ ← expect .rparen
  return (a, b, c, d)

def fiveArgs (arg : Parse Expr) : Parse (Expr × Expr × Expr × Expr × Expr) := do
  let _ ← expect .lparen
  let a ← arg
  let _ ← expect .comma
  let b ← arg
  let _ ← expect .comma
  let c ← arg
  let _ ← expect .comma
  let d ← arg
  let _ ← expect .comma
  let e ← arg
  let _ ← expect .rparen
  return (a, b, c, d, e)

/-- A three-way multiplexer; a plain number as its last operand gives it a form of its own. -/
def mux3Of (a b : Expr) : Expr → Expr
  | .num digits => .mux3Num a b digits
  | c => .mux3 a b c

mutual
/-- An expression whose infix operators all have at least level `p`. -/
def exprAt : Nat → Nat → Parse Expr
  | 0, _ => fail (.oneOf [])
  | fuel + 1, p => do
    let left ← primary fuel
    climb fuel p left
/-- An expression that does not start with an operand of an infix operator. -/
def primary : Nat → Parse Expr
  | 0 => fail (.oneOf [])
  | fuel + 1 => do
    match ← peek? with
    | some .ident => return .var (← expect .ident)
    | some .number => return .num (← expect .number)
    | some .trueWord => let _ ← expect .trueWord; return .truth
    | some .constant => let _ ← expect .constant; return .const
    | some .lparen =>
      let _ ← expect .lparen
      let inner ← exprAt fuel 0
      let close ← expect .rparen
      return .paren inner close
    | some .not => let _ ← expect .not; return .not (← exprAt fuel notLevel)
    | some .mux2 =>
      let _ ← expect .mux2
      let (a, b) ← twoArgs (exprAt fuel 0)
      return .mux2 a b
    | some .mux3 =>
      let _ ← expect .mux3
      let (a, b, c) ← threeArgs (exprAt fuel 0)
      return mux3Of a b c
    | some .mux4 =>
      let _ ← expect .mux4
      let (a, b, c, d) ← fourArgs (exprAt fuel 0)
      return .mux4 a b c d
    | some .mux5 =>
      let _ ← expect .mux5
      let (a, b, c, d, e) ← fiveArgs (exprAt fuel 0)
      return .mux5 a b c d e
    | some .opt =>
      let _ ← expect .opt
      let _ ← expect .lparen
      let operand ← exprAt fuel 0
      let _ ← expect .rparen
      return .opt operand
    | some .arithOp =>
      let _ ← expect .arithOp
      let (a, b) ← twoArgs (exprAt fuel 0)
      return .arith a b
    | some .computeAlu =>
      let _ ← expect .computeAlu
      let (a, b) ← twoArgs (exprAt fuel 0)
      return .compute a b
    | some .relOp =>
      let _ ← expect .relOp
      let (a, b) ← twoArgs (exprAt fuel 0)
      return .rel a b
    | some .boolOp =>
      let _ ← expect .boolOp
      let (a, b) ← twoArgs (exprAt fuel 0)
      return .bool a b
    | _ => fail (.oneOf exprStarts)
/-- Go on from a complete expression with operators of at least level `p`. -/
def climb : Nat → Nat → Expr → Parse Expr
  | 0, _, _ => fail (.oneOf [])
  | fuel + 1, p, left => do
    match ← peek? with
    | none => return left
    | some .question =>
      if p ≤ ternaryLevel then do
        let _ ← expect .question
        let yes ← exprAt fuel 0
        let _ ← expect .colon
        let no ← exprAt fuel (ternaryLevel + 1)
        climb fuel p (.ternary left yes no)
      else return left
    | some k =>
      match BinaryOp.ofKind? k with
      | none => return left
      | some op =>
        if p ≤ op.level then do
          let _ ← expect k
          let right ← exprAt fuel (op.level + 1)
          climb fuel p (.binary op left right)
        else return left
end

mutual
def stmt : Nat → Parse Stmt
  | 0 => fail (.oneOf [])
  | fuel + 1 => do
    match ← peek? with
    | some .ident =>
      let target ← expect .ident
      let _ ← expect .assign
      let value ← exprAt fuel 0
      return .update target value (← expect .semicolon)
    | some .intWord => temp fuel .int
    | some .bitWord => temp fuel .bit
    | some .returnWord => ret fuel
    | some .ifWord =>
      let _ ← expect .ifWord
      let (condition, body) ← arm fuel
      return .branch condition body (← orElse fuel)
    | some .assertFalse => let _ ← expect .assertFalse; return .assertFalse
    | _ => fail (.oneOf stmtStarts)
def temp : Nat → TempSort → Parse Stmt
  | 0, _ => fail (.oneOf [])
  | fuel + 1, sort => do
    let _ ← expect sort.kind
    let name ← expect .ident
    let _ ← expect .assign
    let value ← exprAt fuel 0
    return .temp sort name value (← expect .semicolon)
def ret : Nat → Parse Stmt
  | 0 => fail (.oneOf [])
  | fuel + 1 => do
    let _ ← expect .returnWord
    let value ← exprAt fuel 0
    return .ret value (← expect .semicolon)
def arm : Nat → Parse (Expr × Body)
  | 0 => fail (.oneOf [])
  | fuel + 1 => do
    let _ ← expect .lparen
    let condition ← exprAt fuel 0
    let _ ← expect .rparen
    let _ ← expect .lbrace
    let inner ← body fuel
    let _ ← expect .rbrace
    return (condition, inner)
def orElse : Nat → Parse Else
  | 0 => fail (.oneOf [])
  | fuel + 1 => do
    match ← peek? with
    | some .elifWord =>
      let _ ← expect .elifWord
      let (condition, inner) ← arm fuel
      return .elif condition inner (← orElse fuel)
    | some .elseWord =>
      let _ ← expect .elseWord
      let _ ← expect .lbrace
      let inner ← body fuel
      let _ ← expect .rbrace
      return .otherwise inner
    | _ => return .none
def body : Nat → Parse Body
  | 0 => fail (.oneOf [])
  | fuel + 1 => do
    let s ← stmt fuel
    match ← peek? with
    | some k => if k ∈ stmtStarts then return .cons s (← body fuel) else return .last s
    | none => return .last s
end

def names : Nat → Parse (List String)
  | 0 => fail (.oneOf [.ident])
  | fuel + 1 => do
    match ← peek? with
    | some .ident =>
      let name ← expect .ident
      if ← accept .comma then return name :: (← names fuel) else return [name]
    | _ => fail (.oneOf [.ident])

/-- Names with commas between them, or nothing before a closing brace. -/
def nameSeq (fuel : Nat) : Parse (List String) := do
  match ← peek? with
  | some .rbrace => return []
  | some .ident => names fuel
  | _ => fail (.oneOf [])

def sectionWords : Section → Kind × Kind
  | .stateVars => (.state, .variablesWord)
  | .holeVars => (.hole, .variablesWord)
  | .packetFields => (.packet, .fields)

def nameSection (fuel : Nat) (s : Section) : Parse (List String) := do
  let _ ← expect (sectionWords s).1
  let _ ← expect (sectionWords s).2
  let _ ← expect .colon
  let _ ← expect .lbrace
  let ns ← nameSeq fuel
  let _ ← expect .rbrace
  return ns

def indicator : Parse Indicator := do
  let _ ← expect .typeWord
  let _ ← expect .colon
  match ← peek? with
  | some .stateless => let _ ← expect .stateless; return .stateless
  | some .stateful => let _ ← expect .stateful; return .stateful
  | _ => fail (.oneOf [])

def declared (fuel : Nat) (ind : Indicator) : Parse Description := do
  let stateVars ← nameSection fuel .stateVars
  let holeVars ← nameSection fuel .holeVars
  let packetFields ← nameSection fuel .packetFields
  let statements ← body fuel
  return ⟨ind, stateVars, holeVars, packetFields, statements⟩

/-- A whole description. Tokens that cannot start another statement are left. -/
def description (fuel : Nat) : Parse Description := do
  declared fuel (← indicator)

end Parse

/-- A bound on the depth of recursion over a number of tokens. -/
def fuelFor (ts : List Token) : Nat :=
  4 * ts.length + 8

end SwitchSynth.Alu
