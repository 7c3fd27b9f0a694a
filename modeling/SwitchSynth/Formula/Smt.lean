import SwitchSynth.Formula.Quantified

/-!
# Formulas in SMT-LIB

Reads the assertions of a text in SMT-LIB over integers: quantifiers at the root of an assertion, `let`,
connectives, arithmetic and comparisons. Commands other than assertions and declarations say nothing here.
-/

namespace SwitchSynth.Formula.Smt

/-- Nested lists of words. -/
inductive SExpr where
  | atom (s : String)
  | list (xs : List SExpr)
  deriving Repr, Inhabited

inductive Token where
  | left | right
  | atom (s : String)
  deriving DecidableEq, Repr

def endsWord (c : Char) : Bool :=
  c.isWhitespace || c == '(' || c == ')' || c == ';' || c == '"' || c == '|'

/-- What the reader is in the middle of. -/
inductive Reading where
  | nothing
  | word (reversed : List Char)
  | quoted (reversed : List Char)
  | comment

def Reading.finish : Reading → List Token
  | word reversed => [.atom (String.ofList reversed.reverse)]
  | _ => []

/-- The tokens of a text; none if a quoted name does not end. -/
def tokens : Reading → List Char → Option (List Token)
  | .quoted _, [] => none
  | r, [] => some r.finish
  | .comment, c :: cs => if c = '\n' then tokens .nothing cs else tokens .comment cs
  | .quoted reversed, c :: cs =>
    if c = '|' then (tokens .nothing cs).map (.atom (String.ofList reversed.reverse) :: ·)
    else tokens (.quoted (c :: reversed)) cs
  | .word reversed, c :: cs =>
    if endsWord c then
      (next c cs).map ((Reading.word reversed).finish ++ ·)
    else tokens (.word (c :: reversed)) cs
  | .nothing, c :: cs =>
    if endsWord c then next c cs else tokens (.word [c]) cs
where
  /-- The tokens from a character that ends a word. -/
  next (c : Char) (cs : List Char) : Option (List Token) :=
    if c = '(' then (tokens .nothing cs).map (.left :: ·)
    else if c = ')' then (tokens .nothing cs).map (.right :: ·)
    else if c = ';' then tokens .comment cs
    else if c = '|' then tokens (.quoted []) cs
    else if c = '"' then none
    else tokens .nothing cs

/-- Nested lists from tokens. The stack holds the lists that are open, each in reverse. -/
def nest : List (List SExpr) → List Token → Option (List SExpr)
  | [done], [] => some done.reverse
  | _, [] => none
  | stack, .left :: ts => nest ([] :: stack) ts
  | inner :: outer :: stack, .right :: ts => nest ((.list inner.reverse :: outer) :: stack) ts
  | _, .right :: _ => none
  | inner :: stack, .atom s :: ts => nest ((.atom s :: inner) :: stack) ts
  | [], .atom _ :: _ => none

def readAll (text : String) : Option (List SExpr) := do
  nest [[]] (← tokens .nothing text.toList)

/-- Building terms, which may fail. -/
abbrev Read := StateT Graph (Except Error)

/-- The terms that names stand for, innermost first. -/
abbrev Scope := List (String × Term)

def build (b : Build Term) : Read Term := do
  let (t, g) := b.run (← get)
  set g
  return t

def needBools (ts : List Term) : Read Unit :=
  if ts.all fun t => t.kind = .bool then pure () else throw .illFormed

def needInts (ts : List Term) : Read Unit :=
  if ts.all fun t => t.kind ≠ .bool then pure () else throw .illFormed

def chain (op : Op) : List Term → Read Term
  | [a, b] => build (Build.app op .bool [a, b])
  | ts => do
    if ts.length < 2 then throw .illFormed
    let pairs ← (ts.zip (ts.drop 1)).mapM fun (a, b) => build (Build.app op .bool [a, b])
    build (Build.app .and .bool pairs)

def nestRight (op : Op) : List Term → Read Term
  | [] | [_] => throw .illFormed
  | [a, b] => build (Build.app op .bool [a, b])
  | a :: rest => do
    let b ← nestRight op rest
    build (Build.app op .bool [a, b])

def difference : List Term → Read Term
  | [] => throw .illFormed
  | [a] => build (Build.app .sub .int [a])
  | a :: rest => rest.foldlM (fun a b => build (Build.app .sub .int [a, b])) a

def applied (op : String) (ts : List Term) : Read Term := do
  match op with
  | "and" => needBools ts; build (Build.app .and .bool ts)
  | "or" => needBools ts; build (Build.app .or .bool ts)
  | "not" =>
    needBools ts
    if ts.length = 1 then build (Build.app .not .bool ts) else throw .illFormed
  | "xor" => needBools ts; nestRight .xor ts
  | "=>" | "implies" => needBools ts; nestRight .implies ts
  | "=" =>
    if ts.all (·.kind = .bool) || ts.all (·.kind ≠ .bool) then chain .eq ts else throw .illFormed
  | "<" => needInts ts; chain .lt ts
  | "<=" => needInts ts; chain .le ts
  | ">" => needInts ts; chain .gt ts
  | ">=" => needInts ts; chain .ge ts
  | "+" => needInts ts; build (Build.app .add .int ts)
  | "*" => needInts ts; build (Build.app .mul .int ts)
  | "-" => needInts ts; difference ts
  | "div" | "mod" =>
    needInts ts
    if ts.length = 2 then build (Build.app (if op = "div" then .div else .mod) .int ts)
    else throw .illFormed
  | "ite" =>
    match ts with
    | [c, a, b] =>
      needBools [c]
      if a.kind = .bool ∧ b.kind = .bool then build (Build.app .ite .bool ts)
      else
        needInts [a, b]
        build (Build.app .ite .int ts)
    | _ => throw .illFormed
  | _ => throw .illFormed

/-- A word by itself: a numeral, a truth value or a name. -/
def atom (scope : Scope) (s : String) : Read Term := do
  match scope.lookup s with
  | some t => return t
  | none =>
    if s = "true" then build (Build.truth true)
    else if s = "false" then build (Build.truth false)
    else if !s.isEmpty && s.toList.all Char.isDigit then
      build (Build.numeral (s.toList.foldl (fun n c => 10 * n + (c.toNat - '0'.toNat : Nat)) 0))
    else throw .illFormed

mutual
def term (scope : Scope) : SExpr → Read Term
  | .atom s => atom scope s
  | .list [.atom "let", .list bindings, body] => do
    let inner ← bind scope bindings
    term (inner ++ scope) body
  | .list (.atom op :: arguments) => do applied op (← terms scope arguments)
  | .list _ => throw .illFormed
def terms (scope : Scope) : List SExpr → Read (List Term)
  | [] => return []
  | x :: xs => do
    let t ← term scope x
    return t :: (← terms scope xs)
def bind (scope : Scope) : List SExpr → Read Scope
  | [] => return []
  | .list [.atom name, value] :: rest => do
    let t ← term scope value
    return (name, t) :: (← bind scope rest)
  | _ :: _ => throw .illFormed
end

def binders : List SExpr → Option (List String)
  | [] => some []
  | .list [.atom name, .atom "Int"] :: rest => (binders rest).map (name :: ·)
  | _ :: _ => none

def scopeOf (names : List String) : Read Scope :=
  names.mapM fun name => do return (name, ← build (Build.var name))

/-- What is asserted: a quantified formula, or another one. -/
inductive Asserted where
  | quantified (f : Quantified)
  | plain

def asserted (declared : List String) (e : SExpr) : Except Error Asserted := do
  match e with
  | .list [.atom quantifier, .list bs, body] =>
    if quantifier = "forall" ∨ quantifier = "exists" then
      match binders bs with
      | none => throw .illFormed
      | some names =>
        if names.isEmpty then throw .illFormed
        let read : Read Term := do
          let bound ← scopeOf names
          let free ← scopeOf declared
          let t ← term (bound ++ free) body
          needBools [t]
          return t
        let (t, graph) ← read.run #[]
        return .quantified (Quantified.closing (quantifier == "forall") names graph t.node)
    else plain declared e
  | e => plain declared e
where
  /-- Check a formula without a quantifier. -/
  plain (declared : List String) (e : SExpr) : Except Error Asserted := do
    let read : Read Unit := do
      let t ← term (← scopeOf declared) e
      needBools [t]
    let _ ← read.run #[]
    return .plain

/-- Commands that say nothing here. -/
def silentCommands : List String :=
  ["check-sat", "get-model", "set-logic", "set-info", "set-option", "push", "pop", "get-value"]

def commands (declared : List String) : List SExpr → Except Error (List Asserted)
  | [] => return []
  | .list [.atom "assert", e] :: rest => do
    let a ← asserted declared e
    return a :: (← commands declared rest)
  | .list (.atom "exit" :: _) :: _ => return []
  | .list [.atom "declare-const", .atom name, .atom "Int"] :: rest =>
    commands (name :: declared) rest
  | .list [.atom "declare-fun", .atom name, .list [], .atom "Int"] :: rest =>
    commands (name :: declared) rest
  | .list (.atom command :: _) :: rest =>
    if command ∈ silentCommands then commands declared rest else throw .illFormed
  | _ :: _ => throw .illFormed

def formula (file text : String) : Except Error Quantified := do
  match readAll text with
  | none => throw .illFormed
  | some es =>
    match ← commands [] es with
    | [.quantified f] => return f
    | [.plain] => throw (.check .notQuantified)
    | _ => throw (.check (.assertionCount file))

end SwitchSynth.Formula.Smt
