/-!
# Tokens of the ALU description language

A token has a `Kind`, the text it was written with, and the position of its first character. Most kinds
have one fixed spelling; the others are blank space, line comments, identifiers and numbers. The order of
`Kind.all` is the order in which kinds are preferred when two of them match the same text.
-/

namespace SwitchSynth.Alu

/-- The kinds of token, in order of preference. -/
inductive Kind where
  | stateless | stateful | typeWord | colon | state | variablesWord | lbrace | rbrace | comma
  | hole | packet | fields | lparen | rparen | assign | semicolon | intWord | bitWord
  | plus | minus | star | slash
  | blank | comment
  | relOp | boolOp | arithOp | computeAlu | mux5 | mux4 | mux3 | mux2 | opt | constant | trueWord
  | ifWord | elseWord | elifWord | returnWord
  | equal | greater | less | greaterEqual | lessEqual | notEqual | or | and | not | question
  | assertFalse
  | ident | number
  deriving DecidableEq, Repr, Inhabited

namespace Kind

def all : List Kind :=
  [stateless, stateful, typeWord, colon, state, variablesWord, lbrace, rbrace, comma,
   hole, packet, fields, lparen, rparen, assign, semicolon, intWord, bitWord,
   plus, minus, star, slash, blank, comment,
   relOp, boolOp, arithOp, computeAlu, mux5, mux4, mux3, mux2, opt, constant, trueWord,
   ifWord, elseWord, elifWord, returnWord,
   equal, greater, less, greaterEqual, lessEqual, notEqual, or, and, not, question,
   assertFalse, ident, number]

/-- The one spelling of a kind that has only one. The words `int` and `bit` include the space after
them, `C()` and `assert(false);` are written without any space. -/
def spelling : Kind → Option String
  | stateless => some "stateless" | stateful => some "stateful" | typeWord => some "type"
  | colon => some ":" | state => some "state" | variablesWord => some "variables"
  | lbrace => some "\x7b" | rbrace => some "\x7d" | comma => some ","
  | hole => some "hole" | packet => some "packet" | fields => some "fields"
  | lparen => some "(" | rparen => some ")" | assign => some "=" | semicolon => some ";"
  | intWord => some "int " | bitWord => some "bit "
  | plus => some "+" | minus => some "-" | star => some "*" | slash => some "/"
  | relOp => some "rel_op" | boolOp => some "bool_op" | arithOp => some "arith_op"
  | computeAlu => some "compute_alu" | mux5 => some "Mux5" | mux4 => some "Mux4"
  | mux3 => some "Mux3" | mux2 => some "Mux2" | opt => some "Opt" | constant => some "C()"
  | trueWord => some "True" | ifWord => some "if" | elseWord => some "else" | elifWord => some "elif"
  | returnWord => some "return" | equal => some "==" | greater => some ">" | less => some "<"
  | greaterEqual => some ">=" | lessEqual => some "<=" | notEqual => some "!="
  | or => some "||" | and => some "&&" | not => some "!" | question => some "?"
  | assertFalse => some "assert(false);"
  | blank | comment | ident | number => none

/-- The name of a kind that the grammar gives a name of its own. -/
def symbol? : Kind → Option String
  | blank => some "WS" | comment => some "LINE_COMMENT"
  | relOp => some "RELOP" | boolOp => some "BOOLOP" | arithOp => some "ARITHOP"
  | computeAlu => some "COMPUTEALU" | mux5 => some "MUX5" | mux4 => some "MUX4"
  | mux3 => some "MUX3" | mux2 => some "MUX2" | opt => some "OPT" | constant => some "CONSTANT"
  | trueWord => some "TRUE" | ifWord => some "IF" | elseWord => some "ELSE" | elifWord => some "ELIF"
  | returnWord => some "RETURN" | equal => some "EQUAL" | greater => some "GREATER"
  | less => some "LESS" | greaterEqual => some "GREATER_OR_EQUAL"
  | lessEqual => some "LESS_OR_EQUAL" | notEqual => some "NOT_EQUAL" | or => some "OR"
  | and => some "AND" | not => some "NOT" | question => some "QUESTION"
  | assertFalse => some "ASSERT_FALSE" | ident => some "ID" | number => some "NUM"
  | _ => none

/-- The fixed spelling between quotes, or the symbol of a kind without one. -/
def quoted (k : Kind) : String :=
  match k.spelling with
  | some s => "'" ++ s ++ "'"
  | none => (k.symbol?).getD ""

/-- How a kind is shown in a listing of tokens: its symbol, or its spelling between quotes. -/
def name (k : Kind) : String :=
  (k.symbol?).getD k.quoted

/-- Blank space is kept out of sight of the parser but stays in the list of tokens. -/
def isHidden (k : Kind) : Bool :=
  k == blank

/-- The text of a token that the parser supplies itself. -/
def missingText (k : Kind) : String :=
  "<missing " ++ k.quoted ++ ">"

end Kind

/-- A place in a text: lines count from one, columns from zero, and only a line feed ends a line. -/
structure Position where
  line : Nat := 1
  column : Nat := 0
  deriving DecidableEq, Repr, Inhabited

namespace Position

def next (p : Position) (c : Char) : Position :=
  if c = '\n' then ⟨p.line + 1, 0⟩ else ⟨p.line, p.column + 1⟩

def advance (p : Position) (cs : List Char) : Position :=
  cs.foldl next p

end Position

/-- A token with its text and the position of its first character. -/
structure Token where
  kind : Kind
  text : String
  position : Position
  deriving DecidableEq, Repr, Inhabited

end SwitchSynth.Alu
