/-!
# Primitives and their helpers

A primitive is an operator whose meaning a hole decides. In a sketch each use of a primitive becomes a call
of a helper of its own, whose last parameter is the hole. What a helper returns for a value of the hole is
a `Choice`: one term for each of the values 0, 1, 2, … and one for all others.
-/

namespace SwitchSynth.Sketch

/-- Primitives that are numbered together. -/
inductive Family where
  | mux5 | mux4 | mux3 | mux2 | relOp | arithOp | opt | constant | computeAlu | boolOp
  deriving DecidableEq, Repr

namespace Family

def all : List Family :=
  [mux5, mux4, mux3, mux2, relOp, arithOp, opt, constant, computeAlu, boolOp]

/-- The name of the family's holes, without their number. -/
def holeStem : Family → String
  | mux5 => "Mux5" | mux4 => "Mux4" | mux3 => "Mux3" | mux2 => "Mux2" | relOp => "rel_op"
  | arithOp => "arith_op" | opt => "Opt" | constant => "const" | computeAlu => "compute_alu"
  | boolOp => "bool_op"

/-- The name of the family's helpers, without the name of the ALU and the number. -/
def helperStem : Family → String
  | constant => "C"
  | f => f.holeStem

def hole (f : Family) (n : Nat) : String :=
  f.holeStem ++ "_" ++ toString n

/-- The name of the hole of a family with a number, seen from outside its ALU. -/
def globalHole (f : Family) (alu : String) (n : Nat) : String :=
  alu ++ "_" ++ f.hole n ++ "_global"

def helper (f : Family) (alu : String) (n : Nat) : String :=
  alu ++ "_" ++ f.helperStem ++ "_" ++ toString n

end Family

/-- The operators whose meaning a hole decides. A three-way multiplexer may have a numeral as its last
input. -/
inductive Primitive where
  | mux5 | mux4 | mux3 | mux3Num (digits : String) | mux2 | relOp | arithOp | opt | constant
  | computeAlu | boolOp
  deriving DecidableEq, Repr

namespace Primitive

def family : Primitive → Family
  | mux5 => .mux5 | mux4 => .mux4 | mux3 => .mux3 | mux3Num _ => .mux3 | mux2 => .mux2
  | relOp => .relOp | arithOp => .arithOp | opt => .opt | constant => .constant
  | computeAlu => .computeAlu | boolOp => .boolOp

/-- The number of bits of the hole of a primitive; a constant is found by its place among the constants. -/
def width (constantBits : Int) : Primitive → Int
  | mux5 => 3 | mux4 => 2 | mux3 => 2 | mux3Num _ => 2 | mux2 => 1 | relOp => 2 | arithOp => 1
  | opt => 1 | constant => constantBits | computeAlu => 5 | boolOp => 4

def yieldsTruth : Primitive → Bool
  | relOp | boolOp => true
  | _ => false

end Primitive

/-- The comparisons of helpers. -/
inductive Comparison where
  | ne | lt | gt | eq
  deriving DecidableEq, Repr

def Comparison.text : Comparison → String
  | ne => "!=" | lt => "<" | gt => ">" | eq => "=="

/-- What a helper returns. Operands are numbered from one. -/
inductive Term where
  | operand (n : Nat)
  | numeral (digits : String)
  /-- The constant at the place given by the hole. -/
  | constant
  | sum (a b : Term)
  | difference (a b : Term)
  /-- One if the comparison holds, else zero. -/
  | compare (c : Comparison) (a b : Term)
  | falsity
  | truth
  | not (a : Term)
  | and (a b : Term)
  | or (a b : Term)
  deriving DecidableEq, Repr

namespace Term

/-- Whether a term is written without an operator. -/
def isAtom : Term → Bool
  | operand _ | numeral _ | constant | falsity | truth => true
  | _ => false

/-- The text of a term as the operand of another, in parentheses if the term has an operator. -/
def nested (t : Term) (text : String) : String :=
  if t.isAtom then text else "(" ++ text ++ ")"

/-- A term as it is written, with operands of the given name. -/
def text (stem : String) : Term → String
  | operand n => stem ++ toString n
  | numeral digits => digits
  | constant => "constant_vector[const]"
  | sum a b => a.nested (a.text stem) ++ " + " ++ b.nested (b.text stem)
  | difference a b => a.nested (a.text stem) ++ " - " ++ b.nested (b.text stem)
  | compare c a b =>
    "(" ++ a.nested (a.text stem) ++ " " ++ c.text ++ " " ++ b.nested (b.text stem) ++ ") ? 1 : 0"
  | falsity => "false"
  | truth => "true"
  | not a => "~" ++ a.nested (a.text stem)
  | and a b => a.nested (a.text stem) ++ " && " ++ b.nested (b.text stem)
  | or a b => a.nested (a.text stem) ++ " || " ++ b.nested (b.text stem)

end Term

/-- What a helper returns for each value of its hole. -/
structure Choice where
  cases : List Term
  otherwise : Term
  deriving DecidableEq, Repr

def Choice.select (c : Choice) (n : Nat) : Term :=
  c.cases[n]?.getD c.otherwise

open Term in
def Primitive.choice : Primitive → Choice
  | mux5 => ⟨[operand 1, operand 2, operand 3, operand 4], operand 5⟩
  | mux4 => ⟨[operand 1, operand 2, operand 3], operand 4⟩
  | mux3 => ⟨[operand 1, operand 2], operand 3⟩
  | mux3Num digits => ⟨[operand 1, operand 2], numeral digits⟩
  | mux2 => ⟨[operand 1], operand 2⟩
  | relOp =>
    ⟨[compare .ne (operand 1) (operand 2), compare .lt (operand 1) (operand 2),
      compare .gt (operand 1) (operand 2)],
     compare .eq (operand 1) (operand 2)⟩
  | arithOp => ⟨[sum (operand 1) (operand 2)], difference (operand 1) (operand 2)⟩
  | opt => ⟨[operand 1], numeral "0"⟩
  | constant => ⟨[], Term.constant⟩
  | computeAlu =>
    ⟨[sum (operand 1) (operand 2), difference (operand 1) (operand 2),
      difference (operand 2) (operand 1), operand 2, operand 1, numeral "0"],
     numeral "1"⟩
  | boolOp =>
    ⟨[falsity, not (or (operand 1) (operand 2)), and (not (operand 1)) (operand 2),
      not (operand 1), and (operand 1) (not (operand 2)), not (operand 2),
      and (operand 1) (operand 2), not (and (operand 1) (operand 2)),
      and (operand 1) (operand 2), not (and (operand 1) (operand 2)), operand 2,
      or (not (operand 1)) (operand 2), operand 1, or (operand 1) (not (operand 2)),
      or (operand 1) (operand 2)],
     truth⟩

/-- The use of a primitive with its number within the family. -/
structure Helper where
  primitive : Primitive
  number : Nat
  deriving DecidableEq, Repr

namespace Helper

def hole (h : Helper) : String :=
  h.primitive.family.hole h.number

/-- The hole that a helper reads, seen from outside the ALU. -/
def globalHole (alu : String) (h : Helper) : String :=
  h.primitive.family.globalHole alu h.number

def name (alu : String) (h : Helper) : String :=
  h.primitive.family.helper alu h.number

/-- One line for each case: `if (s == 0) return …;`. -/
def lines (selector stem : String) (c : Choice) : String :=
  let one := fun ((t, i) : Term × Nat) =>
    (if i = 0 then "    if (" else "    else if (") ++ selector ++ " == " ++ toString i ++
      ") return " ++ t.text stem ++ ";\n"
  String.join (c.cases.zipIdx.map one) ++ "    else return " ++ c.otherwise.text stem ++ ";\n"

/-- How the cases of a helper are set in blocks. -/
structure Blocks where
  indent : String
  firstIndent : String
  bodyIndent : String
  /-- Remarks in front of some cases. -/
  remark : Nat → String := fun _ => ""

def blocks (b : Blocks) (stem : String) (c : Choice) : String :=
  let one := fun ((t, i) : Term × Nat) =>
    b.indent ++ (if i = 0 then "if" else "\x7d else if") ++ " (opcode == " ++ toString i ++
      ") \x7b\n" ++ b.remark i ++ (if i = 0 then b.firstIndent else b.bodyIndent) ++ "return " ++
      t.text stem ++ ";\n"
  String.join (c.cases.zipIdx.map one) ++ b.indent ++ "\x7d else \x7b\n" ++ b.bodyIndent ++
    "return " ++ c.otherwise.text stem ++ ";\n" ++ b.indent ++ "\x7d\n"

/-- Why two cases of the boolean operator are not exclusive disjunctions. -/
def exclusiveRemark (i : Nat) : String :=
  if i = 6 ∨ i = 9 then
    "    // This used to be XOR; it's been switched to AND because\n" ++
      "    // the Tofino compiler doesn't accept it (issue #20).\n"
  else ""

def text (alu : String) (h : Helper) : String :=
  let name := h.name alu
  let c := h.primitive.choice
  match h.primitive with
  | .mux5 =>
    "int " ++ name ++ "(int op1, int op2, int op3, int op4, int op5,\n" ++
      "                                 int opcode) \x7b\n" ++ lines "opcode" "op" c ++ "\x7d\n"
  | .mux4 =>
    "int " ++ name ++ "(int op1, int op2, int op3, int op4,\n" ++
      "                                 int opcode) \x7b\n" ++ lines "opcode" "op" c ++ "\x7d\n"
  | .mux3 =>
    "int " ++ name ++ "(int op1, int op2, int op3, int choice) \x7b\n" ++ lines "choice" "op" c ++
      "    \x7d \n\n"
  | .mux3Num _ =>
    "int " ++ name ++ "(int op1, int op2, int choice) \x7b\n" ++ lines "choice" "op" c ++ "\x7d\n\n"
  | .mux2 =>
    "int " ++ name ++ "(int op1, int op2, int choice) \x7b\n" ++ lines "choice" "op" c ++
      "    \x7d \n\n"
  | .constant =>
    "int " ++ name ++ "(int const) \x7b\n    return " ++ c.otherwise.text "" ++ ";\n    \x7d\n\n"
  | .relOp =>
    "int " ++ name ++ "(int operand1, int operand2, int opcode) \x7b\n" ++
      blocks ⟨"    ", "      ", "      ", fun _ => ""⟩ "operand" c ++ "    \x7d \n\n"
  | .boolOp =>
    "bit " ++ name ++ " (bit op1, bit op2, int opcode) \x7b\n" ++
      blocks ⟨"  ", "    ", "    ", exclusiveRemark⟩ "op" c ++ "\x7d\n\n"
  | .arithOp =>
    "int " ++ name ++ "(int operand1, int operand2, int opcode) \x7b\n" ++
      blocks ⟨"    ", "      ", "      ", fun _ => ""⟩ "operand" c ++ "    \x7d\n\n"
  | .opt =>
    "int " ++ name ++ "(int op1, int enable) \x7b\n    if (enable != 0) return " ++
      c.otherwise.text "op" ++ ";\n    return " ++ (c.select 0).text "op" ++ ";\n    \x7d \n\n"
  | .computeAlu =>
    "int " ++ name ++ "(int op1, int op2, int opcode) \x7b\n" ++
      blocks ⟨"    ", "        ", "      ", fun _ => ""⟩ "op" c ++ "\x7d\n"

end Helper

end SwitchSynth.Sketch
