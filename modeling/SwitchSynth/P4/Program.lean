import SwitchSynth.Table
import SwitchSynth.Error

/-!
# Switch programs

A switch program holds the headers and the parser, one register for each state group, and one table for
each active ALU. A stateful table runs a blackbox on the register of its state group; a stateless table
runs one instruction on the containers. The ingress control applies all tables stage by stage, the stateless
ones of a stage first.

A program is a grid of places for ALUs; the places of ALUs that are not active are empty. `Program.render`
writes it.
-/

namespace SwitchSynth.P4

def containerText (n : Int) : String :=
  "ipv4.pkt_" ++ toString n

/-- What a stateless action does: the first operand is where the result goes. -/
inductive Instruction where
  | modify (result source : String)
  | add (result left right : String)
  | subtract (result left right : String)
  | max (result left right : String)
  | min (result left right : String)
  deriving DecidableEq, Repr

namespace Instruction

def text : Instruction → String
  | modify r a => "modify_field(" ++ r ++ ", " ++ a ++ ");"
  | add r a b => "add(" ++ r ++ ", " ++ a ++ ", " ++ b ++ ");"
  | subtract r a b => "subtract(" ++ r ++ ", " ++ a ++ ", " ++ b ++ ");"
  | max r a b => "max(" ++ r ++ ", " ++ a ++ ", " ++ b ++ ");"
  | min r a b => "min(" ++ r ++ ", " ++ a ++ ", " ++ b ++ ");"

/-- The instruction of an opcode. Every opcode beyond the known ones is the last. -/
def ofOpcode (result first second immediate : String) : Int → Instruction
  | 0 => modify result first
  | 1 => modify result immediate
  | 2 => add result first second
  | 3 => add result first immediate
  | 4 => subtract result second first
  | 5 => subtract result first immediate
  | 6 => subtract result immediate first
  | 7 => max result first second
  | 8 => max result first immediate
  | 9 => min result first second
  | _ => min result first immediate

end Instruction

/-- What a stateful ALU computes: the expression of each setting, and the container of its output. -/
structure Blackbox where
  /-- The expressions, in the order of `Blackbox.settings`. -/
  expressions : List String
  output : String
  deriving Repr

def Blackbox.settings : List String :=
  ["condition_lo", "condition_hi", "update_lo_1_predicate", "update_lo_1_value",
   "update_lo_2_predicate", "update_lo_2_value", "update_hi_1_predicate", "update_hi_1_value",
   "update_hi_2_predicate", "update_hi_2_value", "output_value"]

/-- A blackbox with the expressions that a stateful ALU has left under the names of its settings. -/
def Blackbox.ofExpressions (expressions : Table String) (output : String) : Except Error Blackbox := do
  let found ← settings.mapM fun s =>
    match expressions.get? (s ++ "_expr") with
    | some e => .ok e
    | none => .error (.undefinedField (s ++ "_expr"))
  return ⟨found, output⟩

/-- The two kinds of ALU. -/
inductive Kind where
  | stateless
  | stateful
  deriving DecidableEq, Repr

/-- The place of an ALU: its kind, its stage and its number in the stage. -/
structure Place where
  kind : Kind
  stage : Nat
  number : Nat
  deriving DecidableEq, Repr

def Place.name (p : Place) (program : String) : String :=
  let kind := match p.kind with
    | .stateless => "_stateless_alu_"
    | .stateful => "_stateful_alu_"
  program ++ kind ++ toString p.stage ++ "_" ++ toString p.number

/-- The ALUs of a stage. -/
structure Stage where
  stateless : List (Option Instruction)
  stateful : List (Option Blackbox)
  deriving Repr

/-- A switch program. -/
structure Program where
  /-- The name in front of all tables. -/
  name : String
  /-- The number of state groups. -/
  groups : Nat
  stages : List Stage
  deriving Repr

def taken {α : Type} (places : List (Option α)) : List Nat :=
  (places.zipIdx.filter (·.1.isSome)).map Prod.snd

namespace Program

/-- The places of the active ALUs: stage by stage, in each the stateless ones first. -/
def tables (p : Program) : List Place :=
  p.stages.zipIdx.flatMap fun (s, i) =>
    (taken s.stateless).map (⟨.stateless, i, ·⟩) ++ (taken s.stateful).map (⟨.stateful, i, ·⟩)

/-- The pragmas that lift all dependencies between tables. -/
def pragmas (p : Program) : String :=
  String.join (p.tables.map fun t =>
    "@pragma ignore_table_dependency " ++ t.name p.name ++ "_table\n")

/-- One row of a blackbox; the values stand in a column. -/
def settingRow (label value : String) : String :=
  "    " ++ String.ofList (label.toList.rightpad 26 ' ') ++ ": " ++ value ++ ";\n"

/-- The rows of a blackbox. The output is always given. -/
def settingRows (b : Blackbox) : String :=
  let rows := Blackbox.settings.zip b.expressions
  String.join ((rows.dropLast ++ [("output_predicate", "1")] ++ rows.getLast?.toList).map
    fun (label, value) => settingRow label value)

/-- The table of an ALU; `gap` stands before the name of its default action. -/
def tableText (p : Program) (place : Place) (gap : String) : String :=
  let own := place.name p.name
  p.pragmas ++ "\n@pragma stage " ++ toString place.stage ++ "\ntable " ++ own ++ "_table \x7b\n" ++
    "    actions \x7b\n        " ++ own ++ "_action;\n    \x7d\n" ++
    "    default_action:" ++ gap ++ own ++ "_action;\n\x7d\n"

/-- The blackbox, the action and the table of a stateful ALU. -/
def statefulText (p : Program) (place : Place) (b : Blackbox) : String :=
  let own := place.name p.name
  "\n// Stateful ALU blackbox\nblackbox stateful_alu " ++ own ++ "_blackbox \x7b\n    \n" ++
    settingRow "reg" ("reg_" ++ toString place.number) ++ settingRows b ++
    settingRow "output_dst" b.output ++
    "    \n" ++
    "    initial_register_lo_value : 0; // Magic value TODO: needs to be changed.\n" ++
    "    initial_register_hi_value : 0;\n\n    \n\x7d\n\n" ++
    "// Stateful ALU Action\naction " ++ own ++ "_action () \x7b\n" ++
    "    " ++ own ++ "_blackbox.execute_stateful_alu(0);\n" ++
    "    // TODO: Replace 0 with appropriate value for array-based registers. The\n" ++
    "    // appropriate value can be determined by parsing the .c file using the\n" ++
    "    // Domino compiler.\n\x7d\n\n" ++
    "// Stateful ALU table\n" ++ p.tableText place " "

/-- The action and the table of a stateless ALU. -/
def statelessText (p : Program) (place : Place) (i : Instruction) : String :=
  "\n// Stateless ALU action\n\n\n\n\n\naction " ++ place.name p.name ++
    "_action () \x7b\n    \n    \n    " ++ i.text ++ "\n    \n\x7d\n\n" ++
    "// Stateless ALU table\n" ++ p.tableText place "  "

def placeText {α : Type} (write : Place → α → String) (kind : Kind) (stage : Nat)
    (places : List (Option α)) (before after : String) : String :=
  String.join (places.zipIdx.map fun (content, number) =>
    before ++ ((content.map (write ⟨kind, stage, number⟩)).getD "") ++ after)

def statefulSection (p : Program) : String :=
  String.join (p.stages.zipIdx.map fun (s, i) =>
    "\n  " ++ placeText p.statefulText .stateful i s.stateful "\n    " "\n  " ++ "\n")

def statelessSection (p : Program) : String :=
  String.join (p.stages.zipIdx.map fun (s, i) =>
    "\n  " ++ placeText p.statelessText .stateless i s.stateless "\n" "\n  " ++ "\n")

def applyText {α : Type} (p : Program) (place : Place) (_ : α) : String :=
  "\n          apply(" ++ place.name p.name ++ "_table);\n        "

def ingressSection (p : Program) : String :=
  String.join (p.stages.zipIdx.map fun (s, i) =>
    "\n      " ++ placeText p.applyText .stateless i s.stateless "\n        " "\n      " ++
    "\n      " ++ placeText p.applyText .stateful i s.stateful "\n        " "\n      " ++ "\n    ")

def registerSection (p : Program) : String :=
  String.join ((List.range p.groups).map fun j =>
    "\nregister reg_" ++ toString j ++ " \x7b\n    width : 64;\n    instance_count : MAX_SIZE;\n" ++
      "    attributes : signed;\n\x7d\n")

def opening : String :=
  "#include <tofino/intrinsic_metadata.p4>\n" ++
  "#include \"tofino/stateful_alu_blackbox.p4\"\n\n" ++
  "/* Declare Header */\n" ++
  "header_type ethernet_t \x7b\n    fields \x7b\n        dstAddr : 48;\n        srcAddr : 48;\n" ++
  "        etherType : 16;\n    \x7d\n\x7d\n\n" ++
  "header ethernet_t ethernet;\n\n" ++
  "header_type ipv4_t \x7b\n    fields \x7b\n" ++
  "        // TODO: Have a hard limit on 5 fields for now. Ensure this in the tofino code generator.\n" ++
  "        pkt_0 : 32 (signed);\n        pkt_1 : 32 (signed);\n        pkt_2 : 32 (signed);\n" ++
  "        pkt_3 : 32 (signed);\n        pkt_4 : 32 (signed);\n    \x7d\n\x7d\n\n" ++
  "header ipv4_t ipv4;\n\n" ++
  "/* Declare Parser */\n" ++
  "parser start \x7b\n\treturn select(current(96,16))\x7b\n\t\t0x0800: parse_ethernet;\n\t\x7d\n\x7d\n\n" ++
  "parser parse_ethernet \x7b\n    extract(ethernet);\n    return select(latest.etherType) \x7b\n" ++
  "        /** Fill Whatever ***/\n        0x0800     : parse_ipv4;\n        default: ingress;\n" ++
  "    \x7d\n\x7d\n" ++
  "parser parse_ipv4 \x7b\n    extract(ipv4);\n    return ingress;\n\x7d\n\n" ++
  "// TODO: Derive MAX_SIZE from Domino program.\n#define MAX_SIZE 10\n"

def forwarding : String :=
  "// Required: mac_forward table for forwarding to switch CPU.\n" ++
  "action set_egr(egress_spec) \x7b\n" ++
  "    modify_field(ig_intr_md_for_tm.ucast_egress_port, egress_spec);\n\x7d\n" ++
  "table mac_forward \x7b\n    reads \x7b\n        ethernet.dstAddr : exact;\n    \x7d\n" ++
  "    actions \x7b\n        set_egr;\n    \x7d\n    size:1;\n\x7d\n\n"

def render (p : Program) : String :=
  opening ++ p.registerSection ++ "\n\n" ++ p.statefulSection ++ "\n\n" ++ p.statelessSection ++
    "\n\n" ++ forwarding ++
    "control ingress \x7b\n    // Call all the required ALUs.\n    " ++ p.ingressSection ++
    "\n    // MAC Forwarding by default\n    apply(mac_forward);\n\x7d\n\n" ++
    "control egress \x7b\n\n\x7d"

end Program

end SwitchSynth.P4
