import Mathlib.Data.List.Forall2
import SwitchSynth.Proofs.Sketch.Calls
import SwitchSynth.Proofs.Sketch.Definitions

/-!
# The statements of a pipeline

The steps of a data path are written as statements of a small language: variables are set, states are filled, ALUs
and multiplexers are called, some statements are only done if a hole is one, and a chain of branches takes the first
one whose condition holds. Apart from blanks and comments, the text of a data path is the text of its statements
(`Plan.text_codes`), so what the statements do is what the data path does.
-/

namespace SwitchSynth

namespace Text

def nonblank (s : String) : List Char :=
  s.toList.filter fun c => !(c == ' ' || c == '\n')

@[simp] theorem nonblank_append (s t : String) : nonblank (s ++ t) = nonblank s ++ nonblank t := by
  simp [nonblank]

@[simp] theorem nonblank_join (ss : List String) : nonblank (String.join ss) = (ss.map nonblank).flatten := by
  induction ss with
  | nil => rfl
  | cons s ss ih => rw [String.join_cons, nonblank_append, ih, List.map_cons, List.flatten_cons]

@[simp] theorem nonblank_empty : nonblank "" = [] := rfl

variable {cs ds : List Char}

/-- Texts are compared as lists of characters, as it takes long to get these from a text. -/
theorem nonblank_congr (h : cs.filter (fun c => !(c == ' ' || c == '\n')) =
    ds.filter fun c => !(c == ' ' || c == '\n')) : nonblank (String.ofList cs) = nonblank (String.ofList ds) := by
  rw [nonblank, nonblank, String.toList_ofList, String.toList_ofList, h]

theorem Blank.nonblank_eq {s : String} (h : Blank s) : nonblank s = [] := by
  unfold Blank at h
  unfold nonblank
  rw [List.all_eq_true] at h
  rw [List.filter_eq_nil_iff]
  intro c hc
  simp [h c hc]

theorem Lists.nonblank_eq {text : String} {words : List String} (h : Lists text words) :
    nonblank text = nonblank (String.intercalate "," words) := by
  induction h with
  | last ha hb => simp [ha.nonblank_eq, hb.nonblank_eq]
  | @cons a w b text ws ha hb hrest ih =>
    cases ws with
    | nil => exact nomatch hrest
    | cons v vs =>
      rw [String.intercalate_cons_cons]
      simp only [nonblank_append, ha.nonblank_eq, hb.nonblank_eq, ih, List.nil_append, List.append_nil]

/-- A text says something in characters that are not blank, with comments in between. -/
inductive Codes : String → List Char → Prop where
  | plain (s : String) : Codes s (nonblank s)
  | lineComment (line : String) : '\n' ∉ line.toList → Codes ("//" ++ line ++ "\n") []
  | blockComment (inner : String) : '/' ∉ inner.toList → Codes ("/*" ++ inner ++ "*/") []
  | append {s t : String} {cs ds : List Char} : Codes s cs → Codes t ds → Codes (s ++ t) (cs ++ ds)

theorem Codes.of_eq {s : String} (h : nonblank s = cs) : Codes s cs :=
  h ▸ .plain s

/-- Whether there are only blanks and comments up to the end of a line; the flag tells whether a comment has begun. -/
def isNote : Bool → List Char → Bool
  | false, [] => true
  | true, [] => false
  | false, ' ' :: cs => isNote false cs
  | false, '/' :: '/' :: cs => isNote true cs
  | true, '\n' :: cs => isNote false cs
  | false, '\n' :: cs => isNote false cs
  | true, _ :: cs => isNote true cs
  | false, _ :: _ => false

theorem Codes.blank_cons {c : Char} (hc : nonblank (String.ofList [c]) = [])
    (h : Codes (String.ofList cs) []) : Codes (String.ofList (c :: cs)) [] := by
  rw [← List.singleton_append, String.ofList_append]
  exact (Codes.of_eq hc).append h

theorem codes_of_isNote {comment : Bool} (h : isNote comment cs = true) :
    if comment then ∃ line rest, cs = line ++ '\n' :: rest ∧ '\n' ∉ line ∧ Codes (String.ofList rest) []
    else Codes (String.ofList cs) [] := by
  fun_induction isNote comment cs with
  | case1 => exact .plain ""
  | case2 => exact nomatch h
  | case3 cs ih => exact .blank_cons rfl (ih h)
  | case4 cs ih =>
    obtain ⟨line, rest, rfl, hline, hrest⟩ := ih h
    have hcomment := (Codes.lineComment (String.ofList line) (by rwa [String.toList_ofList])).append hrest
    have hsame : "//" ++ String.ofList line ++ "\n" ++ String.ofList rest =
        String.ofList ('/' :: '/' :: (line ++ '\n' :: rest)) := by
      apply String.toList_inj.1
      simp
    rw [hsame] at hcomment
    exact hcomment
  | case5 cs ih => exact ⟨[], cs, rfl, List.not_mem_nil, ih h⟩
  | case6 cs ih => exact .blank_cons rfl (ih h)
  | case7 c cs hc ih =>
    obtain ⟨line, rest, rfl, hline, hrest⟩ := ih h
    exact ⟨c :: line, rest, rfl, List.mem_cons.not.2 (not_or.2 ⟨fun heq => hc heq.symm, hline⟩), hrest⟩
  | case8 => exact nomatch h

theorem Codes.note (h : isNote false cs = true) : Codes (String.ofList cs) [] := by
  have hcodes := codes_of_isNote h
  rwa [if_neg Bool.false_ne_true] at hcodes

theorem Codes.notes (h : isNote false (cs ++ ds) = true) :
    Codes (String.ofList cs ++ String.ofList ds) [] := by
  rw [← String.ofList_append]
  exact .note h

theorem cut {es : List Char} (h : es = cs ++ ds) : String.ofList es = String.ofList cs ++ String.ofList ds := by
  rw [h, String.ofList_append]

theorem Codes.join {texts : List String} {codes : List (List Char)} (h : List.Forall₂ Codes texts codes) :
    Codes (String.join texts) codes.flatten := by
  induction h with
  | nil => exact .plain ""
  | cons hfirst _ ih =>
    rw [String.join_cons, List.flatten_cons]
    exact hfirst.append ih

/-! ### Words -/

theorem toString_int_inj {m n : Int} (h : toString m = toString n) : m = n := by
  -- Digits are no minus sign.
  have hsign (a b : Nat) : toString a ≠ "-" ++ toString b := by
    intro heq
    have hmem : '-' ∈ (toString a).toList := by simp [heq]
    exact absurd (isDigit_of_mem_toString hmem) (by decide)
  cases m with
  | ofNat a =>
    cases n with
    | ofNat b => exact congrArg Int.ofNat (toString_nat_injective h)
    | negSucc b => exact absurd h (hsign a (b + 1))
  | negSucc a =>
    cases n with
    | ofNat b => exact absurd h.symm (hsign b (a + 1))
    | negSucc b =>
      have hdigits : "-" ++ toString (a + 1) = "-" ++ toString (b + 1) := h
      have hnumber := toString_nat_injective ((String.append_right_inj _).1 hdigits)
      exact congrArg Int.negSucc (Nat.succ.inj hnumber)

theorem path_cons (word : String) (words : List String) : path (word :: words) = "_" ++ word ++ path words := by
  rw [path, List.map_cons, String.join_cons]
  rfl

theorem path_nil : path [] = "" := rfl

instance (word : String) : Decidable (Plain word) :=
  inferInstanceAs (Decidable (¬ _ ∈ _))

theorem plain_append {a b : String} (ha : Plain a) (hb : Plain b) : Plain (a ++ b) := by
  unfold Plain
  rw [String.toList_append, List.mem_append]
  exact not_or.2 ⟨ha, hb⟩

theorem plain_int (n : Int) : Plain (toString n) := by
  cases n with
  | ofNat m => exact plain_toString m
  | negSucc m =>
    show '_' ∉ ("-" ++ toString (m + 1)).toList
    rw [String.toList_append, List.mem_append]
    rintro (h | h)
    · exact absurd h (by decide)
    · exact plain_toString (m + 1) h

end Text

namespace Sketch

open Text (Blank Codes Lists nonblank nonblank_append nonblank_congr nonblank_join nonblank_empty pieces)

/-! ### Variables -/

/-- The variables of a pipeline. -/
inductive Variable where
  | input (stage container : Nat)
  | output (stage : Int) (container : Nat)
  | destination (stage alu : Nat)
  | returned (stage unit : Nat)
  /-- A packet operand of a stateful ALU. -/
  | operand (stage unit operand : Nat)
  /-- A slot of the state that a stateful ALU works on. -/
  | slot (stage unit : Nat) (slot : Int)
  | field (f : Int)
  | state (group : Int) (slot : Nat)
  deriving DecidableEq, Repr

def Variable.name : Variable → String
  | input i c => inputName i c
  | output i c => outputName i c
  | destination i j => destinationName i j
  | returned i k => returnedName i k
  | operand i k o => operandName i k o
  | slot i k s => stateName i k ++ ".state_" ++ toString s
  | field f => inRecord (fieldName f)
  | state g s => inRecord (stateVarName g s)

namespace Variable

/-- The words between the underscores of a name. -/
def words : Variable → List String
  | input i c => ["input", toString i, toString c]
  | output i c => ["output", toString i, toString c]
  | destination i j => ["destination", toString i, toString j]
  | returned i k => ["returned", "state", toString i, toString k]
  | operand i k o => ["packet", "operand", "salu" ++ toString i, toString k, toString o]
  | slot i k s => ["state", "operand", "salu", toString i, toString k ++ ".state", toString s]
  | field f => ["state", "and", "packet.pkt", toString f]
  | state g s => ["state", "and", "packet.state", "group", toString g, "state", toString s]

theorem path_words (v : Variable) : Text.path v.words = "_" ++ v.name := by
  -- Words and names are compared by their characters, where it does not matter how a text is cut.
  apply String.toList_inj.1
  cases v with
  | input i c =>
    show (Text.path ["input", _, _]).toList = ("_" ++ ("input_" ++ toString i ++ "_" ++ toString c)).toList
    simp [Text.path]
  | output i c =>
    show (Text.path ["output", _, _]).toList = ("_" ++ ("output_" ++ toString i ++ "_" ++ toString c)).toList
    simp [Text.path]
  | destination i j =>
    show (Text.path ["destination", _, _]).toList = ("_" ++ ("destination_" ++ toString i ++ "_" ++ toString j)).toList
    simp [Text.path]
  | returned i k =>
    show (Text.path ["returned", "state", _, _]).toList =
      ("_" ++ ("returned_state_" ++ toString i ++ "_" ++ toString k)).toList
    simp [Text.path]
  | operand i k o =>
    show (Text.path ["packet", "operand", "salu" ++ toString i, _, _]).toList =
      ("_" ++ ("packet_operand_salu" ++ toString i ++ "_" ++ toString k ++ "_" ++ toString o)).toList
    simp [Text.path]
  | slot i k s =>
    show (Text.path ["state", "operand", "salu", _, toString k ++ ".state", _]).toList =
      ("_" ++ ("state_operand_salu_" ++ toString i ++ "_" ++ toString k ++ ".state_" ++ toString s)).toList
    simp [Text.path]
  | field f =>
    show (Text.path ["state", "and", "packet.pkt", _]).toList =
      ("_" ++ ("state_and_packet." ++ ("pkt_" ++ toString f))).toList
    simp [Text.path]
  | state g s =>
    show (Text.path ["state", "and", "packet.state", "group", _, "state", _]).toList =
      ("_" ++ ("state_and_packet." ++ ("state_group_" ++ toString g ++ "_state_" ++ toString s))).toList
    simp [Text.path]

theorem plain_words (v : Variable) : ∀ w ∈ v.words, Text.Plain w := by
  have hliteral : ∀ w ∈ ["input", "output", "destination", "returned", "state", "packet", "operand", "salu", "and",
      "packet.pkt", "packet.state", "group", ".state"], Text.Plain w := by decide
  cases v <;> simp only [words, List.mem_cons, List.not_mem_nil, or_false, forall_eq_or_imp, forall_eq, true_or,
    or_true, hliteral, Text.plain_toString, Text.plain_int, Text.plain_append, and_self]

theorem words_inj {v w : Variable} (h : v.words = w.words) : v = w := by
  have hnat (m n : Nat) : toString m = toString n ↔ m = n := ⟨Text.toString_nat_injective, congrArg toString⟩
  have hint (m n : Int) : toString m = toString n ↔ m = n := ⟨Text.toString_int_inj, congrArg toString⟩
  cases v <;> cases w <;> simp only [words, List.cons.injEq, and_true, true_and, false_and, and_false, reduceCtorEq,
    String.reduceEq, String.append_right_inj, String.append_left_inj, hnat, hint, input.injEq, output.injEq,
    destination.injEq, returned.injEq, operand.injEq, slot.injEq, field.injEq, state.injEq] at h ⊢ <;> exact h

theorem name_inj {v w : Variable} (h : v.name = w.name) : v = w := by
  apply words_inj
  apply Text.path_inj v.plain_words w.plain_words
  rw [path_words, path_words, h]

end Variable

/-! ### Statements -/

/-- What a variable is set to. -/
inductive Value where
  | zero
  | content (v : Variable)
  | passed (m : Mux) (inputs : List Variable)
  | computed (function : String) (inputs : List Variable) (holes : List String)

namespace Value

def text : Value → String
  | zero => "0"
  | content v => v.name
  | passed m inputs =>
    m.name ++ "(" ++ String.intercalate "," (pieces (inputs.map Variable.name) ++ [m.control]) ++ ")"
  | computed f inputs holes =>
    f ++ "(" ++ String.intercalate "," (pieces (inputs.map Variable.name) ++ pieces holes) ++ ")"

end Value

/-- What changes variables. -/
inductive Action where
  /-- A variable is set; it may be declared at the same time. -/
  | set (declared : Bool) (target : Variable) (value : Value)
  /-- The state of a stateful ALU is filled; it may be declared at the same time. -/
  | fill (declared : Bool) (stage unit : Nat) (values : List (Int × Value))
  /-- A variable is declared and set to what a stateful ALU returns, which may change its state. -/
  | update (target : Variable) (function : String) (stage unit : Nat) (operands : List Variable)
    (holes : List String)

namespace Action

def text : Action → String
  | set declared v value => (if declared then "int " else "") ++ v.name ++ " = " ++ value.text ++ ";"
  | fill declared i k values =>
    (if declared then "|StateGroup| " else "") ++ stateName i k ++ " = |StateGroup|(" ++
      String.intercalate "," (values.map fun (s, value) => "state_" ++ toString s ++ " = " ++ value.text) ++ ");"
  | update v f i k operands holes =>
    "int " ++ v.name ++ " = " ++ f ++ "(" ++
      String.intercalate "," (stateName i k :: operands.map Variable.name ++ pieces holes) ++ ");"

end Action

/-- Conditions on holes. -/
inductive Condition where
  | equals (hole : String) (n : Int)
  | both (first second : Condition)
  deriving DecidableEq, Repr

def Condition.text : Condition → String
  | equals hole n => hole ++ " == " ++ toString n
  | both a b => "(" ++ a.text ++ ") && (" ++ b.text ++ ")"

/-- A branch of a chain: where its condition holds, the target of the chain takes a variable. -/
structure Branch where
  condition : Condition
  source : Variable
  deriving DecidableEq, Repr

def Branch.text (target : Variable) (b : Branch) : String :=
  "if (" ++ b.condition.text ++ ") " ++ target.name ++ " = " ++ b.source.name ++ ";"

/-- The statements of a pipeline. -/
inductive Statement where
  | declare (v : Variable)
  | act (a : Action)
  | guarded (hole : String) (actions : List Action)
  /-- The first branch whose condition holds is taken; it is an error if there is none. -/
  | firstOf (target : Variable) (branches : List Branch)

def chainText (target : Variable) : List Branch → String
  | [] => "assert(false);"
  | b :: bs => b.text target ++ String.join (bs.map fun b => " else " ++ b.text target) ++ " else assert(false);"

theorem chainText_cons (target : Variable) (b : Branch) (bs : List Branch) : chainText target (b :: bs) =
    b.text target ++ String.join (bs.map fun b => " else " ++ b.text target) ++ " else assert(false);" := rfl

def Statement.text : Statement → String
  | declare v => "int " ++ v.name ++ ";"
  | act a => a.text
  | guarded hole actions => "if (" ++ hole ++ " == 1) \x7b" ++ String.join (actions.map Action.text) ++ "\x7d"
  | firstOf target branches => chainText target branches

/-! ### The statements of the steps -/

namespace Plan

/-- The slots of a state group, for the state of a stateful ALU. -/
def slotValues (p : Plan) (group : Nat) : List (Int × Value) :=
  (List.range p.slots).map fun (s : Nat) => ((s : Int), .content (.state group s))

/-- The branch for a container behind a stage that takes its own stateless ALU. -/
def ownWriter (p : Plan) (stage container : Nat) : Branch :=
  ⟨.equals (p.statelessName stage container ++ "_demux_ctrl") 1, .destination stage container⟩

/-- The branch for a container behind a stage that takes the stateful ALU of a group. -/
def groupWriter (p : Plan) (stage container group : Nat) : Branch :=
  ⟨.both (.equals (p.statefulName stage group ++ "_demux_ctrl") container)
    (.equals (p.shape.sketchName ++ "_salu_config_" ++ toString stage ++ "_" ++ toString group) 1),
    .returned stage group⟩

def writers (p : Plan) (stage container : Nat) : List Branch :=
  p.ownWriter stage container :: (upTo p.shape.groups).map (p.groupWriter stage container)

def inputVariables (p : Plan) (stage : Nat) : List Variable :=
  (upTo p.shape.containers).map (.input stage)

/-- The inputs of the multiplexer of a container behind a stage. -/
def outputVariables (p : Plan) (stage container : Nat) : List Variable :=
  (p.units.flatMap fun k => List.replicate p.slots (.returned stage k)) ++ [.destination stage container]

end Plan

def Step.statement (p : Plan) : Step → Statement
  | clearContainer c => .act (.set true (.input 0 c) .zero)
  | clearState i k => .act (.fill true i k
      ((upTo ((p.slots : Int) - 1)).map (fun (s : Nat) => ((s : Int), .zero)) ++ [((p.slots : Int) - 1, .zero)]))
  | readField f c => .act (.set false (.input 0 c) (.content (.field f)))
  | readFieldIf f c => .guarded (Plan.fieldConfig f c) [.set false (.input 0 c) (.content (.field f))]
  | passOn i c => .act (.set true (.input i c) (.content (.output ((i : Int) - 1) c)))
  | stateless i j => .act (.set true (.destination i j) (.computed (p.statelessName i j) (p.inputVariables i)
      ([p.statelessName i j ++ "_opcode", p.statelessName i j ++ "_immediate_operand"] ++
        pieces (p.statelessControls i j))))
  | chooseOperand i k o => .act (.set true (.operand i k o)
      (.passed ⟨p.operandMux i k o, p.shape.containers.toNat⟩ (p.inputVariables i)))
  | loadState i k g => .guarded (p.stateConfig i k g) [.fill false i k (p.slotValues g)]
  | stateful i k => .act (.update (.returned i k) (p.statefulName i k) i k
      ((List.range p.operands).map (.operand i k))
      (p.statefulHoles.map fun h => p.statefulName i k ++ "_" ++ h ++ "_global"))
  | declareOutput i c => .declare (.output i c)
  | demultiplex i c => .firstOf (.output i c) (p.writers i c)
  | chooseOutput i c => .act (.set true (.output i c)
      (.passed ⟨p.outputMux i c, p.units.length * p.slots + 1⟩ (p.outputVariables i c)))
  | storeState i k g => .guarded (p.stateConfig i k g)
      ((List.range p.slots).map fun s => .set false (.state g s) (.content (.slot i k s)))
  | writeField f c => .act (.set false (.field f) (.content (.output (p.shape.stages - 1) c)))
  | writeFieldIf f c =>
    .guarded (Plan.fieldConfig f c) [.set false (.field f) (.content (.output (p.shape.stages - 1) c))]

theorem intercalate_pieces (words : List String) :
    String.intercalate "," (pieces words) = String.intercalate "," words := by
  cases words with
  | nil => rfl
  | cons w ws => rfl

theorem Plan.map_name_inputVariables (p : Plan) (i : Nat) : (p.inputVariables i).map Variable.name = p.inputs i := by
  rw [Plan.inputVariables, List.map_map]
  rfl

theorem Plan.map_name_outputVariables (p : Plan) (i c : Nat) : (p.outputVariables i c).map Variable.name =
    (p.units.flatMap fun k => List.replicate p.slots (returnedName i k)) ++ [destinationName i c] := by
  rw [Plan.outputVariables, List.map_append, List.map_flatMap]
  simp only [List.map_replicate]
  rfl

namespace Step

variable (p : Plan)

theorem nonblank_spaces (n : Nat) : nonblank (spaces n) = [] :=
  (blank_spaces n).nonblank_eq

/-! ### Statements that set variables -/

theorem nonblank_clearContainer (c : Nat) :
    nonblank ((clearContainer c).text p) = nonblank ((clearContainer c).statement p).text := by
  show nonblank ("    int " ++ inputName 0 c ++ " = 0;\n") =
    nonblank ("int " ++ inputName 0 c ++ " = " ++ "0" ++ ";")
  simp [nonblank]

theorem nonblank_assignment {a b : String} (h : nonblank a = nonblank b) (target value : String) :
    nonblank (a ++ target ++ " = " ++ value ++ ";\n") = nonblank (b ++ target ++ " = " ++ value ++ ";") := by
  simp only [nonblank_append, h, show nonblank ";\n" = nonblank ";" from nonblank_congr rfl]

theorem nonblank_readField (f : Int) (c : Nat) :
    nonblank ((readField f c).text p) = nonblank ((readField f c).statement p).text :=
  nonblank_assignment (a := "        ") (b := "") (nonblank_congr rfl) _ _

theorem nonblank_passOn (i c : Nat) :
    nonblank ((passOn i c).text p) = nonblank ((passOn i c).statement p).text :=
  nonblank_assignment (a := "        int ") (b := "int ") (nonblank_congr rfl) _ _

theorem nonblank_declareOutput (i c : Nat) :
    nonblank ((declareOutput i c).text p) = nonblank ((declareOutput i c).statement p).text := by
  show nonblank ("      int " ++ outputName i c ++ ";\n") = nonblank ("int " ++ outputName i c ++ ";")
  simp [nonblank]

theorem nonblank_writeField (f : Int) (c : Nat) :
    nonblank ((writeField f c).text p) = nonblank ((writeField f c).statement p).text :=
  nonblank_assignment (a := "    ") (b := "") (nonblank_congr rfl) _ _

/-- A statement under a condition, with other blanks and with the braces elsewhere. -/
theorem nonblank_guarded {a b c c' d d' e f : String} (hole target : String) (ha : nonblank a = nonblank "if (")
    (hb : nonblank b = nonblank " == 1) \x7b") (hc : nonblank c = nonblank c') (hd : nonblank d = nonblank d')
    (he : nonblank e = nonblank f ++ nonblank "\x7d") :
    nonblank (a ++ hole ++ b ++ target ++ c ++ d ++ e) = nonblank ("if (" ++ hole ++ " == 1) \x7b" ++
      String.join ["" ++ target ++ c' ++ d' ++ f] ++ "\x7d") := by
  simp only [nonblank_append, nonblank_join, List.append_assoc, List.map_cons, List.map_nil, List.flatten_cons,
    List.flatten_nil, List.nil_append, nonblank_empty, ha, hb, hc, hd, he]

theorem nonblank_readFieldIf (f : Int) (c : Nat) :
    nonblank ((readFieldIf f c).text p) = nonblank ((readFieldIf f c).statement p).text :=
  nonblank_guarded (a := "           if (") (b := " == 1)\x7b\n              ") (c := " = ")
    (e := ";\n           \x7d\n") (f := ";") _ _ (nonblank_congr rfl) (nonblank_congr rfl) rfl rfl (by decide)

theorem nonblank_writeFieldIf (f : Int) (c : Nat) :
    nonblank ((writeFieldIf f c).text p) = nonblank ((writeFieldIf f c).statement p).text :=
  nonblank_guarded (a := "        if (") (b := " == 1)\x7b\n            ") (c := " = ")
    (e := ";\n        \x7d\n") (f := ";") _ _ (nonblank_congr rfl) (nonblank_congr rfl) rfl rfl (by decide)

/-! ### Statements that call ALUs and multiplexers -/

theorem nonblank_call {a list : String} {words : List String} (function target : String)
    (ha : nonblank a = nonblank "int ") (hlist : Lists list words) :
    nonblank (a ++ target ++ (" = " ++ function ++ "(" ++ list ++ ");\n")) = nonblank ("int " ++ target ++ " = " ++
      (function ++ "(" ++ String.intercalate "," words ++ ")") ++ ";") := by
  simp only [nonblank_append, List.append_assoc, hlist.nonblank_eq, ha,
    show nonblank ");\n" = nonblank ")" ++ nonblank ";" by decide]

theorem nonblank_stateless (i j : Nat) :
    nonblank ((stateless i j).text p) = nonblank ((stateless i j).statement p).text := by
  obtain ⟨list, hlist, htext⟩ := stateless_text p i j
  rw [htext, nonblank_call (a := "      int ") _ _ (nonblank_congr rfl) hlist, ← Plan.map_name_inputVariables,
    List.append_assoc, ← Text.pieces_of_ne_nil (List.append_ne_nil_of_left_ne_nil (List.cons_ne_nil _ _) _)]
  rfl

theorem nonblank_chooseOperand (i k o : Nat) :
    nonblank ((chooseOperand i k o).text p) = nonblank ((chooseOperand i k o).statement p).text := by
  obtain ⟨list, hlist, htext⟩ := chooseOperand_text p i k o
  rw [htext, nonblank_call (a := "        int ") _ _ (nonblank_congr rfl) hlist, ← Plan.map_name_inputVariables]
  rfl

theorem nonblank_stateful (i k : Nat) :
    nonblank ((stateful i k).text p) = nonblank ((stateful i k).statement p).text := by
  obtain ⟨list, hlist, htext⟩ := stateful_text p i k
  rw [htext]
  show nonblank ("      int " ++ returnedName i k ++ (" = " ++ p.statefulName i k ++ "(" ++ list ++ ");\n")) =
    nonblank ("int " ++ returnedName i k ++ " = " ++ p.statefulName i k ++ "(" ++ String.intercalate ","
      (stateName i k :: ((List.range p.operands).map (Variable.operand i k)).map Variable.name ++
        pieces (p.statefulHoles.map fun h => p.statefulName i k ++ "_" ++ h ++ "_global")) ++ ");")
  rw [List.map_map]
  simp only [nonblank_append, List.append_assoc, hlist.nonblank_eq]
  simp [nonblank]
  rfl

theorem nonblank_chooseOutput (i c : Nat) :
    nonblank ((chooseOutput i c).text p) = nonblank ((chooseOutput i c).statement p).text := by
  obtain ⟨list, hlist, htext⟩ := chooseOutput_text p i c
  have hne : (p.outputVariables i c).map Variable.name ≠ [] := by simp [Plan.outputVariables]
  rw [htext, nonblank_call (a := "      int ") _ _ (nonblank_congr rfl) hlist, List.append_cons,
    ← Plan.map_name_outputVariables, ← Text.pieces_of_ne_nil hne]
  rfl

/-! ### Statements about states -/

theorem lists_slotLines (g : Nat) : Lists (slotLines p g) (pieces ((List.range p.slots).map fun s =>
    "state_" ++ toString s ++ " = " ++ inRecord (stateVarName g s))) := by
  unfold slotLines
  cases hn : p.slots with
  | zero => exact .word ""
  | succ n =>
    have hlines := lists_lines (fun s => "state_" ++ toString s ++ " = " ++ inRecord (stateVarName g s)) n 25
    have hlast (s : Nat) : ((s : Int) < ((n + 1 : Nat) : Int) - 1) = (s < n) := propext (by omega)
    rw [Text.pieces_of_ne_nil (by simp)]
    simpa only [hlast, String.append_assoc] using hlines

theorem nonblank_slotLines (g : Nat) : nonblank (slotLines p g) =
    nonblank (String.intercalate "," ((p.slotValues g).map fun (s, value) =>
      "state_" ++ toString s ++ " = " ++ value.text)) := by
  rw [(lists_slotLines p g).nonblank_eq, intercalate_pieces, Plan.slotValues, List.map_map]
  rfl

theorem nonblank_loadState (i k g : Nat) :
    nonblank ((loadState i k g).text p) = nonblank ((loadState i k g).statement p).text := by
  show nonblank (if p.synthesized then
      "        if (" ++ p.stateConfig i k g ++ "  == 1)\x7b\n        " ++ stateName i k ++
        " =\n        |StateGroup|(" ++ slotLines p g ++ ");\n        \x7d\n"
      else "      if (" ++ p.stateConfig i k g ++ " == 1) \x7b\n        " ++ stateName i k ++
        " =\n        |StateGroup|(" ++ slotLines p g ++ ");\x7d\n") =
    nonblank ("if (" ++ p.stateConfig i k g ++ " == 1) \x7b" ++ String.join ["" ++ stateName i k ++
      " = |StateGroup|(" ++ String.intercalate "," ((p.slotValues g).map fun (s, value) =>
        "state_" ++ toString s ++ " = " ++ value.text) ++ ");"] ++ "\x7d")
  split
  · exact nonblank_guarded _ _ (nonblank_congr rfl) (nonblank_congr rfl) (nonblank_congr rfl) (nonblank_slotLines p g)
      (by decide)
  · exact nonblank_guarded _ _ (nonblank_congr rfl) (nonblank_congr rfl) (nonblank_congr rfl) (nonblank_slotLines p g)
      (by decide)

theorem nonblank_copies (i k g indent : Nat) :
    nonblank (String.join ((List.range p.slots).map fun s => spaces indent ++ inRecord (stateVarName g s) ++ " = " ++
        stateName i k ++ ".state_" ++ toString s ++ ";\n")) =
      nonblank (String.join ((List.range p.slots).map fun s => "" ++ inRecord (stateVarName g s) ++ " = " ++
        (stateName i k ++ ".state_" ++ toString s) ++ ";")) := by
  simp only [nonblank_append, nonblank_join, nonblank_spaces, nonblank_empty, List.map_map, Function.comp_def,
    List.append_assoc, List.nil_append, show nonblank ";\n" = nonblank ";" from nonblank_congr rfl]

theorem nonblank_storeState (i k g : Nat) :
    nonblank ((storeState i k g).text p) = nonblank ((storeState i k g).statement p).text := by
  have hcopies : ((List.range p.slots).map fun s : Nat =>
        Action.set false (.state g s) (.content (.slot i k s))).map Action.text =
      (List.range p.slots).map fun s => "" ++ inRecord (stateVarName g s) ++ " = " ++
        (stateName i k ++ ".state_" ++ toString s) ++ ";" := by
    rw [List.map_map]
    rfl
  show nonblank (if p.synthesized then
      "              if (" ++ p.stateConfig i k g ++ " == 1)\x7b\n" ++
        String.join ((List.range p.slots).map fun s => spaces 20 ++ inRecord (stateVarName g s) ++ " = " ++
          stateName i k ++ ".state_" ++ toString s ++ ";\n") ++ "              \x7d\n"
      else "          if (" ++ p.stateConfig i k g ++ " == 1) \x7b\n" ++
        String.join ((List.range p.slots).map fun s => spaces 14 ++ inRecord (stateVarName g s) ++ " = " ++
          stateName i k ++ ".state_" ++ toString s ++ ";\n") ++ "          \x7d\n") =
    nonblank ("if (" ++ p.stateConfig i k g ++ " == 1) \x7b" ++ String.join (((List.range p.slots).map fun s : Nat =>
      Action.set false (.state g s) (.content (.slot i k s))).map Action.text) ++ "\x7d")
  rw [hcopies]
  split
  all_goals
    simp only [nonblank_append, nonblank_copies]
    simp [nonblank]

theorem nonblank_clearState (i k : Nat) :
    nonblank ((clearState i k).text p) = nonblank ((clearState i k).statement p).text := by
  have hvalues : ((upTo ((p.slots : Int) - 1)).map (fun (s : Nat) => ((s : Int), Value.zero)) ++
        [((p.slots : Int) - 1, Value.zero)]).map (fun (s, value) => "state_" ++ toString s ++ " = " ++ value.text) =
      (upTo ((p.slots : Int) - 1)).map (fun s : Nat => "state_" ++ toString s ++ " = " ++ "0") ++
        ["state_" ++ toString ((p.slots : Int) - 1) ++ " = " ++ "0"] := by
    rw [List.map_append, List.map_map]
    rfl
  -- All slots but the last one have a comma behind them.
  have hlines : Lists (String.join (((upTo ((p.slots : Int) - 1)).map fun s : Nat =>
        "state_" ++ toString s ++ " = " ++ "0").map fun w => spaces 87 ++ w ++ "," ++ "\n") ++
      (spaces 87 ++ ("state_" ++ toString ((p.slots : Int) - 1) ++ " = " ++ "0") ++ "\n"))
      ((upTo ((p.slots : Int) - 1)).map (fun s : Nat => "state_" ++ toString s ++ " = " ++ "0") ++
        ["state_" ++ toString ((p.slots : Int) - 1) ++ " = " ++ "0"]) :=
    Lists.commasBehind _ (.last (blank_spaces 87) rfl) (blank_spaces 87) rfl
  have hnonblank := hlines.nonblank_eq
  simp only [List.map_map, Function.comp_def, nonblank_append, nonblank_join, nonblank_spaces, List.nil_append,
    List.append_assoc] at hnonblank
  show nonblank ("      |StateGroup| " ++ stateName i k ++ " =  |StateGroup|(\n" ++
      String.join ((upTo ((p.slots : Int) - 1)).map fun s => spaces 87 ++ "state_" ++ toString s ++ " = 0,\n") ++
      spaces 87 ++ "state_" ++ toString ((p.slots : Int) - 1) ++ " = 0\n" ++ spaces 81 ++ ");\n") =
    nonblank ("|StateGroup| " ++ stateName i k ++ " = |StateGroup|(" ++ String.intercalate ","
      (((upTo ((p.slots : Int) - 1)).map (fun (s : Nat) => ((s : Int), Value.zero)) ++
        [((p.slots : Int) - 1, Value.zero)]).map fun (s, value) => "state_" ++ toString s ++ " = " ++ value.text) ++
      ");")
  rw [hvalues]
  simp only [nonblank_append, nonblank_join, nonblank_spaces, List.map_map, Function.comp_def, List.nil_append,
    List.append_assoc, ← hnonblank]
  simp [nonblank]

/-! ### Branches -/

theorem nonblank_ownWriter (i c : Nat) :
    nonblank ("      if (" ++ p.statelessName i c ++ "_demux_ctrl == 1)\n         " ++ outputName i c ++ " = " ++
        destinationName i c ++ ";\n      ") = nonblank ((p.ownWriter i c).text (.output i c)) := by
  show _ = nonblank ("if (" ++ (p.statelessName i c ++ "_demux_ctrl" ++ " == " ++ "1") ++ ") " ++ outputName i c ++
    " = " ++ destinationName i c ++ ";")
  simp [nonblank]

theorem nonblank_groupWriter (i c g : Nat) :
    nonblank ("      else if ((" ++ p.statefulName i g ++ "_demux_ctrl == " ++ toString c ++ ") && (" ++
        p.shape.sketchName ++ "_salu_config_" ++ toString i ++ "_" ++ toString g ++ " == 1))\n         " ++
        outputName i c ++ " = " ++ returnedName i g ++ ";\n") =
      nonblank (" else " ++ (p.groupWriter i c g).text (.output i c)) := by
  show _ = nonblank (" else " ++ ("if (" ++ ("(" ++ (p.statefulName i g ++ "_demux_ctrl" ++ " == " ++ toString c) ++
    ") && (" ++ (p.shape.sketchName ++ "_salu_config_" ++ toString i ++ "_" ++ toString g ++ " == " ++ "1") ++ ")") ++
    ") " ++ outputName i c ++ " = " ++ returnedName i g ++ ";"))
  simp [nonblank]

theorem demultiplex_codes (i c : Nat) :
    Codes ((demultiplex i c).text p) (nonblank ((demultiplex i c).statement p).text) := by
  have hothers : nonblank (String.join ((upTo p.shape.groups).map fun g =>
        "      else if ((" ++ p.statefulName i g ++ "_demux_ctrl == " ++ toString c ++ ") && (" ++
          p.shape.sketchName ++ "_salu_config_" ++ toString i ++ "_" ++ toString g ++
          " == 1))\n         " ++ outputName i c ++ " = " ++ returnedName i g ++ ";\n") ++
        "      else\n         assert(false);\n") =
      nonblank (String.join (((upTo p.shape.groups).map (p.groupWriter i c)).map fun b =>
        " else " ++ b.text (.output i c)) ++ " else assert(false);") := by
    rw [nonblank_append, nonblank_append,
      show nonblank "      else\n         assert(false);\n" = nonblank " else assert(false);" from nonblank_congr rfl]
    simp only [nonblank_join, List.map_map, Function.comp_def, nonblank_groupWriter]
  -- A comment stands behind the first branch.
  have hcomment : Codes ("// TODO: now we only use canonicalized alloc " ++
      "for target_tofino, if we use synthesized_alloc, we need to make changes to this part\n") [] := .notes rfl
  have hcodes := ((Codes.of_eq (nonblank_ownWriter p i c)).append hcomment).append (Codes.of_eq hothers)
  have hstatement : ((demultiplex i c).statement p).text = (p.ownWriter i c).text (.output i c) ++
      (String.join (((upTo p.shape.groups).map (p.groupWriter i c)).map fun b => " else " ++ b.text (.output i c)) ++
        " else assert(false);") := by
    rw [← String.append_assoc]
    exact chainText_cons _ _ _
  rw [hstatement, nonblank_append]
  have htext : (demultiplex i c).text p = "      if (" ++ p.statelessName i c ++ "_demux_ctrl == 1)\n         " ++
      outputName i c ++ " = " ++ destinationName i c ++ ";\n      // TODO: now we only use canonicalized alloc " ++
      "for target_tofino, if we use synthesized_alloc, we need to make changes to this part\n" ++
      String.join ((upTo p.shape.groups).map fun g =>
        "      else if ((" ++ p.statefulName i g ++ "_demux_ctrl == " ++ toString c ++ ") && (" ++
          p.shape.sketchName ++ "_salu_config_" ++ toString i ++ "_" ++ toString g ++
          " == 1))\n         " ++ outputName i c ++ " = " ++ returnedName i g ++ ";\n") ++
      "      else\n         assert(false);\n" := rfl
  rw [htext, show ";\n      // TODO: now we only use canonicalized alloc " =
    ";\n      " ++ "// TODO: now we only use canonicalized alloc " from Text.cut rfl]
  simpa only [String.append_assoc, List.append_nil] using hcodes

/-- Apart from blanks and comments, a step is written as its statement. -/
theorem text_codes (s : Step) : Codes (s.text p) (nonblank (s.statement p).text) := by
  cases s with
  | clearContainer c => exact .of_eq (nonblank_clearContainer p c)
  | clearState i k => exact .of_eq (nonblank_clearState p i k)
  | readField f c => exact .of_eq (nonblank_readField p f c)
  | readFieldIf f c => exact .of_eq (nonblank_readFieldIf p f c)
  | passOn i c => exact .of_eq (nonblank_passOn p i c)
  | stateless i j => exact .of_eq (nonblank_stateless p i j)
  | chooseOperand i k o => exact .of_eq (nonblank_chooseOperand p i k o)
  | loadState i k g => exact .of_eq (nonblank_loadState p i k g)
  | stateful i k => exact .of_eq (nonblank_stateful p i k)
  | declareOutput i c => exact .of_eq (nonblank_declareOutput p i c)
  | demultiplex i c => exact demultiplex_codes p i c
  | chooseOutput i c => exact .of_eq (nonblank_chooseOutput p i c)
  | storeState i k g => exact .of_eq (nonblank_storeState p i k g)
  | writeField f c => exact .of_eq (nonblank_writeField p f c)
  | writeFieldIf f c => exact .of_eq (nonblank_writeFieldIf p f c)

end Step

/-! ### The whole data path -/

namespace Plan

variable {p : Plan} {i : Nat}

/-- The statements of a data path, in order. -/
def code (p : Plan) : List Statement :=
  p.steps.map (Step.statement p)

def itemCode (p : Plan) : Item → List Char
  | .note _ => []
  | .step s => nonblank (s.statement p).text

/-- An item is written as what it says, apart from blanks and comments. -/
def Written (p : Plan) (items : List Item) : Prop :=
  ∀ item ∈ items, Codes (item.text p) (p.itemCode item)

theorem written_step (s : Step) : Codes (Item.text p (.step s)) (p.itemCode (.step s)) :=
  s.text_codes p

theorem written_steps {α : Type} (xs : List α) (f : α → Step) : p.Written (xs.map fun x => .step (f x)) := by
  simp [Written, written_step]

theorem written_readItems : p.Written p.readItems := by
  simp only [Written, readItems, List.forall_mem_cons, List.forall_mem_flatMap]
  refine ⟨.note rfl, fun f _ => ?_⟩
  split
  · exact List.forall_mem_cons.2 ⟨.note rfl, written_steps _ _⟩
  · exact List.forall_mem_cons.2 ⟨.note rfl, by simp [written_step]⟩

theorem written_loadItems : p.Written (p.loadItems i) := by
  simp only [Written, loadItems, List.forall_mem_flatMap]
  intro g _
  split
  · exact written_steps _ _
  · simp [written_step]

theorem written_storeItems : p.Written (p.storeItems i) := by
  simp only [Written, storeItems, List.forall_mem_flatMap, List.forall_mem_cons]
  refine fun g _ => ⟨.note rfl, ?_⟩
  split
  · exact written_steps _ _
  · simp [written_step]

theorem written_outputItems : p.Written (p.outputItems i) := by
  unfold outputItems
  split
  · exact List.forall_mem_append.2 ⟨List.forall_mem_cons.2 ⟨.note rfl, written_steps _ _⟩, written_steps _ _⟩
  · exact written_steps _ _

theorem codes_stageTitle (i : Nat) :
    Codes ("    /*********** Stage " ++ toString i ++ " *********/\n\n    // Inputs\n") [] := by
  have hinner : '/' ∉ ("********** Stage " ++ toString i ++ " ********").toList := by
    simp only [String.toList_append, List.mem_append, not_or]
    refine ⟨⟨by decide, fun hmem => ?_⟩, by decide⟩
    exact absurd (Text.isDigit_of_mem_toString hmem) (by decide)
  have hcodes := ((show Codes "    " [] from .note rfl).append (.blockComment _ hinner)).append
    (show Codes "\n\n    // Inputs\n" [] from .note rfl)
  simp only [List.append_nil] at hcodes
  rw [show "    /*********** Stage " = "    " ++ ("/*" ++ "********** Stage ") by decide,
    show " *********/\n\n    // Inputs\n" = " ********" ++ ("*/" ++ "\n\n    // Inputs\n") by decide]
  simpa only [String.append_assoc] using hcodes

theorem written_stageItems : p.Written (p.stageItems i) := by
  have hinputs : p.Written (if i = 0 then p.readItems else p.passItems i) := by
    split
    · exact written_readItems
    · exact List.forall_mem_cons.2 ⟨.note rfl, written_steps _ _⟩
  have hoperands : p.Written (p.units.flatMap fun k =>
      (List.range p.operands).map fun o => .step (.chooseOperand i k o)) :=
    List.forall_mem_flatMap.2 fun k _ => written_steps _ _
  simp only [Written, stageItems, List.forall_mem_cons, List.forall_mem_append]
  exact ⟨⟨⟨⟨⟨⟨⟨codes_stageTitle i, hinputs⟩, .note rfl, written_steps _ _⟩, .note rfl, hoperands⟩, .note rfl,
    written_loadItems⟩, .notes rfl, written_steps _ _⟩, .note rfl, written_outputItems⟩, .note rfl, written_storeItems⟩

theorem written_writeItems : p.Written p.writeItems := by
  simp only [Written, writeItems, List.forall_mem_flatMap, List.forall_mem_cons]
  rintro ⟨f, _⟩ -
  constructor
  · have hline : '\n' ∉ (" Write pkt_" ++ toString f).toList := by
      simp only [String.toList_append, List.mem_append, not_or]
      exact ⟨by decide, not_mem_toString_int f⟩
    have hcodes := (show Codes "    " [] from .note rfl).append (.lineComment _ hline)
    show Codes ("    // Write pkt_" ++ toString f ++ "\n") []
    rw [show "    // Write pkt_" = "    " ++ ("//" ++ " Write pkt_") by decide]
    simpa only [String.append_assoc, List.append_nil] using hcodes
  · split
    · exact written_steps _ _
    · simp [written_step]

theorem written_items : p.Written p.items := by
  have hstates : p.Written ((upTo p.shape.stages).flatMap fun i => p.units.map fun k => .step (.clearState i k)) :=
    List.forall_mem_flatMap.2 fun i _ => written_steps _ _
  simp only [Written, items, List.forall_mem_cons, List.forall_mem_append]
  exact ⟨⟨⟨⟨.notes rfl, written_steps _ _⟩, .notes rfl, hstates⟩, .note rfl,
    List.forall_mem_flatMap.2 fun i _ => written_stageItems⟩, .note rfl, written_writeItems⟩

theorem items_code (p : Plan) (items : List Item) :
    (items.map p.itemCode).flatten = nonblank (String.join ((items.filterMap fun
      | .step s => some s
      | .note _ => none).map fun s => (s.statement p).text)) := by
  induction items with
  | nil => rfl
  | cons item items ih =>
    cases item with
    | note t => exact ih
    | step s =>
      show nonblank (s.statement p).text ++ (items.map p.itemCode).flatten = _
      rw [ih, ← nonblank_append, ← String.join_cons]
      rfl

/-- Apart from blanks and comments, a data path is written as its statements. -/
theorem text_codes (p : Plan) : Codes (String.join (p.items.map (Item.text p)))
    (nonblank (String.join (p.code.map Statement.text))) := by
  have hitems : List.Forall₂ Codes (p.items.map (Item.text p)) (p.items.map p.itemCode) := by
    rw [List.forall₂_map_left_iff, List.forall₂_map_right_iff, List.forall₂_same]
    exact written_items
  have hcodes := Codes.join hitems
  rw [items_code] at hcodes
  rw [code, List.map_map]
  exact hcodes

end Plan

end Sketch

end SwitchSynth
