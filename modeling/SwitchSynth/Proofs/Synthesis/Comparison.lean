import SwitchSynth.Proofs.CommandLine
import SwitchSynth.Proofs.Synthesis.Constants
import SwitchSynth.Proofs.Synthesis.Testcases

/-!
# What is compared

A sketch compares the results of the pipeline and of the program twice: for all inputs, output by output, and for
the inputs of test cases, where whole records are compared if no outputs were chosen. The record has all states that
a stateful ALU has room for, but the harness compares as many states of each group as the program has. So the two
compare the same outputs if and only if some were chosen or the states leave no room.
-/

namespace SwitchSynth

/-! ### Statements -/

namespace Text

variable {α : Type} {IsStatement : α → String → Prop} {xs ys : List α} {text rest a b : String}

/-- A space or a line feed. -/
def isGap (c : Char) : Bool :=
  c == ' ' || c == '\n'

theorem isGap_of_mem (h : Blank a) : ∀ c ∈ a.toList, isGap c = true :=
  List.all_eq_true.1 h

/-- A text that begins with something that is not blank. -/
def Solid (text : String) : Prop :=
  ∃ c, text.toList.head? = some c ∧ isGap c = false

theorem Solid.append (h : Solid text) (rest : String) : Solid (text ++ rest) := by
  obtain ⟨c, hc, hgap⟩ := h
  refine ⟨c, ?_, hgap⟩
  rw [String.toList_append, List.head?_append, hc, Option.some_or]

theorem Solid.not_blank_append (h : Solid text) : ¬ Blank (a ++ text) := by
  intro hblank
  obtain ⟨c, hc, hgap⟩ := h
  have hmem : c ∈ (a ++ text).toList := by
    rw [String.toList_append]
    exact List.mem_append_right _ (List.mem_of_mem_head? hc)
  rw [isGap_of_mem hblank c hmem] at hgap
  exact nomatch hgap

theorem eq_of_blank_append {a' text' : String} (ha : Blank a) (ha' : Blank a') (htext : Solid text)
    (htext' : Solid text') (h : a ++ text = a' ++ text') : a = a' ∧ text = text' := by
  have hchars := congrArg String.toList h
  rw [String.toList_append, String.toList_append] at hchars
  have hstops {text : String} (htext : Solid text) : ∀ c ∈ text.toList.head?, ¬ isGap c = true := by
    obtain ⟨c, hc, hgap⟩ := htext
    intro d hd
    rw [hc] at hd
    rw [← Option.some.inj hd, hgap]
    exact Bool.false_ne_true
  obtain ⟨h₁, h₂⟩ := eq_of_append_eq_of_stops (isGap_of_mem ha) (isGap_of_mem ha') (hstops htext) (hstops htext') hchars
  exact ⟨String.toList_inj.1 h₁, String.toList_inj.1 h₂⟩

/-- A text of statements, with blank space around them. -/
inductive Statements (IsStatement : α → String → Prop) : List α → String → Prop where
  | done {a : String} : Blank a → Statements IsStatement [] a
  | more {a text rest : String} {x : α} {xs : List α} : Blank a → IsStatement x text →
      Statements IsStatement xs rest → Statements IsStatement (x :: xs) (a ++ (text ++ rest))

/-- Where a statement starts and ends, and what it is about, is seen from the text that it begins. -/
structure Readable (IsStatement : α → String → Prop) : Prop where
  solid : ∀ {x text}, IsStatement x text → Solid text
  unique : ∀ {x y text text' rest rest'}, IsStatement x text → IsStatement y text' → text ++ rest = text' ++ rest' →
    x = y ∧ rest = rest'

namespace Statements

theorem padLeft (ha : Blank a) (h : Statements IsStatement xs text) : Statements IsStatement xs (a ++ text) := by
  cases h with
  | done hb => exact .done (ha.append hb)
  | more hb hx hrest =>
    rw [← String.append_assoc]
    exact .more (ha.append hb) hx hrest

/-- Statements one after the other, each between blanks, in front of others. -/
theorem join {form : α → String} (hform : ∀ x ∈ xs, IsStatement x (form x)) (ha : Blank a) (hb : Blank b)
    (h : Statements IsStatement ys rest) :
    Statements IsStatement (xs ++ ys) (String.join (xs.map fun x => a ++ form x ++ b) ++ rest) := by
  induction xs with
  | nil => simpa using h
  | cons x xs ih =>
    have hrest := (ih fun y hy => hform y (List.mem_cons_of_mem x hy)).padLeft hb
    have hfirst := Statements.more ha (hform x List.mem_cons_self) hrest
    simpa only [List.map_cons, String.join_cons, String.append_assoc, List.cons_append] using hfirst

theorem unique {text' : String} (hread : Readable IsStatement) (h : Statements IsStatement xs text)
    (h' : Statements IsStatement ys text') (heq : text = text') : xs = ys := by
  induction h generalizing ys text' with
  | done ha =>
    cases h' with
    | done _ => rfl
    | more _ hy _ => exact absurd (heq ▸ ha) ((hread.solid hy).append _).not_blank_append
  | more ha hx _ ih =>
    cases h' with
    | done hb => exact absurd (heq ▸ hb) ((hread.solid hx).append _).not_blank_append
    | more hb hy hrest' =>
      -- The blanks in front end where the first statements begin, and these are the same.
      obtain ⟨-, heq⟩ := eq_of_blank_append ha hb ((hread.solid hx).append _) ((hread.solid hy).append _) heq
      obtain ⟨rfl, hrest⟩ := hread.unique hx hy heq
      rw [ih hrest' hrest]

end Statements

end Text

/-! ### Comparisons and declarations -/

open Text (Blank Solid Statements Readable isGap)

/-- A part of a record: all of it, or what is behind a point. -/
def IsPart (part : String) : Prop :=
  ∀ c ∈ part.toList, isGap c = false ∧ c ≠ '='

variable {part left right record text name : String} {names : List String}

theorem isPart_of_not_mem (hspace : ' ' ∉ part.toList) (hline : '\n' ∉ part.toList)
    (hequals : '=' ∉ part.toList) : IsPart part := by
  intro c hc
  refine ⟨?_, fun heq => hequals (heq ▸ hc)⟩
  rw [isGap, Bool.or_eq_false_iff, beq_eq_false_iff_ne, beq_eq_false_iff_ne]
  exact ⟨fun heq => hspace (heq ▸ hc), fun heq => hline (heq ▸ hc)⟩

/-- The assertion that two records agree on a part, with space in two places. -/
def comparison (left right a b part : String) : String :=
  "assert" ++ (a ++ ("(" ++ (left ++ (part ++ (b ++ ("== " ++ (right ++ (part ++ ");"))))))))

/-- A text asserts that two records agree on a part. -/
def IsComparison (left right part text : String) : Prop :=
  IsPart part ∧ ∃ a b, Blank a ∧ Blank b ∧ text = comparison left right a b part

/-- A part ends with the blanks in front of an equals sign, or with the sign. -/
theorem eq_of_part_append {part' a b rest rest' : String} (hpart : IsPart part) (hpart' : IsPart part')
    (ha : Blank a) (hb : Blank b) (h : part ++ (a ++ ("== " ++ rest)) = part' ++ (b ++ ("== " ++ rest'))) :
    part = part' ∧ a ++ ("== " ++ rest) = b ++ ("== " ++ rest') := by
  have hchars : part.toList ++ (a ++ ("== " ++ rest)).toList = part'.toList ++ (b ++ ("== " ++ rest')).toList := by
    rw [← String.toList_append, ← String.toList_append, h]
  have hstops {a rest : String} (ha : Blank a) :
      ∀ c ∈ (a ++ ("== " ++ rest)).toList.head?, ¬ (isGap c = false ∧ c ≠ '=') := by
    rintro c hc ⟨hgap, heq⟩
    rw [String.toList_append, List.head?_append, Option.mem_def, Option.or_eq_some_iff] at hc
    -- The part is followed by a blank, or else by the equals sign itself.
    rcases hc with hc | ⟨-, hc⟩
    · rw [Text.isGap_of_mem ha c (List.mem_of_mem_head? hc)] at hgap
      exact nomatch hgap
    · rw [String.toList_append, show "== ".toList = ['=', '=', ' '] by decide] at hc
      exact heq (Option.some.inj hc).symm
  obtain ⟨h₁, h₂⟩ := Text.eq_of_append_eq_of_stops hpart hpart' (hstops ha) (hstops hb) hchars
  exact ⟨String.toList_inj.1 h₁, String.toList_inj.1 h₂⟩

theorem readable_comparison (left right : String) : Readable (IsComparison left right) where
  solid := by
    rintro part _ ⟨-, a, b, -, -, rfl⟩
    exact Solid.append ⟨'a', by decide, by decide⟩ _
  unique := by
    rintro part part' _ _ rest rest' ⟨hpart, a, b, ha, hb, rfl⟩ ⟨hpart', a', b', ha', hb', rfl⟩ h
    have hopening : Solid "(" := ⟨'(', by decide, by decide⟩
    have hequals : Solid "== " := ⟨'=', by decide, by decide⟩
    unfold comparison at h
    simp only [-String.reduceAppend, String.append_assoc] at h
    -- What stands in front of the part is the same, so the part is.
    obtain ⟨-, h⟩ := Text.eq_of_blank_append ha ha' (hopening.append _) (hopening.append _)
      ((String.append_right_inj _).1 h)
    rw [String.append_right_inj, String.append_right_inj] at h
    obtain ⟨rfl, h⟩ := eq_of_part_append hpart hpart' hb hb' h
    obtain ⟨-, h⟩ := Text.eq_of_blank_append hb hb' (hequals.append _) (hequals.append _) h
    simp only [String.append_right_inj] at h
    exact ⟨rfl, h⟩

def IsDeclaration (name text : String) : Prop :=
  ';' ∉ name.toList ∧ text = "int " ++ (name ++ ";")

theorem readable_declaration : Readable IsDeclaration where
  solid := by
    rintro name _ ⟨-, rfl⟩
    exact Solid.append ⟨'i', by decide, by decide⟩ _
  unique := by
    rintro name name' _ _ rest rest' ⟨hname, rfl⟩ ⟨hname', rfl⟩ h
    simp only [-String.reduceAppend, String.append_assoc, String.append_right_inj] at h
    have hchars := congrArg String.toList h
    simp only [String.toList_append, show ";".toList = [';'] by decide] at hchars
    obtain ⟨h₁, h₂⟩ := Text.eq_of_append_eq_of_stops (P := fun c => c ≠ ';') (fun _ hc heq => hname (heq ▸ hc))
      (fun _ hc heq => hname' (heq ▸ hc)) (by simp) (by simp) hchars
    exact ⟨String.toList_inj.1 h₁, String.toList_inj.1 (List.cons.inj h₂).2⟩

/-- An output is compared by assertions on two records: one of them is about it, or about whole records that have
it among their fields. -/
def Compares (left right record text name : String) : Prop :=
  ∃ parts, Statements (IsComparison left right) parts text ∧
    ("." ++ name ∈ parts ∨ "" ∈ parts ∧ ∃ names, Statements IsDeclaration names record ∧ name ∈ names)

theorem compares_iff {parts : List String}
    (htext : Statements (IsComparison left right) parts text) (hrecord : Statements IsDeclaration names record) :
    Compares left right record text name ↔ "." ++ name ∈ parts ∨ "" ∈ parts ∧ name ∈ names := by
  constructor
  · rintro ⟨parts', htext', hname⟩
    rw [htext.unique (readable_comparison left right) htext' rfl]
    refine hname.imp_right fun ⟨hempty, names', hrecord', hname⟩ => ⟨hempty, ?_⟩
    rw [hrecord.unique readable_declaration hrecord' rfl]
    exact hname
  · intro hname
    exact ⟨parts, htext, hname.imp_right fun ⟨hempty, hname⟩ => ⟨hempty, names, hrecord, hname⟩⟩

theorem point_ne_empty (name : String) : "." ++ name ≠ "" := by
  intro heq
  have hlength := congrArg String.length heq
  rw [String.length_append, show ".".length = 1 by decide, show "".length = 0 by decide] at hlength
  omega

theorem compares_points_iff {outputs : List String}
    (htext : Statements (IsComparison left right) (outputs.map ("." ++ ·)) text)
    (hrecord : Statements IsDeclaration names record) : Compares left right record text name ↔ name ∈ outputs := by
  rw [compares_iff htext hrecord, List.mem_map, List.mem_map]
  constructor
  · rintro (⟨output, houtput, heq⟩ | ⟨⟨output, -, heq⟩, -⟩)
    · rw [← (String.append_right_inj _).1 heq]
      exact houtput
    · exact absurd heq (point_ne_empty output)
  · intro hname
    exact .inl ⟨name, hname, rfl⟩

/-! ### The names of outputs -/

namespace Sketch

def IsOutput (name : String) : Prop :=
  (∃ f, name = fieldName f) ∨ ∃ g k, name = stateVarName g k

variable {name : String}

theorem IsOutput.not_mem {c : Char} (hname : IsOutput name)
    (hwords : c ∉ ".pkt_state_group_".toList) (hdigit : c.isDigit = false) (hminus : c ≠ '-') :
    c ∉ ("." ++ name).toList := by
  have hnumber (n : Int) : c ∉ (toString n).toList := fun hmem =>
    (Loop.mem_toString_int hmem).elim (by simp [hdigit]) hminus
  have hword {word : String} (hsub : word.toList ⊆ ".pkt_state_group_".toList) : c ∉ word.toList :=
    fun hmem => hwords (hsub hmem)
  rcases hname with ⟨f, rfl⟩ | ⟨g, k, rfl⟩
  · simp only [fieldName, String.toList_append, List.mem_append, not_or]
    exact ⟨hword (by decide), hword (by decide), hnumber f⟩
  · simp only [stateVarName, String.toList_append, List.mem_append, not_or]
    exact ⟨hword (by decide), ⟨⟨hword (by decide), hnumber g⟩, hword (by decide)⟩, hnumber k⟩

theorem IsOutput.isPart (hname : IsOutput name) : IsPart ("." ++ name) :=
  isPart_of_not_mem (hname.not_mem (by decide) (by decide) (by decide))
    (hname.not_mem (by decide) (by decide) (by decide)) (hname.not_mem (by decide) (by decide) (by decide))

theorem IsOutput.isDeclaration (hname : IsOutput name) :
    IsDeclaration name ("int " ++ (name ++ ";")) := by
  refine ⟨fun hmem => ?_, rfl⟩
  refine hname.not_mem (c := ';') (by decide) (by decide) (by decide) ?_
  rw [String.toList_append]
  exact List.mem_append_right _ hmem

theorem fieldName_ne_stateVarName (f g : Int) (k : Nat) : fieldName f ≠ stateVarName g k := by
  intro heq
  have hhead := congrArg (fun name : String => name.toList.head?) heq
  simp only [fieldName, stateVarName, String.toList_append, List.append_assoc, List.head?_append,
    show "pkt_".toList.head? = some 'p' by decide, show "state_group_".toList.head? = some 's' by decide,
    Option.some_or] at hhead
  exact absurd hhead (by decide)

theorem eq_of_stateVarName {g g' : Int} {k k' : Nat} (h : stateVarName g k = stateVarName g' k') : k = k' := by
  have hplain (g : Int) : '_' ∉ (toString g).toList := fun hmem =>
    (Loop.mem_toString_int hmem).elim (fun h => absurd h (by decide)) (fun h => absurd h (by decide))
  have hhead (cs : List Char) : ∀ c ∈ ("_state_".toList ++ cs).head?, c = '_' := by
    rw [show "_state_".toList = ['_', 's', 't', 'a', 't', 'e', '_'] by decide]
    simp
  have hchars := congrArg String.toList h
  simp only [stateVarName, String.toList_append, List.append_assoc] at hchars
  -- The number of the group has no underscore, so it ends where the words behind it begin.
  obtain ⟨-, hrest⟩ := Text.eq_of_append_eq (hplain g) (hplain g') (hhead _) (hhead _) (List.append_cancel_left hchars)
  exact Text.toString_nat_injective (String.toList_inj.1 (List.append_cancel_left hrest))

/-! ### The texts of a sketch -/

namespace Program

variable (p : Program)

def recordFields : List String :=
  (upTo p.plan.shape.fields).map (fun f : Nat => fieldName f) ++ p.stateVars

/-- The declarations of these fields. -/
def recordBody : String :=
  String.join ((upTo p.plan.shape.fields).map fun (f : Nat) => "    int " ++ fieldName f ++ ";\n") ++
    String.join (p.stateVars.map fun v => "      int " ++ v ++ ";\n")

theorem recordsText_eq : ∃ groups, p.recordsText =
    groups ++ "struct StateAndPacket \x7b\n" ++ p.recordBody ++ "\x7d\n\n" := by
  refine ⟨"struct StateGroup \x7b\n" ++
    String.join ((List.range p.plan.slots).map fun s => "    int state_" ++ toString s ++ ";\n") ++
    "\x7d\n\n// Data type for holding result from spec and implementation\n", ?_⟩
  unfold recordsText recordBody
  exact congrArg (· ++ "\x7d\n\n") String.append_assoc

theorem recordBody_declares : Statements IsDeclaration p.recordFields p.recordBody := by
  have hfields : ∀ v ∈ (upTo p.plan.shape.fields).map (fun f : Nat => fieldName f),
      IsDeclaration v ("int " ++ (v ++ ";")) := by
    intro v hv
    obtain ⟨f, -, rfl⟩ := List.mem_map.1 hv
    exact IsOutput.isDeclaration (.inl ⟨f, rfl⟩)
  have hstates : ∀ v ∈ p.stateVars, IsDeclaration v ("int " ++ (v ++ ";")) := by
    intro v hv
    obtain ⟨g, -, hv⟩ := List.mem_flatMap.1 hv
    obtain ⟨k, -, rfl⟩ := List.mem_map.1 hv
    exact IsOutput.isDeclaration (.inr ⟨g, k, rfl⟩)
  have hfieldLine (f : Int) :
      "    int " ++ fieldName f ++ ";\n" = "    " ++ ("int " ++ (fieldName f ++ ";")) ++ "\n" := by
    rw [show "    int " = "    " ++ "int " by decide, show ";\n" = ";" ++ "\n" by decide]
    simp only [-String.reduceAppend, String.append_assoc]
  have hstateLine (v : String) : "      int " ++ v ++ ";\n" = "      " ++ ("int " ++ (v ++ ";")) ++ "\n" := by
    rw [show "      int " = "      " ++ "int " by decide, show ";\n" = ";" ++ "\n" by decide]
    simp only [-String.reduceAppend, String.append_assoc]
  have hbody := Statements.join hfields (rfl : Blank "    ") (rfl : Blank "\n")
    (Statements.join hstates (rfl : Blank "      ") (rfl : Blank "\n") (.done (rfl : Blank "")))
  rw [List.append_nil, String.append_empty, List.map_map] at hbody
  rw [recordBody]
  simp only [hfieldLine, hstateLine]
  exact hbody

def checkedOutputs : List String :=
  (p.plan.shape.outputGroups.flatMap fun g => (upTo p.plan.shape.groupSize).map fun k => stateVarName g k) ++
    p.plan.shape.outputFields.map fieldName

def checksText : String :=
  String.join (p.plan.shape.outputGroups.flatMap fun g =>
      (upTo p.plan.shape.groupSize).map fun s =>
        "      assert(pipeline_result." ++ stateVarName g s ++ "\n      == program_result." ++
          stateVarName g s ++ ");\n") ++ "\n" ++
    String.join (p.plan.shape.outputFields.map fun f =>
      "    assert(pipeline_result." ++ fieldName f ++ " == program_result." ++ fieldName f ++
        ");\n") ++ "\n  "

theorem harnessText_eq : ∃ inputs, p.harnessText =
    inputs ++ ");\n\n  |StateAndPacket| pipeline_result = pipeline(x);\n" ++
      "  |StateAndPacket| program_result = program(x);\n\n" ++ p.checksText ++ p.testcases ++ "\n\n  \x7d\n" := by
  have hgroup (h a b c d : String) : h ++ a ++ b ++ c ++ d = h ++ (a ++ b ++ c ++ d) := by
    simp only [String.append_assoc]
  unfold harnessText checksText
  exact ⟨_, congrArg (· ++ p.testcases ++ "\n\n  \x7d\n") (hgroup _ _ _ _ _)⟩

/-- A check compares the two results at a name, with blanks in front of it and in front of the sign. -/
theorem check_eq (indent gap v : String) :
    indent ++ "assert(pipeline_result." ++ v ++ (gap ++ "== program_result.") ++ v ++ ");\n" =
      indent ++ comparison "pipeline_result" "program_result" "" gap ("." ++ v) ++ "\n" := by
  rw [show "assert(pipeline_result." = "assert" ++ ("" ++ ("(" ++ ("pipeline_result" ++ "."))) by decide,
    show "== program_result." = "== " ++ ("program_result" ++ ".") by decide, show ");\n" = ");" ++ "\n" by decide]
  unfold comparison
  simp only [-String.reduceAppend, String.append_assoc]

theorem checksText_compares : Statements (IsComparison "pipeline_result" "program_result")
    (p.checkedOutputs.map ("." ++ ·)) p.checksText := by
  have hfields : ∀ part ∈ (p.plan.shape.outputFields.map fieldName).map ("." ++ ·),
      IsComparison "pipeline_result" "program_result" part
        (comparison "pipeline_result" "program_result" "" " " part) := by
    simp only [List.map_map, List.mem_map]
    rintro _ ⟨f, -, rfl⟩
    exact ⟨IsOutput.isPart (.inl ⟨f, rfl⟩), "", " ", rfl, rfl, rfl⟩
  have hstates : ∀ part ∈ (p.plan.shape.outputGroups.flatMap fun g =>
      (upTo p.plan.shape.groupSize).map fun k => stateVarName g k).map ("." ++ ·),
      IsComparison "pipeline_result" "program_result" part
        (comparison "pipeline_result" "program_result" "" "\n      " part) := by
    simp only [List.mem_map, List.mem_flatMap]
    rintro _ ⟨_, ⟨g, -, k, -, rfl⟩, rfl⟩
    exact ⟨IsOutput.isPart (.inr ⟨g, k, rfl⟩), "", "\n      ", rfl, rfl, rfl⟩
  have hbody := Statements.join hstates (rfl : Blank "      ") (rfl : Blank "\n")
    ((Statements.join hfields (rfl : Blank "    ") (rfl : Blank "\n") (.done (rfl : Blank "\n  "))).padLeft
      (rfl : Blank "\n"))
  rw [List.append_nil, ← List.map_append] at hbody
  unfold checksText
  -- Each literal is cut behind its blanks.
  simp only [-String.reduceAppend,
    show "      assert(pipeline_result." = "      " ++ "assert(pipeline_result." by decide,
    show "\n      == program_result." = "\n      " ++ "== program_result." by decide,
    show "    assert(pipeline_result." = "    " ++ "assert(pipeline_result." by decide,
    show " == program_result." = " " ++ "== program_result." by decide, check_eq]
  simp only [List.map_map, List.map_flatMap, Function.comp_def] at hbody
  have hassoc (a b c d : String) : a ++ b ++ c ++ d = a ++ (b ++ (c ++ d)) := by simp only [String.append_assoc]
  exact Eq.mpr (congrArg (Statements _ _) (hassoc _ _ _ _)) hbody

end Program

end Sketch

namespace Testcase

/-- The assertions of a test case are about the results for its input. -/
theorem assertions_compare {t : Testcase} (hparts : ∀ part ∈ t.parts, IsPart part) :
    Statements (IsComparison ("pipeline(" ++ t.input ++ ")") ("program(" ++ t.input ++ ")")) t.parts t.assertions := by
  have hstatements : ∀ part ∈ t.parts, IsComparison ("pipeline(" ++ t.input ++ ")") ("program(" ++ t.input ++ ")") part
      (comparison ("pipeline(" ++ t.input ++ ")") ("program(" ++ t.input ++ ")") " " " " part) :=
    fun part hpart => ⟨hparts part hpart, " ", " ", rfl, rfl, rfl⟩
  have hline (part : String) : t.assertion part =
      "" ++ comparison ("pipeline(" ++ t.input ++ ")") ("program(" ++ t.input ++ ")") " " " " part ++ "\n" := by
    unfold assertion comparison
    rw [show "assert (pipeline(" = "assert" ++ (" " ++ ("(" ++ "pipeline(")) by decide,
      show " == program(" = " " ++ ("== " ++ "program(") by decide, show ");\n" = ");" ++ "\n" by decide]
    simp only [-String.reduceAppend, String.append_assoc, String.empty_append]
  have hbody := Statements.join hstatements (rfl : Blank "") (rfl : Blank "\n") (.done (rfl : Blank ""))
  rw [List.append_nil, String.append_empty] at hbody
  rw [assertions_eq, funext hline]
  exact hbody

end Testcase

/-! ### What is chosen -/

namespace Compiler

variable {o : Options} (fields groups : Nat)

theorem given_eq {choice : Option (List Int)} (h : choice ≠ some []) : given choice = choice := by
  cases choice with
  | none => rfl
  | some l =>
    cases l with
    | nil => exact absurd rfl h
    | cons x xs => rfl

/-- If no list is given, all packet fields and all state groups are compared. -/
theorem shape_of_none (hfields : o.outputFields = none) (hgroups : o.outputGroups = none) :
    (shape o fields groups).outputFields = below fields ∧ (shape o fields groups).outputGroups = below groups := by
  unfold shape
  rw [hfields, hgroups]
  exact ⟨rfl, rfl⟩

theorem shape_of_some (hfields : o.outputFields ≠ some []) (hgroups : o.outputGroups ≠ some [])
    (h : ¬ (o.outputFields = none ∧ o.outputGroups = none)) :
    (shape o fields groups).outputFields = o.outputFields.getD [] ∧
      (shape o fields groups).outputGroups = o.outputGroups.getD [] := by
  unfold shape
  rw [given_eq hfields, given_eq hgroups]
  cases hf : o.outputFields with
  | none =>
    cases hg : o.outputGroups with
    | none => exact absurd ⟨hf, hg⟩ h
    | some _ => exact ⟨rfl, rfl⟩
  | some _ => exact ⟨rfl, rfl⟩

end Compiler

namespace Sketch.Program

variable {p : Program} {name : String}

theorem mem_checkedOutputs : name ∈ p.checkedOutputs ↔
    (∃ f ∈ p.plan.shape.outputFields, name = fieldName f) ∨
      ∃ g ∈ p.plan.shape.outputGroups, ∃ k ∈ upTo p.plan.shape.groupSize, name = stateVarName g k := by
  simp only [checkedOutputs, List.mem_append, List.mem_map, List.mem_flatMap, eq_comm]
  exact or_comm

variable {o : Compiler.Options} {fields groups size : Nat}

/-- If no list is given, the harness compares all packet fields and so many states of each group. -/
theorem mem_checkedOutputs_of_none (hplan : p.plan.shape = Compiler.shape o fields groups)
    (hfields : o.outputFields = none) (hgroups : o.outputGroups = none) (hsize : o.groupSize = size) :
    name ∈ p.checkedOutputs ↔ (∃ f < fields, name = fieldName (f : Nat)) ∨
      ∃ g < groups, ∃ k < size, name = stateVarName (g : Nat) k := by
  obtain ⟨hf, hg⟩ := Compiler.shape_of_none fields groups hfields hgroups
  have hupTo : upTo p.plan.shape.groupSize = List.range size := by
    rw [hplan, upTo]
    show List.range o.groupSize.toNat = _
    rw [hsize, Int.toNat_natCast]
  rw [mem_checkedOutputs, hupTo, hplan, hf, hg]
  simp [Compiler.below]

/-- The fields of a record are all packet fields, and all states that there is room for. -/
theorem mem_recordFields (hplan : p.plan.shape = Compiler.shape o fields groups) :
    name ∈ p.recordFields ↔ (∃ f < fields, name = fieldName (f : Nat)) ∨
      ∃ g < groups, ∃ k < p.plan.slots, name = stateVarName (g : Nat) k := by
  have hupTo (n : Nat) : upTo n = List.range n := by rw [upTo, Int.toNat_natCast]
  have hfields : upTo p.plan.shape.fields = List.range fields := by
    rw [hplan]
    exact hupTo fields
  have hgroups : upTo p.plan.shape.groups = List.range groups := by
    rw [hplan]
    exact hupTo groups
  rw [recordFields, stateVars, hfields, hgroups]
  simp only [List.mem_append, List.mem_map, List.mem_flatMap, List.mem_range, eq_comm]

end Sketch.Program

theorem states_eq_iff {P : String → Prop} {groups m n : Nat} (hP : ∀ g k, ¬ P (Sketch.stateVarName g k))
    (hgroups : 0 < groups) :
    (∀ name, (P name ∨ ∃ g < groups, ∃ k < m, name = Sketch.stateVarName g k) ↔
      P name ∨ ∃ g < groups, ∃ k < n, name = Sketch.stateVarName g k) ↔ m = n := by
  -- A state of the first group with the least number that is too great tells the two apart.
  have hle {m n : Nat} (h : ∀ name, (P name ∨ ∃ g < groups, ∃ k < m, name = Sketch.stateVarName g k) →
      P name ∨ ∃ g < groups, ∃ k < n, name = Sketch.stateVarName g k) : m ≤ n := by
    by_contra hlt
    rcases h (Sketch.stateVarName (0 : Nat) n) (.inr ⟨0, hgroups, n, by omega, rfl⟩) with hname | ⟨g, -, k, hk, hname⟩
    · exact hP _ _ hname
    · have heq := Sketch.eq_of_stateVarName hname
      omega
  constructor
  · intro h
    exact Nat.le_antisymm (hle fun name => (h name).1) (hle fun name => (h name).2)
  · rintro rfl name
    rfl

/-! ### The sketches of a run -/

/-- The states that a sketch has room for are those of its stateful ALU. -/
theorem Sketch.Generator.program_slots {files : Files} {g g' : Generator} {r : Request} {p : Program}
    (hready : HasAlus g) (h : EndsIn (program r) files g p g') :
    ∃ d, describedBy (files.readAscii g.statefulFile) = some d ∧ p.plan.slots = d.stateVars.length := by
  obtain ⟨g₁, _, _, halus, -, -, -, -, -, hplan⟩ := program_plan h
  obtain ⟨-, d, hd, hsized⟩ := described_of_hasAlus hready halus
  exact ⟨d, hd, by rw [hplan, hsized.slots]⟩

namespace Loop

variable {s : Setup} {x y : Stand} {l : List (Compile.Run × Formula.Counterexample)} {p : Sketch.Program}
  {name : String} {n : Nat} {found : Formula.Counterexample}

/-- No round changes the shape of the pipeline or the file of the stateful ALU. -/
theorem Course.shape (hagrees : Agrees s x.compiler) (h : Course s x l y) :
    y.compiler.generator.shape = x.compiler.generator.shape ∧
      y.compiler.generator.statefulFile = x.compiler.generator.statefulFile := by
  induction h with
  | start => exact ⟨rfl, rfl⟩
  | round hcourse hturn ih =>
    obtain ⟨g, halike, -, hsame | ⟨bits, -, hlearnt⟩⟩ := hturn.compiler (hcourse.agrees hagrees).ready
    · rw [hsame]
      exact ⟨halike.shape.trans ih.1, halike.statefulFile.trans ih.2⟩
    · rw [hlearnt]
      exact ⟨halike.shape.trans ih.1, halike.statefulFile.trans ih.2⟩

theorem fillIn_ends (values : Table Int) (names : List String) (w : Workspace) :
    ∃ w', Ends (fillIn 0 values names) w (filled 0 values names) w' := by
  unfold fillIn filled
  induction names generalizing values w with
  | nil => exact ⟨w, ends_pure.2 ⟨rfl, rfl⟩⟩
  | cons name rest ih =>
    simp only [List.foldlM_cons, List.foldl_cons, ends_bind]
    by_cases hcontains : values.contains name = true
    · obtain ⟨w', hrest⟩ := ih values w
      rw [if_pos hcontains, if_pos hcontains]
      exact ⟨w', values, w, ends_pure.2 ⟨rfl, rfl⟩, hrest⟩
    · -- The line that says so is all that changes.
      obtain ⟨w', hrest⟩ := ih (values.insert name 0) _
      rw [if_neg hcontains, if_neg hcontains]
      exact ⟨w', values.insert name 0, _, ends_bind.2 ⟨(), _, rfl, ends_pure.2 ⟨rfl, rfl⟩⟩, hrest⟩

theorem testcase_ends (s : Setup) (n : Nat) (found : Formula.Counterexample) (c : Compiler) (w : Workspace) :
    ∃ w', Compile.Ends (testcase s n found) c w (testcaseOf s n found) c w' := by
  obtain ⟨w₁, hfields⟩ := fillIn_ends found.packetFields s.inputs.fieldNames w
  obtain ⟨w₂, hstates⟩ := fillIn_ends found.states s.inputs.stateNames w₁
  simp only [testcase, Compile.ends_bind, Compile.ends_work, Compile.ends_pure]
  exact ⟨w₂, _, c, w₁, ⟨hfields, rfl⟩, _, c, w₂, ⟨hstates, rfl⟩, rfl, rfl, rfl⟩

theorem testcaseOf_compares (s : Setup) (n : Nat) (found : Formula.Counterexample) :
    Statements (IsComparison ("pipeline(" ++ inputName n ++ ")") ("program(" ++ inputName n ++ ")"))
      (testcaseOf s n found).parts (testcaseOf s n found).assertions := by
  have hpart : ∀ part ∈ (testcaseOf s n found).parts, IsPart part := fun _ h =>
    isPart_of_not_mem (not_mem_parts (by decide) (by decide) (by decide) (by decide) (by decide) h)
      (not_mem_parts (by decide) (by decide) (by decide) (by decide) (by decide) h)
      (not_mem_parts (by decide) (by decide) (by decide) (by decide) (by decide) h)
  have hinput : (testcaseOf s n found).input = inputName n := rfl
  rw [← hinput]
  exact Testcase.assertions_compare hpart

/-- What the test case of a counterexample compares if no list is given. -/
theorem compares_testcaseOf_of_none (hfields : s.arguments.outputFields = none)
    (hgroups : s.arguments.outputGroups = none) :
    Compares ("pipeline(" ++ inputName n ++ ")") ("program(" ++ inputName n ++ ")") p.recordBody
      (testcaseOf s n found).assertions name ↔ name ∈ p.recordFields := by
  have hcompare := testcaseOf_compares s n found
  rw [parts_testcaseOf, if_pos ⟨hfields, hgroups⟩] at hcompare
  rw [compares_iff hcompare p.recordBody_declares]
  simp

theorem compares_testcaseOf_of_some (h : ¬ (s.arguments.outputFields = none ∧ s.arguments.outputGroups = none)) :
    Compares ("pipeline(" ++ inputName n ++ ")") ("program(" ++ inputName n ++ ")") p.recordBody
      (testcaseOf s n found).assertions name ↔
      (∃ f ∈ s.arguments.outputFields.getD [], name = Sketch.fieldName f) ∨
        ∃ g ∈ s.arguments.outputGroups.getD [], ∃ k ∈ Sketch.upTo s.groupSize, name = Sketch.stateVarName g k := by
  have hcompare := testcaseOf_compares s n found
  have hparts (outputs : List Output) :
      outputs.map (fun o => "." ++ o.name) = (outputs.map Output.name).map ("." ++ ·) := by
    rw [List.map_map]
    rfl
  rw [parts_testcaseOf, if_neg h, hparts] at hcompare
  rw [compares_points_iff hcompare p.recordBody_declares, List.mem_map]
  constructor
  · rintro ⟨o, ho, rfl⟩
    rcases mem_chosenOutputs.1 ho with ⟨f, hf, rfl⟩ | ⟨g, hg, k, hk, rfl⟩
    · exact .inl ⟨f, hf, rfl⟩
    · exact .inr ⟨g, hg, k, hk, rfl⟩
  · rintro (⟨f, hf, rfl⟩ | ⟨g, hg, k, hk, rfl⟩)
    · exact ⟨_, mem_chosenOutputs.2 (.inl ⟨f, hf, rfl⟩), rfl⟩
    · exact ⟨_, mem_chosenOutputs.2 (.inr ⟨g, hg, k, hk, rfl⟩), rfl⟩

end Loop

/-- Test cases and harness compare the same outputs if and only if packet fields or state groups were chosen, or the
stateful ALU has as many states as a state group of the program. Otherwise a test case compares whole records, with
states that the program does not have. -/
theorem testcases_compare_as_harness_iff {arguments : List String} {solver : Nat → Formula.Solver} {a : Arguments}
    {w : Workspace} {s : Loop.Setup} {c : Compiler} {l : List (Compile.Run × Formula.Counterexample)} {y : Loop.Stand}
    {r : Sketch.Generator.Request} {files : Files} {p : Sketch.Program} {g : Sketch.Generator}
    (hread : CommandLine.read arguments = .ok a) (hstarts : Loop.Starts solver a w s c)
    (hcourse : Loop.Course s ⟨{}, c, w⟩ l y)
    (hprogram : EndsIn (Sketch.Generator.program r) files y.compiler.generator p g)
    (n : Nat) (found : Formula.Counterexample) (c₁ : Compiler) (w₁ : Workspace) :
    ∃ d groups record inputs checks t w₂, Sketch.describedBy (files.readAscii a.statefulFile) = some d ∧
      p.recordsText = groups ++ "struct StateAndPacket \x7b\n" ++ record ++ "\x7d\n\n" ∧
      p.harnessText = inputs ++ ");\n\n  |StateAndPacket| pipeline_result = pipeline(x);\n" ++
        "  |StateAndPacket| program_result = program(x);\n\n" ++ checks ++ p.testcases ++ "\n\n  \x7d\n" ∧
      Compile.Ends (Loop.testcase s n found) c₁ w₁ t c₁ w₂ ∧ t.text = t.declaration ++ t.assertions ∧
      (∀ name, Compares "pipeline_result" "program_result" record checks name ↔ name ∈ p.checkedOutputs) ∧
      ((∀ name, Compares "pipeline_result" "program_result" record checks name ↔
          Compares ("pipeline(" ++ inputName n ++ ")") ("program(" ++ inputName n ++ ")") record t.assertions name) ↔
        a.outputFields ≠ none ∨ a.outputGroups ≠ none ∨ d.stateVars.length = s.groupSize) := by
  have hbegins := hstarts.begins
  obtain ⟨hfields, hgroups⟩ := CommandLine.ne_nil_of_read hread
  have hs : s.arguments = a := by
    obtain ⟨_, _, _, _, _, -, -, -, -, rfl⟩ := hstarts
    rfl
  have hagrees := hcourse.agrees hbegins.agrees
  obtain ⟨hshape, hfile⟩ := hcourse.shape hbegins.agrees
  obtain ⟨fields, bits, -, hgenerator⟩ := hbegins.generator
  obtain ⟨d, hd, hslots⟩ := Sketch.Generator.program_slots (hagrees.ready.hasAlus hprogram) hprogram
  obtain ⟨groups, hrecords⟩ := p.recordsText_eq
  obtain ⟨inputs, hharness⟩ := p.harnessText_eq
  rw [hfile, hgenerator] at hd
  have hplan : p.plan.shape = Compiler.shape (a.options s.groupSize) fields c.groups := by
    rw [Sketch.Generator.program_shape hprogram, hshape, hgenerator, hs]
  have hchecks (name : String) :
      Compares "pipeline_result" "program_result" p.recordBody p.checksText name ↔ name ∈ p.checkedOutputs :=
    compares_points_iff p.checksText_compares p.recordBody_declares
  obtain ⟨w₂, htestcase⟩ := Loop.testcase_ends s n found c₁ w₁
  refine ⟨d, groups, p.recordBody, inputs, p.checksText, Loop.testcaseOf s n found, w₂, hs ▸ hd, hrecords, hharness,
    htestcase, rfl, hchecks, ?_⟩
  by_cases hnone : a.outputFields = none ∧ a.outputGroups = none
  · -- The harness compares as many states as the program has, but a record has those of the ALU.
    have hstates := states_eq_iff (m := s.groupSize) (n := p.plan.slots)
      (P := fun name => ∃ f < fields, name = Sketch.fieldName (f : Nat))
      (fun g k ⟨f, _, heq⟩ => Sketch.fieldName_ne_stateVarName f g k heq.symm) hbegins.groups
    simp only [hchecks, Loop.compares_testcaseOf_of_none (hs ▸ hnone.1) (hs ▸ hnone.2),
      Sketch.Program.mem_checkedOutputs_of_none hplan hnone.1 hnone.2 rfl, Sketch.Program.mem_recordFields hplan]
    rw [hstates, hslots, hnone.1, hnone.2]
    simp [eq_comm]
  · -- Both compare what was chosen.
    obtain ⟨hf, hg⟩ := Compiler.shape_of_some (o := a.options s.groupSize) fields c.groups hfields hgroups hnone
    have hsame (name : String) : Compares "pipeline_result" "program_result" p.recordBody p.checksText name ↔
        Compares ("pipeline(" ++ inputName n ++ ")") ("program(" ++ inputName n ++ ")") p.recordBody
          (Loop.testcaseOf s n found).assertions name := by
      rw [hchecks, Loop.compares_testcaseOf_of_some (hs ▸ hnone), Sketch.Program.mem_checkedOutputs, hplan, hf, hg, hs]
      rfl
    refine ⟨fun _ => ?_, fun _ => hsame⟩
    rcases not_and_or.1 hnone with h | h
    · exact .inl h
    · exact .inr (.inl h)

deriving instance DecidableEq for Arguments

namespace TwoSlots

open SmallSwitch (arguments setup spec)

/-- The small switch with a stateful ALU that has two states, where the program has one. -/
def files : Files :=
  SmallSwitch.files.insert "u.alu"
    "type:stateful state variables:\x7bs,t\x7d hole variables:\x7b\x7d packet fields:\x7bx\x7d return C();"

def workspace : Workspace where
  files := files

def commandLine : List String :=
  ["p.sk", "u.alu", "v.alu", "1", "1", "0,1", "2"]

/-- What the first round asks of the generator. -/
def request : Sketch.Generator.Request :=
  Compile.Job.request ⟨[], "", "p_u_v_1_1_codegen_iteration_1.sk"⟩ ((arguments false).options 1)

theorem read_commandLine : CommandLine.read commandLine = .ok (arguments false) := by decide +kernel

def generates (c : Compiler) : Bool :=
  (((Sketch.Generator.program request).run files).run.run c.generator).1.toBool

theorem exists_program :
    ∃ c p g, Loop.Starts (setup false).solver (arguments false) workspace (setup false) c ∧
      EndsIn (Sketch.Generator.program request) files c.generator p g := by
  have hspec : files.readText "p.sk" = .ok spec := by decide +kernel
  have hcheck : (match Compiler.create ((arguments false).options 1) files with
      | .ok c => generates c
      | .error _ => false) = true := by decide +kernel
  cases hcreate : Compiler.create ((arguments false).options 1) files with
  | error e =>
    rw [hcreate] at hcheck
    exact nomatch hcheck
  | ok c =>
    rw [hcreate] at hcheck
    dsimp only [generates] at hcheck
    generalize hrun : ((Sketch.Generator.program request).run files).run.run c.generator = result at hcheck
    obtain ⟨result, g⟩ := result
    cases result with
    | error e => exact nomatch hcheck
    | ok p =>
      have hstarts : Loop.Starts (setup false).solver (arguments false) workspace (setup false) c :=
        ⟨spec, 1, "0", ["0"], [], hspec, SmallSwitch.fieldCount_spec, SmallSwitch.stateGroups_spec, hcreate, rfl⟩
      exact ⟨c, p, g, hstarts, hrun⟩

/-- With a second state in the ALU and no outputs chosen, test cases and harness do not compare the same outputs. -/
theorem testcases_differ_from_harness :
    ∃ c p g, CommandLine.read commandLine = .ok (arguments false) ∧
      Loop.Starts (setup false).solver (arguments false) workspace (setup false) c ∧
      EndsIn (Sketch.Generator.program request) files c.generator p g ∧
      ∀ n found w₁, ∃ groups record inputs checks t w₂,
        p.recordsText = groups ++ "struct StateAndPacket \x7b\n" ++ record ++ "\x7d\n\n" ∧
        p.harnessText = inputs ++ ");\n\n  |StateAndPacket| pipeline_result = pipeline(x);\n" ++
          "  |StateAndPacket| program_result = program(x);\n\n" ++ checks ++ p.testcases ++ "\n\n  \x7d\n" ∧
        Compile.Ends (Loop.testcase (setup false) n found) c w₁ t c w₂ ∧
        ¬ ∀ name, Compares "pipeline_result" "program_result" record checks name ↔
          Compares ("pipeline(" ++ inputName n ++ ")") ("program(" ++ inputName n ++ ")") record t.assertions name := by
  obtain ⟨c, p, g, hstarts, hprogram⟩ := exists_program
  have hslots : ((Sketch.describedBy (files.readAscii "u.alu")).map fun d => d.stateVars.length) = some 2 := by
    decide +kernel
  refine ⟨c, p, g, read_commandLine, hstarts, hprogram, fun n found w₁ => ?_⟩
  obtain ⟨d, groups, record, inputs, checks, t, w₂, hd, hrecords, hharness, htestcase, -, -, hiff⟩ :=
    testcases_compare_as_harness_iff read_commandLine hstarts .start hprogram n found c w₁
  refine ⟨groups, record, inputs, checks, t, w₂, hrecords, hharness, htestcase, fun hsame => ?_⟩
  have hfile : (arguments false).statefulFile = "u.alu" := rfl
  rw [hfile] at hd
  rw [hd] at hslots
  have hlength : d.stateVars.length = 2 := Option.some.inj hslots
  rcases hiff.1 hsame with h | h | h
  · exact h rfl
  · exact h rfl
  · rw [hlength] at h
    exact absurd h (by decide)

end TwoSlots

end SwitchSynth
