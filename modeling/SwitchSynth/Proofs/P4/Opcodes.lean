import SwitchSynth.P4.Program
import SwitchSynth.Proofs.Sketch.Bodies

/-!
# Opcodes in sketches and in switch programs

The stateless ALU of the switch is described by a text, from which its function in a sketch is written. A switch program
has one instruction for each opcode instead. Both compute the same, also for the opcodes beyond the greatest one that
the hole can have: the function is run as it is written, where a comparison binds more tightly than a choice.
-/

namespace SwitchSynth.Sketch

open Alu (Expr Else)
open Reading (kind chars value? Wordy IsName)
open Machine (choice? notMem_of_wordy)

variable {σ : String → Int} {a b c d s last : String}

/-! ### Choices -/

theorem reads_operation {o : Reading.Operator} {v : Int} (hs : Reading.signWord s = some (.operator o)) (ha : IsName a)
    (hb : Reading.IsWord b.toList) (hv : Reading.Reads σ Reading.atomLevel (chars b) v) :
    Reading.Reads σ o.level (chars (a ++ s ++ b)) (o.apply (σ a) v) := by
  have hlevel := o.level_lt_atomLevel
  rw [Reading.chars_append, Reading.chars_append, List.append_assoc]
  exact (Reading.introduces_joined hs hb.apart).reads ((Reading.reads_name ha).mono (Nat.le_of_lt hlevel))
    (hv.mono hlevel)

theorem value?_operation {o : Reading.Operator} (hs : Reading.signWord s = some (.operator o)) (ha : IsName a)
    (hb : IsName b) : value? σ (chars (a ++ s ++ b)) = some (o.apply (σ a) (σ b)) :=
  (reads_operation hs ha hb.isWord (Reading.reads_name hb)).value?_eq o.one_le_level

theorem choice?_greater (ha : IsName a) (hb : IsName b) (hc : IsName c) (hd : IsName d) :
    choice? σ (' ' :: (a ++ ">" ++ b ++ "?" ++ c ++ ":" ++ d).toList) = some (if σ a > σ b then σ c else σ d) := by
  have hcondition : ∀ x ∈ ' ' :: (a ++ ">" ++ b).toList, decide (x ≠ '?') = true := by
    have hne {s : String} (h : IsName s) {x : Char} (hx : x ∈ s.toList) : x ≠ '?' :=
      fun heq => notMem_of_wordy h.isWord.kind_eq (by decide) (heq ▸ hx)
    intro x hx
    simp only [String.toList_append, List.mem_cons, List.mem_append] at hx
    rcases hx with rfl | (hx | hx) | hx
    · decide
    · exact decide_eq_true (hne ha hx)
    · exact decide_eq_true (by rintro rfl; exact absurd hx (by decide))
    · exact decide_eq_true (hne hb hx)
  have hfirst : ∀ x ∈ c.toList, decide (x ≠ ':') = true := fun x hx =>
    decide_eq_true fun heq => notMem_of_wordy hc.isWord.kind_eq (by decide) (heq ▸ hx)
  have htext : ' ' :: (a ++ ">" ++ b ++ "?" ++ c ++ ":" ++ d).toList =
      (' ' :: (a ++ ">" ++ b).toList) ++ '?' :: (c.toList ++ ':' :: d.toList) := by
    simp
  have hvalue : value? σ ((' ' :: (a ++ ">" ++ b).toList).map .char) = some (Reading.bit (σ a > σ b)) :=
    (Reading.value?_blank_cons rfl).trans (value?_operation (s := ">") (o := .gt) rfl ha hb)
  rw [htext, choice?, List.dropWhile_append_of_pos hcondition, List.takeWhile_append_of_pos hcondition]
  simp only [ne_eq, not_true_eq_false, decide_false, Bool.false_eq_true, not_false_eq_true, List.dropWhile_cons_of_neg,
    List.takeWhile_cons_of_neg, List.append_nil, hvalue, Option.bind_some, Reading.bit_eq_zero, ite_not,
    List.dropWhile_append_of_pos hfirst, List.takeWhile_append_of_pos hfirst, List.drop_succ_cons, List.drop_zero]
  split
  · exact (Reading.reads_name hc).value?_eq (by decide)
  · exact (Reading.reads_name hd).value?_eq (by decide)

/-! ### Branches that return values -/

namespace StatelessAlu

/-- The text of an expression. -/
def shown? (e : Expr) : Option String :=
  (exprText e).toExcept.toOption

/-- The texts of the conditions and values of a branch that returns a value in each of its later arms, and of the value
behind all conditions. -/
def arms? : Else → Option (List (String × String) × String)
  | .elif condition (.last (.ret value _)) rest => do
    let condition ← shown? condition
    let value ← shown? value
    let (arms, last) ← arms? rest
    return ((condition, value) :: arms, last)
  | .otherwise (.last (.ret value _)) => (shown? value).map ([], ·)
  | _ => none

def armLine (arm : String × String) : String :=
  "if (" ++ arm.1 ++ ")\n \x7b\t\treturn " ++ arm.2 ++ ";\n\x7d\n"

def armLines (arms : List (String × String)) (last : String) : String :=
  String.join (arms.map fun arm => "else " ++ armLine arm) ++ "else \x7b\n\t\treturn " ++ last ++ ";\n\x7d\n"

/-- An arm for each opcode from a number on. -/
def opcodeArms (k : Nat) (values : List String) : List (String × String) :=
  (values.zipIdx k).map fun value => ("opcode==" ++ toString value.2, value.1)

theorem value?_opcode (k : Nat) : value? σ (.char ' ' ::
    ('(' :: (("opcode==" ++ toString k).toList ++ [')', '\n', ' '])).map .char) =
      some (Reading.bit (σ "opcode" = k)) := by
  have hnumber := Reading.reads_numeral (σ := σ) (Reading.isNumeral_toString k)
  rw [Reading.numeral_toString] at hnumber
  have hequal := reads_operation (s := "==") (o := .eq) rfl (show IsName "opcode" by decide)
    (Reading.isNumeral_toString k).isWord hnumber
  exact Reading.value?_condition hequal (by decide) (Reading.kind_eq_of_all rfl)

/-- The arm of an opcode, with its value. -/
def opcodeArm (e : String × Nat) : Machine.Arm where
  lead := []
  condition := '(' :: (("opcode==" ++ toString e.2).toList ++ [')', '\n', ' '])
  gap := ['\t', '\t']
  value := e.1.toList
  close := ['\n']

theorem shown?_eq_some {e : Expr} (h : shown? e = some s) : (exprText e).toExcept = .ok s := by
  unfold shown? at h
  cases hshown : (exprText e).toExcept with
  | error err => rw [hshown] at h; cases h
  | ok t => rw [hshown] at h; cases h; rfl

theorem armText_eq {condition value : Expr} {terminator : String} (hc : shown? condition = some c)
    (hv : shown? value = some d) :
    (" (" ++ exprText condition ++ ")\n \x7b" ++ bodyText (.last (.ret value terminator)) ++ "\n\x7d\n" : Written).toExcept =
      .ok (" (" ++ c ++ ")\n \x7b" ++ ("\t\treturn " ++ d ++ ";") ++ "\n\x7d\n") := by
  simp only [Written.toExcept_append, Written.toExcept_coe, bodyText, stmtText, returnText]
  exact ⟨_, _, ⟨_, _, ⟨_, _, ⟨_, _, rfl, shown?_eq_some hc, rfl⟩, rfl, rfl⟩, ⟨_, _, ⟨_, _, rfl, shown?_eq_some hv, rfl⟩, rfl,
    rfl⟩, rfl⟩, rfl, rfl⟩

theorem elseText_eq {rest : Else} {arms : List (String × String)} (h : arms? rest = some (arms, last)) :
    (elseText rest).toExcept = .ok (armLines arms last) := by
  induction arms generalizing rest with
  | nil =>
    unfold arms? at h
    split at h
    · simp [Option.bind_eq_some_iff] at h
    · next value _ =>
      obtain ⟨d, hd, heq⟩ := Option.map_eq_some_iff.1 h
      cases heq
      simp only [elseText, bodyText, stmtText, returnText, Written.toExcept_append, Written.toExcept_coe]
      refine ⟨_, _, ⟨_, _, rfl, ⟨_, _, ⟨_, _, rfl, shown?_eq_some hd, rfl⟩, rfl, rfl⟩, rfl⟩, rfl, ?_⟩
      apply String.toList_inj.1
      simp [armLines]
    · cases h
  | cons arm arms ih =>
    unfold arms? at h
    split at h
    · next condition value terminator rest =>
      simp only [Option.bind_eq_bind, Option.bind_eq_some_iff, Option.pure_def, Option.some.injEq, Prod.mk.injEq,
        List.cons.injEq, Prod.exists] at h
      obtain ⟨c, hc, d, hd, arms', last', hrest, ⟨rfl, rfl⟩, rfl⟩ := h
      rw [elseText, Written.toExcept_append]
      refine ⟨_, _, Written.toExcept_append.2 ⟨_, _, rfl, armText_eq hc hd, rfl⟩, ih hrest, ?_⟩
      apply String.toList_inj.1
      simp [armLines, armLine]
    · simp at h
    · cases h

/-- The texts of the conditions and values of a body that is one such branch. -/
def branch? : Alu.Body → Option (List (String × String) × String)
  | .last (.branch condition (.last (.ret value _)) rest) => do
    let condition ← shown? condition
    let value ← shown? value
    let (arms, last) ← arms? rest
    return ((condition, value) :: arms, last)
  | _ => none

theorem bodyText_eq {body : Alu.Body} {arm : String × String} {arms : List (String × String)}
    (h : branch? body = some (arm :: arms, last)) :
    (bodyText body).toExcept = .ok (armLine arm ++ armLines arms last) := by
  unfold branch? at h
  split at h
  · next condition value terminator rest =>
    simp only [Option.bind_eq_bind, Option.bind_eq_some_iff, Option.pure_def, Option.some.injEq, Prod.mk.injEq,
      List.cons.injEq, Prod.exists] at h
    obtain ⟨c, hc, d, hd, arms', last', hrest, ⟨rfl, rfl⟩, rfl⟩ := h
    rw [bodyText, stmtText, Written.toExcept_append]
    refine ⟨_, _, Written.toExcept_append.2 ⟨_, _, rfl, armText_eq hc hd, rfl⟩, elseText_eq hrest, ?_⟩
    apply String.toList_inj.1
    simp [armLine]
  · cases h

theorem find?_zipIdx (values : List String) {k n : Nat} (hk : k ≤ n) :
    (values.zipIdx k).find? (fun e => (n : Int) = e.2) = values[n - k]?.map (·, n) := by
  induction values generalizing k with
  | nil => rfl
  | cons e values ih =>
    rw [List.zipIdx_cons, List.find?_cons]
    by_cases heq : n = k
    · simp [heq]
    · rw [decide_eq_false (by omega), ih (by omega), show n - k = n - (k + 1) + 1 by omega, List.getElem?_cons_succ]

/-- A branch over the opcodes from zero on returns the value of the opcode. -/
theorem result?_opcodeArms (value : String → Int) {n : Nat} (hn : σ "opcode" = n) (last first : String) (values : List String)
    (hvalues : ∀ e ∈ last :: first :: values,
      Machine.plain e.toList = true ∧ choice? σ (' ' :: e.toList) = some (value e)) :
    result? σ (armLine ("opcode==0", first) ++ armLines (opcodeArms 1 values) last) =
      some (value ((first :: values)[n]?.getD last)) := by
  obtain ⟨hlast, hvalues⟩ := List.forall_mem_cons.1 hvalues
  have hyields (e : String × Nat) (he : e.1 ∈ first :: values) :
      (opcodeArm e).Yields σ (σ "opcode" = e.2) (value e.1) :=
    ⟨rfl, by simpa [opcodeArm] using Machine.plain_of_wordy (Reading.wordy_toString e.2), value?_opcode e.2, rfl,
      (hvalues e.1 he).1, (hvalues e.1 he).2, rfl⟩
  have htext : (armLine ("opcode==0", first) ++ armLines (opcodeArms 1 values) last).toList =
      [] ++ ((opcodeArm (first, 0)).text "if" ++ ((values.zipIdx 1).flatMap (fun e => (opcodeArm e).text "else if") ++
        ("else \x7b".toList ++ ("\n\t\t".toList ++ ("return ".toList ++ (last.toList ++ ';' :: "\n\x7d\n".toList)))))) := by
    simp [armLine, armLines, opcodeArms, opcodeArm, Machine.Arm.text, Machine.Arm.inner, List.flatMap_map]
  have hmore : ∀ e ∈ values.zipIdx 1, (opcodeArm e).Yields σ (σ "opcode" = e.2) (value e.1) := fun e he =>
    hyields e (List.mem_cons_of_mem _ (List.fst_mem_of_mem_zipIdx he))
  rw [result?, htext, (hyields (first, 0) List.mem_cons_self).run_if rfl,
    Machine.run_arms hmore rfl fun gap hgap => Machine.run_else hgap (by decide) hlast.1 hlast.2, hn]
  cases n with
  | zero => rfl
  | succ n =>
    rw [if_neg (by omega), find?_zipIdx values (Nat.le_add_left 1 n), Nat.add_sub_cancel, List.getElem?_cons_succ]
    cases values[n]? <;> rfl

end StatelessAlu

end SwitchSynth.Sketch

namespace SwitchSynth.P4

open Sketch (StatelessAlu Written choice?_greater result? value?_operation)
open Sketch.Machine (choice? choice?_name choice?_plain)
open Sketch.StatelessAlu (armLine armLines branch? opcodeArms)
open Reading (IsName)

/-- What an instruction puts into its target. -/
def Instruction.result (values : String → Int) : Instruction → Int
  | modify _ a => values a
  | add _ a b => values a + values b
  | subtract _ a b => values a - values b
  | max _ a b => Max.max (values a) (values b)
  | min _ a b => Min.min (values a) (values b)

/-- The stateless ALU of the switch. -/
def switchAlu : String :=
  "// Max value of opcode is 10
type : stateless
state variables : \x7b\x7d
hole variables : \x7bopcode, immediate_operand\x7d
packet fields : \x7bpkt_0, pkt_1\x7d

// TODO: Currently, we only support boolean operations and not bit-wise operations
// for and, or, nand, etc.

if (opcode == 0) \x7b
    // modify_field(mdata.result1, mdata.pkt_0);
    return pkt_0;
\x7d elif (opcode == 1) \x7b
    // modify_field(mdata.result1, immediate_operand)
    return immediate_operand;
\x7d elif (opcode == 2) \x7b
    // add(mdata.result1, mdata.pkt_0, mdata.pkt_1);
    return pkt_0 + pkt_1;
\x7d elif (opcode == 3) \x7b
    // add(mdata.reseult1, mdata.pkt_0, immediate_operand);
    return pkt_0 + immediate_operand;
\x7d elif (opcode == 4) \x7b
    // subtract(mdata.result1, mdata.pkt_1, mdata.pkt_0);
    return pkt_1 - pkt_0;
\x7d elif (opcode == 5) \x7b
    // subtract(mdata.result1, mdata.pkt_0, immediate_operand);
    return pkt_0 - immediate_operand;
\x7d elif (opcode == 6) \x7b
    // subtract(mdata.result1, immediate_operand, mdata.pkt_0);
    return immediate_operand - pkt_0;
\x7d elif (opcode == 7) \x7b
    // max(mdata.result1, mdata.pkt_0, mdata.pkt_1);
    return pkt_0 > pkt_1 ? pkt_0 : pkt_1;
\x7d elif (opcode == 8) \x7b
    // max(mdata.result1, mdata.pkt_0, immediate_operand);
    return pkt_0 > immediate_operand ? pkt_0 : immediate_operand;
\x7d elif (opcode == 9) \x7b
    // min(mdata.result1, mdata.pkt_0, mdata.pkt_1);
    return pkt_0 > pkt_1 ? pkt_1 : pkt_0;
\x7d else \x7b
    // min(mdata.result1, mdata.pkt_0, immediate_operand);
    return pkt_0 > immediate_operand ? immediate_operand : pkt_0;
\x7d
  // TODO: add back left shift and right shift
  // elif (opcode == 14) \x7b
  // shift_left(mdata.result1, mdata.pkt_0, 1;
  // TODO: Do we need to support bit shifts by variable amounts?
  // i.e. pkt_0 << pkt_1
  //  return pkt_0 << 1;
  // \x7d else \x7b
  // result1 = pkt_0 >> pkt_1(immediate value)
  // TODO: Same here as above. variable bit shifts
  // return pkt_0 >> 1;
  // \x7d
"

/-- The values that it returns for the opcodes from zero on. -/
def opcodeValues : List String :=
  ["pkt_0", "immediate_operand", "pkt_0" ++ "+" ++ "pkt_1", "pkt_0" ++ "+" ++ "immediate_operand",
   "pkt_1" ++ "-" ++ "pkt_0", "pkt_0" ++ "-" ++ "immediate_operand", "immediate_operand" ++ "-" ++ "pkt_0",
   "pkt_0" ++ ">" ++ "pkt_1" ++ "?" ++ "pkt_0" ++ ":" ++ "pkt_1",
   "pkt_0" ++ ">" ++ "immediate_operand" ++ "?" ++ "pkt_0" ++ ":" ++ "immediate_operand",
   "pkt_0" ++ ">" ++ "pkt_1" ++ "?" ++ "pkt_1" ++ ":" ++ "pkt_0"]

/-- The value that it returns for all other opcodes. -/
def lastValue : String :=
  "pkt_0" ++ ">" ++ "immediate_operand" ++ "?" ++ "immediate_operand" ++ ":" ++ "pkt_0"

theorem toList_of_eq_ofList {s : String} {l : List Char} (h : s = String.ofList l) : s.toList = l := by
  rw [h, String.toList_ofList]

/-- Whether a text was read as a stateless ALU with these values. -/
def isSwitchAlu : Alu.Source → Bool
  | .whole d => d.indicator = .stateless ∧ d.holeVars = ["opcode", "immediate_operand"] ∧
      d.packetFields = ["pkt_0", "pkt_1"] ∧ branch? d.body = some (opcodeArms 0 opcodeValues, lastValue)
  | .headerOnly _ => false

set_option maxRecDepth 20000 in
theorem switchAlu_read : isSwitchAlu (Alu.Source.read (Alu.lex switchAlu)) = true := by
  unfold Alu.lex
  rw [Text.chars_eq, toList_of_eq_ofList (show switchAlu = String.ofList _ from rfl)]
  decide +kernel

set_option maxRecDepth 20000 in
theorem opcodeBits_switchAlu : StatelessAlu.opcodeBits switchAlu = .ok 4 := by
  have hgreatest : StatelessAlu.greatestOpcode switchAlu = .ok 10 := by
    simp only [StatelessAlu.greatestOpcode, Text.firstLine, Text.read, Text.chars_eq, String.toList_ofList]
    rw [toList_of_eq_ofList (show switchAlu = String.ofList _ from rfl)]
    rfl
  rw [StatelessAlu.opcodeBits, hgreatest]
  decide +kernel

theorem isSwitchAlu_iff {source : Alu.Source} : isSwitchAlu source = true ↔ ∃ d, source = .whole d ∧
    d.indicator = .stateless ∧ d.holeVars = ["opcode", "immediate_operand"] ∧ d.packetFields = ["pkt_0", "pkt_1"] ∧
      branch? d.body = some (opcodeArms 0 opcodeValues, lastValue) := by
  cases source with
  | whole d => simp [isSwitchAlu]
  | headerOnly _ => simp [isSwitchAlu]

/-- The body that is written for it. -/
def switchBody : String :=
  armLine ("opcode==0", "pkt_0") ++ armLines (opcodeArms 1 opcodeValues.tail) lastValue

theorem result?_switchBody {σ values : String → Int} {opcode : Nat} (hopcode : σ "opcode" = opcode)
    {first second immediate : String} (hfirst : σ "pkt_0" = values first) (hsecond : σ "pkt_1" = values second)
    (himmediate : σ "immediate_operand" = values immediate) (result : String) :
    result? σ switchBody = some ((Instruction.ofOpcode result first second immediate opcode).result values) := by
  have hname0 : IsName "pkt_0" := by decide
  have hname1 : IsName "pkt_1" := by decide
  have hname2 : IsName "immediate_operand" := by decide
  have hsum {s : String} {o : Reading.Operator} (hs : Reading.signWord s = some (.operator o)) {a b : String}
      (ha : IsName a) (hb : IsName b) (hplain : '?' ∉ (a ++ s ++ b).toList) :
      choice? σ (' ' :: (a ++ s ++ b).toList) = some (o.apply (σ a) (σ b)) :=
    (choice?_plain hplain).trans (value?_operation hs ha hb)
  have h0 := choice?_name (σ := σ) hname0
  have h1 := choice?_name (σ := σ) hname2
  have h2 := hsum (s := "+") (o := .add) rfl hname0 hname1 (by decide)
  have h3 := hsum (s := "+") (o := .add) rfl hname0 hname2 (by decide)
  have h4 := hsum (s := "-") (o := .sub) rfl hname1 hname0 (by decide)
  have h5 := hsum (s := "-") (o := .sub) rfl hname0 hname2 (by decide)
  have h6 := hsum (s := "-") (o := .sub) rfl hname2 hname0 (by decide)
  have h7 := choice?_greater (σ := σ) hname0 hname1 hname0 hname1
  have h8 := choice?_greater (σ := σ) hname0 hname2 hname0 hname2
  have h9 := choice?_greater (σ := σ) hname0 hname1 hname1 hname0
  have hlast := choice?_greater (σ := σ) hname0 hname2 hname2 hname0
  let value (e : String) : Int := (choice? σ (' ' :: e.toList)).getD 0
  have hvalue {e : String} {v : Int} (h : choice? σ (' ' :: e.toList) = some v) : value e = v := by
    simp only [value, h, Option.getD_some]
  have hplain {e : String} {v : Int} (hplain : Sketch.Machine.plain e.toList = true)
      (h : choice? σ (' ' :: e.toList) = some v) :
      Sketch.Machine.plain e.toList = true ∧ choice? σ (' ' :: e.toList) = some (value e) :=
    ⟨hplain, (hvalue h).symm ▸ h⟩
  have hvalues : ∀ e ∈ lastValue :: "pkt_0" :: opcodeValues.tail,
      Sketch.Machine.plain e.toList = true ∧ choice? σ (' ' :: e.toList) = some (value e) := by
    simp only [opcodeValues, List.tail_cons, List.forall_mem_cons]
    exact ⟨hplain (by decide) hlast, hplain (by decide) h0, hplain (by decide) h1, hplain (by decide) h2,
      hplain (by decide) h3, hplain (by decide) h4, hplain (by decide) h5, hplain (by decide) h6,
      hplain (by decide) h7, hplain (by decide) h8, hplain (by decide) h9, by simp⟩
  have hmax (x y : Int) : (if x > y then x else y) = max x y := by omega
  have hmin (x y : Int) : (if x > y then y else x) = min x y := by omega
  simp only [hfirst, hsecond, himmediate, hmax, hmin] at h0 h1 h2 h3 h4 h5 h6 h7 h8 h9 hlast
  rw [switchBody, StatelessAlu.result?_opcodeArms value hopcode lastValue "pkt_0" opcodeValues.tail hvalues]
  refine congrArg some ?_
  match opcode with
  | 0 => exact hvalue h0
  | 1 => exact hvalue h1
  | 2 => exact hvalue h2
  | 3 => exact hvalue h3
  | 4 => exact hvalue h4
  | 5 => exact hvalue h5
  | 6 => exact hvalue h6
  | 7 => exact hvalue h7
  | 8 => exact hvalue h8
  | 9 => exact hvalue h9
  | _ + 10 => exact hvalue hlast

/-- A body returns, for every opcode of so many bits and in every store, what the instruction of the opcode puts into its
target. -/
def ReturnsResults (bits : Nat) (body : String) : Prop :=
  ∀ opcode : Nat, opcode < 2 ^ bits → ∀ (σ values : String → Int) (result first second immediate : String),
    σ "opcode" = opcode → σ "pkt_0" = values first → σ "pkt_1" = values second →
      σ "immediate_operand" = values immediate →
        result? σ body = some ((Instruction.ofOpcode result first second immediate opcode).result values)

end SwitchSynth.P4
