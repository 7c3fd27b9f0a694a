import Mathlib.Data.List.Nodup
import Mathlib.Data.List.Perm.Basic
import SwitchSynth.Proofs.Sketch.Holes
import SwitchSynth.Proofs.Sketch.Names
import SwitchSynth.Text.Word

/-!
# The names of the holes of a sketch

A hole is named for the ALU, the container or the state group that it belongs to. Behind the name of an ALU stands what
the hole is for, and this may be any text, since the holes of a stateless ALU are named in its file. The words in front
of it have no underscore and are as many for all holes, so that a name tells the hole.
-/

namespace SwitchSynth

/-- Words and what follows them can be told apart if their number is known. -/
theorem Text.path_append_inj {ws vs : List String} {a b : String} (hlength : ws.length = vs.length)
    (hws : ∀ w ∈ ws, Plain w) (hvs : ∀ v ∈ vs, Plain v) (ha : ∀ c ∈ a.toList.head?, c = '_')
    (hb : ∀ c ∈ b.toList.head?, c = '_') (h : path ws ++ a = path vs ++ b) : ws = vs ∧ a = b := by
  induction ws generalizing vs with
  | nil =>
    obtain rfl := List.length_eq_zero_iff.1 hlength.symm
    exact ⟨rfl, (String.append_right_inj _).1 h⟩
  | cons w ws ih =>
    cases vs with
    | nil => exact nomatch hlength
    | cons v vs =>
      obtain ⟨hw, hws'⟩ := List.forall_mem_cons.1 hws
      obtain ⟨hv, hvs'⟩ := List.forall_mem_cons.1 hvs
      obtain ⟨rfl, hrest⟩ := path_cons_append_inj hw hv ha hb h
      obtain ⟨rfl, rfl⟩ := ih (Nat.succ.inj hlength) hws' hvs' hrest
      exact ⟨rfl, rfl⟩

namespace Text

/-! ### Word characters -/

theorem isWord_of_ranges {c : Char} (h : 0x30 ≤ c.toNat ∧ c.toNat ≤ 0x39 ∨ 0x41 ≤ c.toNat ∧ c.toNat ≤ 0x5a ∨
    c.toNat = 0x5f ∨ 0x61 ≤ c.toNat ∧ c.toNat ≤ 0x7a) : isWord c = true := by
  have hranges : wordRanges =
    (0x30, 0x39) :: (0x41, 0x5a) :: (0x5f, 0x5f) :: (0x61, 0x7a) :: wordRanges.drop 4 := rfl
  rw [isWord, hranges]
  generalize wordRanges.drop 4 = rest
  simp only [Ranges.has]
  grind

theorem isWord_of_isIdentRest {c : Char} (h : Alu.isIdentRest c = true) : isWord c = true := by
  simp only [Alu.isIdentRest, Alu.isLetter, Alu.isDigit, Bool.or_eq_true, Bool.and_eq_true, decide_eq_true_eq,
    beq_iff_eq, Char.le_def, UInt32.le_iff_toNat_le] at h
  refine isWord_of_ranges ?_
  rcases h with ((h | h) | h) | rfl
  · exact .inr (.inr (.inr h))
  · exact .inr (.inl h)
  · exact .inl h
  · exact .inr (.inr (.inl rfl))

def AllWord (s : String) : Prop :=
  s.toList.all isWord = true

instance (s : String) : Decidable (AllWord s) :=
  inferInstanceAs (Decidable (_ = _))

theorem allWord_iff {s : String} : AllWord s ↔ ∀ c ∈ s.toList, isWord c = true :=
  List.all_eq_true

theorem allWord_append {a b : String} : AllWord (a ++ b) ↔ AllWord a ∧ AllWord b := by
  rw [AllWord, String.toList_append, List.all_append, Bool.and_eq_true]
  rfl

theorem allWord_toString (n : Nat) : AllWord (toString n) := by
  refine allWord_iff.2 fun c hc => isWord_of_ranges (.inl ?_)
  have hdigit := isDigit_of_mem_toString hc
  simp only [Char.isDigit, Bool.and_eq_true, decide_eq_true_eq, UInt32.le_iff_toNat_le] at hdigit
  exact hdigit

theorem allWord_path {words : List String} (h : ∀ w ∈ words, AllWord w) : AllWord (path words) := by
  induction words with
  | nil => exact (by decide : AllWord "")
  | cons w words ih =>
    rw [path, List.map_cons, String.join_cons, allWord_append, allWord_append]
    exact ⟨⟨by decide, h w List.mem_cons_self⟩, ih fun v hv => h v (List.mem_cons_of_mem w hv)⟩

end Text

namespace Sketch

open Text (Plain path path_concat plain_toString toString_nat_injective AllWord allWord_append allWord_toString)

/-! ### What stands behind the name of an ALU -/

def operandRest (k : Nat) : String :=
  "operand_mux_" ++ toString k ++ "_ctrl"

/-- The control of what a container takes from an ALU. -/
def demuxRest : String :=
  "demux_ctrl"

def Family.rest (f : Family) (n : Nat) : String :=
  f.hole n ++ "_global"

theorem operandRest_inj {k m : Nat} (h : operandRest k = operandRest m) : k = m :=
  toString_nat_injective ((String.append_right_inj _).1 ((String.append_left_inj _).1 h))

theorem Family.rest_inj {f f' : Family} {m n : Nat} (h : f.rest m = f'.rest n) : f = f' ∧ m = n := by
  have hglobal : f.globalHole "" m = f'.globalHole "" n := by
    rw [Family.globalHole, Family.globalHole, String.append_assoc, String.append_assoc]
    exact (String.append_right_inj _).2 h
  exact Family.globalHole_inj hglobal

theorem Family.head?_rest (f : Family) (n : Nat) : (f.rest n).toList.head? ∈ "MraOcb".toList.map some := by
  cases f <;> simp [Family.rest, Family.hole, Family.holeStem]

theorem head?_operandRest (k : Nat) : (operandRest k).toList.head? = some 'o' := by
  simp [operandRest]

theorem Family.rest_ne_operandRest (f : Family) (n k : Nat) : f.rest n ≠ operandRest k := by
  intro h
  have hhead := f.head?_rest n
  rw [h, head?_operandRest] at hhead
  exact absurd hhead (by decide)

theorem Family.rest_ne_demuxRest (f : Family) (n : Nat) : f.rest n ≠ demuxRest := by
  intro h
  have hhead := f.head?_rest n
  rw [h] at hhead
  exact absurd hhead (by decide)

theorem operandRest_ne_demuxRest (k : Nat) : operandRest k ≠ demuxRest := by
  intro h
  have hhead := head?_operandRest k
  rw [h] at hhead
  exact absurd hhead (by decide)

theorem allWord_operandRest (k : Nat) : AllWord (operandRest k) := by
  rw [operandRest, allWord_append, allWord_append]
  exact ⟨⟨by decide, allWord_toString k⟩, by decide⟩

theorem Family.allWord_rest (f : Family) (n : Nat) : AllWord (f.rest n) := by
  rw [Family.rest, Family.hole, allWord_append, allWord_append, allWord_append]
  exact ⟨⟨⟨by cases f <;> decide, by decide⟩, allWord_toString n⟩, by decide⟩

/-! ### Names -/

/-- The holes of a sketch, by what they are for. -/
inductive HoleName where
  | stateless (stage alu : Nat) (rest : String)
  | stateful (stage unit : Nat) (rest : String)
  /-- What a container takes behind a stage. -/
  | output (stage container : Nat)
  | active (stage group : Nat)
  /-- Whether a state group is served by the stateful ALU of a container. -/
  | served (group stage container : Nat)
  | field (field container : Nat)
  deriving DecidableEq, Repr

namespace HoleName

/-- The words behind the name of the sketch, as many for all holes that begin with it. -/
def heading : HoleName → List String
  | stateless i j _ => ["stateless", "alu", toString i, toString j]
  | stateful i l _ => ["stateful", "alu", toString i, toString l]
  | output i _ => ["output", "mux", "phv", toString i]
  | active i k => ["salu", "config", toString i, toString k]
  | served k i _ => ["salu", "config", toString k, toString i]
  | field _ _ => []

/-- What follows these words. -/
def ending : HoleName → String
  | stateless _ _ rest | stateful _ _ rest => "_" ++ rest
  | output _ c => "_" ++ toString c ++ "_ctrl"
  | served _ _ c => "_" ++ toString c
  | active _ _ | field _ _ => ""

def text (sketch : String) : HoleName → String
  | field k c => "phv" ++ path ["config", toString k, toString c]
  | n => sketch ++ (path n.heading ++ n.ending)

theorem plain_heading (n : HoleName) : ∀ w ∈ n.heading, Plain w := by
  have hwords : Plain "stateful" ∧ Plain "stateless" ∧ Plain "alu" ∧ Plain "output" ∧ Plain "mux" ∧ Plain "phv" ∧
      Plain "salu" ∧ Plain "config" := by
    simp [Plain]
  cases n with
  | field k c => exact fun w hw => absurd hw List.not_mem_nil
  | _ =>
    simp only [heading, List.forall_mem_cons, plain_toString, hwords, and_self, List.not_mem_nil, false_implies,
      implies_true]

theorem head?_ending (n : HoleName) : ∀ c ∈ n.ending.toList.head?, c = '_' := by
  cases n <;> simp [ending]

def inSketch : HoleName → Bool
  | field _ _ => false
  | _ => true

variable {n a b : HoleName} {sketch : String}

theorem text_of_inSketch (h : n.inSketch = true) (sketch : String) :
    n.text sketch = sketch ++ (path n.heading ++ n.ending) := by
  cases n with
  | field k c => exact nomatch h
  | _ => rfl

theorem length_heading (h : n.inSketch = true) : n.heading.length = 4 := by
  cases n with
  | field k c => exact nomatch h
  | _ => rfl

/-- A letter tells the holes behind the name of the sketch from those of packet fields. -/
theorem mem_text_of_inSketch (h : n.inSketch = true) (sketch : String) :
    'u' ∈ (n.text sketch).toList := by
  rw [text_of_inSketch h]
  cases n with
  | field k c => exact nomatch h
  | _ => simp [heading, path]

theorem not_mem_text_field (sketch : String) (k c : Nat) : 'u' ∉ ((field k c).text sketch).toList := by
  have hdigits (n : Nat) : 'u' ∉ (toString n).toList := fun h => absurd (Text.isDigit_of_mem_toString h) (by decide)
  simp only [text, path, List.map_cons, List.map_nil, String.join_cons, String.join_nil, String.toList_append,
    List.mem_append, hdigits, or_false]
  decide

theorem eq_of_heading_ending (ha : a.inSketch = true) (hb : b.inSketch = true)
    (hheading : a.heading = b.heading) (hending : a.ending = b.ending) : a = b := by
  cases a <;> cases b <;> simp only [inSketch, Bool.false_eq_true] at ha hb
  -- Names of different kinds begin with different words, except for the two that give ALUs to state groups.
  all_goals
    simp only [heading, ending, List.cons.injEq, String.reduceEq, false_and, and_false, true_and, and_true,
      String.append_right_inj, String.append_left_inj] at hheading hending
  case stateless.stateless | stateful.stateful =>
    rw [toString_nat_injective hheading.1, toString_nat_injective hheading.2, hending]
  case output.output => rw [toString_nat_injective hheading, toString_nat_injective hending]
  case active.active => rw [toString_nat_injective hheading.1, toString_nat_injective hheading.2]
  case served.served =>
    rw [toString_nat_injective hheading.1, toString_nat_injective hheading.2, toString_nat_injective hending]
  case active.served => exact absurd hending (by simp [← String.toList_inj])
  case served.active => exact absurd hending (by simp [← String.toList_inj])

theorem text_inj (h : a.text sketch = b.text sketch) : a = b := by
  cases ha : a.inSketch <;> cases hb : b.inSketch
  · cases a <;> simp only [inSketch, Bool.true_eq_false] at ha
    cases b <;> simp only [inSketch, Bool.true_eq_false] at hb
    have hplain (k c : Nat) : ∀ w ∈ ["config", toString k, toString c], Plain w := by
      have hword : Plain "config" := by simp [Plain]
      simp only [List.forall_mem_cons, plain_toString, hword, and_self, List.not_mem_nil, false_implies, implies_true]
    have hwords := Text.path_inj (hplain _ _) (hplain _ _) ((String.append_right_inj "phv").1 h)
    simp only [List.cons.injEq, true_and, and_true] at hwords
    rw [toString_nat_injective hwords.1, toString_nat_injective hwords.2]
  · cases a <;> simp only [inSketch, Bool.true_eq_false] at ha
    exact absurd (h ▸ mem_text_of_inSketch hb sketch) (not_mem_text_field sketch _ _)
  · cases b <;> simp only [inSketch, Bool.true_eq_false] at hb
    exact absurd (h ▸ mem_text_of_inSketch ha sketch) (not_mem_text_field sketch _ _)
  · rw [text_of_inSketch ha, text_of_inSketch hb, String.append_right_inj] at h
    obtain ⟨hheading, hending⟩ := Text.path_append_inj ((length_heading ha).trans (length_heading hb).symm)
      a.plain_heading b.plain_heading a.head?_ending b.head?_ending h
    exact eq_of_heading_ending ha hb hheading hending

theorem text_ne_empty (n : HoleName) (sketch : String) : n.text sketch ≠ "" := by
  intro h
  cases hn : n.inSketch with
  | true => exact absurd (h ▸ mem_text_of_inSketch hn sketch) (by decide)
  | false =>
    cases n <;> simp only [inSketch, Bool.true_eq_false] at hn
    exact absurd h (by simp [text, ← String.toList_inj])

theorem allWord_heading (n : HoleName) : ∀ w ∈ n.heading, AllWord w := by
  have hwords : AllWord "stateful" ∧ AllWord "stateless" ∧ AllWord "alu" ∧ AllWord "output" ∧ AllWord "mux" ∧
      AllWord "phv" ∧ AllWord "salu" ∧ AllWord "config" := by
    decide
  cases n with
  | field k c => exact fun w hw => absurd hw List.not_mem_nil
  | _ =>
    simp only [heading, List.forall_mem_cons, allWord_toString, hwords, and_self, List.not_mem_nil, false_implies,
      implies_true]

theorem allWord_text (hsketch : AllWord sketch) (hending : AllWord n.ending) :
    AllWord (n.text sketch) := by
  cases hn : n.inSketch with
  | true =>
    rw [text_of_inSketch hn, allWord_append, allWord_append]
    exact ⟨hsketch, Text.allWord_path n.allWord_heading, hending⟩
  | false =>
    cases n <;> simp only [inSketch, Bool.true_eq_false] at hn
    rw [text, allWord_append]
    refine ⟨by decide, Text.allWord_path fun w hw => ?_⟩
    simp only [List.mem_cons, List.not_mem_nil, or_false] at hw
    rcases hw with rfl | rfl | rfl
    · decide
    · exact allWord_toString _
    · exact allWord_toString _

/-! ### How names are written -/

section Text

variable (p : Plan) (i j k : Nat) (rest : String)

theorem text_stateless : (stateless i j rest).text p.shape.sketchName = p.statelessName i j ++ "_" ++ rest := by
  have hpath : path ["stateless", "alu", toString i, toString j] =
      "_stateless_alu_" ++ toString i ++ "_" ++ toString j :=
    FunctionName.path_numbers ["stateless", "alu"] i j
  rw [text_of_inSketch rfl, heading, ending, hpath, Plan.statelessName]
  simp only [String.append_assoc]

theorem text_stateful : (stateful i j rest).text p.shape.sketchName = p.statefulName i j ++ "_" ++ rest := by
  have hpath : path ["stateful", "alu", toString i, toString j] = "_stateful_alu_" ++ toString i ++ "_" ++ toString j :=
    FunctionName.path_numbers ["stateful", "alu"] i j
  rw [text_of_inSketch rfl, heading, ending, hpath, Plan.statefulName]
  simp only [String.append_assoc]

theorem text_output : (output i j).text p.shape.sketchName = p.outputMux i j ++ "_ctrl" := by
  have hpath : path ["output", "mux", "phv", toString i] = "_output_mux_phv" ++ "_" ++ toString i :=
    path_concat ["output", "mux", "phv"] (toString i)
  rw [text_of_inSketch rfl, heading, ending, hpath, Plan.outputMux,
    show "_output_mux_phv_" = "_output_mux_phv" ++ "_" by decide]
  simp only [String.append_assoc]

variable (s : Shape)

theorem text_active : (active i k).text s.sketchName = Allocation.activeBit s i k := by
  have hpath : path ["salu", "config", toString i, toString k] = "_salu_config_" ++ toString i ++ "_" ++ toString k :=
    FunctionName.path_numbers ["salu", "config"] i k
  rw [text_of_inSketch rfl, heading, ending, hpath, Allocation.activeBit]
  simp only [String.append_assoc, String.append_empty]

theorem text_served : (served k i j).text s.sketchName = Allocation.groupBit s k i j := by
  have hpath : path ["salu", "config", toString k, toString i] = "_salu_config_" ++ toString k ++ "_" ++ toString i :=
    FunctionName.path_numbers ["salu", "config"] k i
  rw [text_of_inSketch rfl, heading, ending, hpath, Allocation.groupBit]
  simp only [String.append_assoc]

theorem text_field (sketch : String) : (field k j).text sketch = Plan.fieldConfig k j := by
  have hpath : path ["config", toString k, toString j] = "_config_" ++ toString k ++ "_" ++ toString j :=
    FunctionName.path_numbers ["config"] k j
  rw [text, hpath, Plan.fieldConfig, show "phv_config_" = "phv" ++ "_config_" by decide]
  simp only [String.append_assoc]
  rfl

end Text

/-- The stage that a hole belongs to; that of a packet field belongs to none. -/
def stage : HoleName → Nat
  | stateless i _ _ | stateful i _ _ | output i _ | active i _ | served _ i _ => i
  | field _ _ => 0

/-- The state group that a hole of an allocation belongs to. -/
def group : HoleName → Nat
  | active _ k | served k _ _ => k
  | _ => 0

end HoleName

/-! ### Each hole once -/

namespace Layout

/-- What the holes of a stateless ALU are for, as far as it brings them along. -/
def statelessRests (b : Layout) : List String :=
  match describedBy b.stateless with
  | none => []
  | some d => (List.range d.packetFields.length).map operandRest ++ d.holeVars

/-- What the holes of a stateful ALU are for, as far as helpers read them. -/
def helperRests (b : Layout) : List String :=
  match describedBy b.stateful with
  | none => []
  | some d => (helperKeys d).map fun h => h.1.rest h.2

/-- The multiplexers of the operands of a stateful ALU. -/
def operandRests (b : Layout) : List String :=
  (List.range ((describedBy b.stateful).elim 0 fun d => d.packetFields.length)).map operandRest

/-- The holes that the ALUs of a stage bring along. -/
def stageNames (b : Layout) (i : Nat) : List HoleName :=
  (upTo b.shape.alus).flatMap (fun j => b.statelessRests.map (.stateless i j)) ++
    b.plan.units.flatMap fun l => b.helperRests.map (.stateful i l)

/-- The holes that choose the operands of stateful ALUs. -/
def operandNames (b : Layout) : List HoleName :=
  (upTo b.shape.stages).flatMap fun i => b.plan.units.flatMap fun l => b.operandRests.map (.stateful i l)

/-- The holes that choose the containers behind the stages. -/
def outputNames (b : Layout) : List HoleName :=
  if b.shape.tofino then
    ((upTo b.shape.stages).flatMap fun i => (upTo b.shape.containers).map fun k => .stateless i k demuxRest) ++
      (upTo b.shape.stages).flatMap fun i => (upTo b.shape.groups).map fun k => .stateful i k demuxRest
  else (upTo b.shape.stages).flatMap fun i => (upTo b.shape.containers).map (.output i)

/-- The holes that allocate fields and state groups. -/
def allocationNames (b : Layout) : List HoleName :=
  if b.synthesized then
    ((upTo b.shape.containers).flatMap fun j => (upTo b.shape.fields).map fun k => .field k j) ++
      (upTo b.shape.groups).flatMap fun k => (upTo b.shape.stages).flatMap fun i =>
        (upTo b.shape.containers).map (.served k i)
  else (upTo b.shape.stages).flatMap fun i => (upTo b.shape.groups).map (.active i)

/-- The holes of a sketch, by what they are for. -/
def holeNames (b : Layout) : List HoleName :=
  (upTo b.shape.stages).flatMap b.stageNames ++ b.operandNames ++ b.outputNames ++ b.allocationNames

variable {b : Layout}

theorem map_name_inOrder (holes : List (String × Int)) :
    ((inOrder holes).map Hole.name).Perm (holes.map Prod.fst) := by
  rw [inOrder, List.map_map]
  exact (List.mergeSort_perm holes _).map Prod.fst

theorem operandMux_ctrl (name : String) (k : Nat) :
    name ++ "_operand_mux_" ++ toString k ++ "_ctrl" = name ++ "_" ++ operandRest k := by
  rw [operandRest, show "_operand_mux_" = "_" ++ "operand_mux_" by decide]
  simp only [String.append_assoc]

theorem perm_statelessHoles (i j : Nat) : ((b.statelessHoles (b.plan.statelessName i j)).map Hole.name).Perm
    (b.statelessRests.map fun rest => (HoleName.stateless i j rest).text b.shape.sketchName) := by
  have htext (rest : String) : (HoleName.stateless i j rest).text b.shape.sketchName =
      b.plan.statelessName i j ++ "_" ++ rest := HoleName.text_stateless b.plan i j rest
  unfold statelessHoles statelessRests
  cases describedBy b.stateless with
  | none => exact .nil
  | some d =>
    dsimp only
    rw [List.map_append, List.map_append, List.map_map, List.map_map]
    refine .append (.of_eq (List.map_congr_left fun k _ => ?_)) ((map_name_inOrder _).trans (.of_eq ?_))
    · exact (operandMux_ctrl _ k).trans (htext _).symm
    · rw [List.map_map]
      exact List.map_congr_left fun v _ => (htext v).symm

theorem perm_statefulHoles (i l : Nat) : ((b.statefulHoles (b.plan.statefulName i l)).map Hole.name).Perm
    (b.helperRests.map fun rest => (HoleName.stateful i l rest).text b.shape.sketchName) := by
  unfold statefulHoles helperRests
  cases describedBy b.stateful with
  | none => exact .nil
  | some d =>
    dsimp only
    refine (map_name_inOrder _).trans (.of_eq ?_)
    rw [helperKeys, List.map_map, List.map_map, List.map_map]
    refine List.map_congr_left fun h _ => ?_
    show Helper.globalHole _ h = (HoleName.stateful i l (h.primitive.family.rest h.number)).text b.plan.shape.sketchName
    rw [HoleName.text_stateful, Helper.globalHole, Family.globalHole, Family.rest, String.append_assoc]

theorem map_operandHoles : b.operandHoles.map Hole.name = b.operandNames.map (HoleName.text b.shape.sketchName) := by
  simp only [operandHoles, operandNames, operandRests, List.map_flatMap, List.map_map]
  refine List.flatMap_congr fun i _ => List.flatMap_congr fun l _ => List.map_congr_left fun k _ => ?_
  show b.plan.operandMux i l k ++ "_ctrl" = (HoleName.stateful i l (operandRest k)).text b.plan.shape.sketchName
  rw [HoleName.text_stateful, Plan.operandMux, operandMux_ctrl]

theorem map_outputHoles : b.outputHoles.map Hole.name = b.outputNames.map (HoleName.text b.shape.sketchName) := by
  unfold outputHoles outputNames
  split
  · have hdemux (name : String) : name ++ "_demux_ctrl" = name ++ "_" ++ demuxRest := by
      rw [demuxRest, String.append_assoc]
      rfl
    simp only [List.map_append, List.map_flatMap, List.map_map]
    congr 1
    · refine List.flatMap_congr fun i _ => List.map_congr_left fun k _ => ?_
      exact (hdemux _).trans (HoleName.text_stateless b.plan i k demuxRest).symm
    · refine List.flatMap_congr fun i _ => List.map_congr_left fun k _ => ?_
      exact (hdemux _).trans (HoleName.text_stateful b.plan i k demuxRest).symm
  · simp only [List.map_flatMap, List.map_map]
    exact List.flatMap_congr fun i _ => List.map_congr_left fun k _ => (HoleName.text_output b.plan i k).symm

theorem map_allocationHoles :
    b.allocationHoles.map Hole.name = b.allocationNames.map (HoleName.text b.shape.sketchName) := by
  rw [allocationHoles, List.map_map, show Hole.name ∘ (fun name => ⟨name, 1⟩) = id from rfl, List.map_id]
  unfold allocationNames
  split
  · simp only [Allocation.ofFields, Allocation.ofGroups, List.map_append, List.map_flatMap, List.map_map]
    congr 1
    · exact List.flatMap_congr fun j _ => List.map_congr_left fun k _ => (HoleName.text_field j k _).symm
    · exact List.flatMap_congr fun k _ => List.flatMap_congr fun i _ => List.map_congr_left fun j _ =>
        (HoleName.text_served i j k b.shape).symm
  · simp only [Allocation.canonical, List.map_flatMap, List.map_map]
    exact List.flatMap_congr fun i _ => List.map_congr_left fun k _ => (HoleName.text_active i k b.shape).symm

theorem perm_holeNames (b : Layout) :
    (b.holes.map Hole.name).Perm (b.holeNames.map (HoleName.text b.shape.sketchName)) := by
  simp only [holes, holeNames, List.map_append, map_operandHoles, map_outputHoles, map_allocationHoles]
  refine ((List.Perm.append_right _ ?_).append_right _).append_right _
  simp only [List.map_flatMap]
  refine List.Perm.flatMap_left _ fun i _ => ?_
  simp only [stageHoles, stageNames, List.map_append, List.map_flatMap, List.map_map]
  exact .append (.flatMap_left _ fun j _ => perm_statelessHoles i j) (.flatMap_left _ fun l _ => perm_statefulHoles i l)

variable {n : HoleName}

theorem mem_stageNames {i : Nat} (h : n ∈ b.stageNames i) :
    (∃ j, ∃ rest ∈ b.statelessRests, n = .stateless i j rest) ∨ ∃ l, ∃ f m, n = .stateful i l (Family.rest f m) := by
  rcases List.mem_append.1 h with h | h
  · obtain ⟨j, -, h⟩ := List.mem_flatMap.1 h
    obtain ⟨rest, hrest, rfl⟩ := List.mem_map.1 h
    exact .inl ⟨j, rest, hrest, rfl⟩
  · obtain ⟨l, -, h⟩ := List.mem_flatMap.1 h
    obtain ⟨rest, hrest, rfl⟩ := List.mem_map.1 h
    unfold helperRests at hrest
    split at hrest
    · exact absurd hrest List.not_mem_nil
    · obtain ⟨key, -, rfl⟩ := List.mem_map.1 hrest
      exact .inr ⟨l, key.1, key.2, rfl⟩

theorem mem_operandNames (h : n ∈ b.operandNames) : ∃ i l k, n = .stateful i l (operandRest k) := by
  simp only [operandNames, operandRests, List.mem_flatMap, List.mem_map] at h
  obtain ⟨i, -, l, -, _, ⟨k, -, rfl⟩, rfl⟩ := h
  exact ⟨i, l, k, rfl⟩

theorem mem_outputNames (h : n ∈ b.outputNames) :
    ∃ i k, n = .stateless i k demuxRest ∨ n = .stateful i k demuxRest ∨ n = .output i k := by
  unfold outputNames at h
  split at h
  · rcases List.mem_append.1 h with h | h
    · simp only [List.mem_flatMap, List.mem_map] at h
      obtain ⟨i, -, k, -, rfl⟩ := h
      exact ⟨i, k, .inl rfl⟩
    · simp only [List.mem_flatMap, List.mem_map] at h
      obtain ⟨i, -, k, -, rfl⟩ := h
      exact ⟨i, k, .inr (.inl rfl)⟩
  · simp only [List.mem_flatMap, List.mem_map] at h
    obtain ⟨i, -, k, -, rfl⟩ := h
    exact ⟨i, k, .inr (.inr rfl)⟩

theorem mem_allocationNames (h : n ∈ b.allocationNames) :
    (∃ i k, n = .active i k) ∨ (∃ k i c, n = .served k i c) ∨ ∃ k c, n = .field k c := by
  unfold allocationNames at h
  split at h
  · rcases List.mem_append.1 h with h | h
    · simp only [List.mem_flatMap, List.mem_map] at h
      obtain ⟨j, -, k, -, rfl⟩ := h
      exact .inr (.inr ⟨k, j, rfl⟩)
    · simp only [List.mem_flatMap, List.mem_map] at h
      obtain ⟨k, -, i, -, c, -, rfl⟩ := h
      exact .inr (.inl ⟨k, i, c, rfl⟩)
  · simp only [List.mem_flatMap, List.mem_map] at h
    obtain ⟨i, -, k, -, rfl⟩ := h
    exact .inl ⟨i, k, rfl⟩

theorem mem_holeNames (h : n ∈ b.holeNames) :
    (∃ i j rest, (rest ∈ b.statelessRests ∨ rest = demuxRest) ∧ n = .stateless i j rest) ∨
    (∃ i l rest, ((∃ f m, rest = Family.rest f m) ∨ (∃ k, rest = operandRest k) ∨ rest = demuxRest) ∧
      n = .stateful i l rest) ∨
    (∃ i k, n = .output i k) ∨ (∃ i k, n = .active i k) ∨ (∃ k i c, n = .served k i c) ∨ ∃ k c, n = .field k c := by
  simp only [holeNames, List.mem_append] at h
  rcases h with ((h | h) | h) | h
  · obtain ⟨i, -, h⟩ := List.mem_flatMap.1 h
    rcases mem_stageNames h with ⟨j, rest, hrest, rfl⟩ | ⟨l, f, m, rfl⟩
    · exact .inl ⟨i, j, rest, .inl hrest, rfl⟩
    · exact .inr (.inl ⟨i, l, _, .inl ⟨f, m, rfl⟩, rfl⟩)
  · obtain ⟨i, l, k, rfl⟩ := mem_operandNames h
    exact .inr (.inl ⟨i, l, _, .inr (.inl ⟨k, rfl⟩), rfl⟩)
  · obtain ⟨i, k, rfl | rfl | rfl⟩ := mem_outputNames h
    · exact .inl ⟨i, k, _, .inr rfl, rfl⟩
    · exact .inr (.inl ⟨i, k, _, .inr (.inr rfl), rfl⟩)
    · exact .inr (.inr (.inl ⟨i, k, rfl⟩))
  · exact .inr (.inr (.inr (mem_allocationNames h)))

/-- The names are made of word characters if those of the sketch and of the hole variables are. -/
theorem allWord_holeNames (hsketch : AllWord b.shape.sketchName)
    (hrests : ∀ rest ∈ b.statelessRests, AllWord rest) (h : n ∈ b.holeNames) :
    AllWord (n.text b.shape.sketchName) := by
  refine HoleName.allWord_text hsketch ?_
  have hctrl : AllWord "_ctrl" := by decide
  have hunderscore : AllWord "_" := by decide
  rcases mem_holeNames h with ⟨i, j, rest, hrest, rfl⟩ | ⟨i, l, rest, hrest, rfl⟩ | ⟨i, k, rfl⟩ | ⟨i, k, rfl⟩ |
    ⟨k, i, c, rfl⟩ | ⟨k, c, rfl⟩
  · rw [HoleName.ending, allWord_append]
    exact ⟨hunderscore, hrest.elim (hrests rest) fun heq => heq ▸ by decide⟩
  · rw [HoleName.ending, allWord_append]
    refine ⟨hunderscore, ?_⟩
    rcases hrest with ⟨f, m, rfl⟩ | ⟨k, rfl⟩ | rfl
    · exact f.allWord_rest m
    · exact allWord_operandRest k
    · decide
  · rw [HoleName.ending, allWord_append, allWord_append]
    exact ⟨⟨hunderscore, allWord_toString k⟩, hctrl⟩
  · exact (by decide : AllWord "")
  · rw [HoleName.ending, allWord_append]
    exact ⟨hunderscore, allWord_toString c⟩
  · exact (by decide : AllWord "")

theorem nodup_helperRests (b : Layout) : b.helperRests.Nodup := by
  unfold helperRests
  split
  · exact List.nodup_nil
  · next d hd =>
    refine (nodup_helperKeys d).map fun x y h => ?_
    obtain ⟨hfamily, hnumber⟩ := Family.rest_inj h
    exact Prod.ext hfamily hnumber

theorem nodup_stageNames (hrests : b.statelessRests.Nodup) (i : Nat) : (b.stageNames i).Nodup := by
  refine List.nodup_append.2 ⟨?_, ?_, ?_⟩
  · exact nodup_pairs (fun _ _ _ _ h => by cases h; exact ⟨rfl, rfl⟩) (nodup_upTo _) hrests
  · exact nodup_pairs (fun _ _ _ _ h => by cases h; exact ⟨rfl, rfl⟩) b.plan.nodup_units b.nodup_helperRests
  · rintro n hn _ hn' rfl
    obtain ⟨j, -, hn⟩ := List.mem_flatMap.1 hn
    obtain ⟨l, -, hn'⟩ := List.mem_flatMap.1 hn'
    obtain ⟨_, -, rfl⟩ := List.mem_map.1 hn
    obtain ⟨_, -, h⟩ := List.mem_map.1 hn'
    cases h

theorem nodup_operandNames (b : Layout) : b.operandNames.Nodup := by
  refine nodup_flatMap_of_tag HoleName.stage (nodup_upTo _) (fun i => ?_) fun i n hn => ?_
  · refine nodup_pairs (fun _ _ _ _ h => by cases h; exact ⟨rfl, rfl⟩) b.plan.nodup_units ?_
    exact List.nodup_range.map fun _ _ h => operandRest_inj h
  · simp only [List.mem_flatMap, List.mem_map] at hn
    obtain ⟨l, -, rest, -, rfl⟩ := hn
    rfl

theorem nodup_outputNames (b : Layout) : b.outputNames.Nodup := by
  unfold outputNames
  split
  · refine List.nodup_append.2 ⟨?_, ?_, ?_⟩
    · exact nodup_pairs (fun _ _ _ _ h => by cases h; exact ⟨rfl, rfl⟩) (nodup_upTo _) (nodup_upTo _)
    · exact nodup_pairs (fun _ _ _ _ h => by cases h; exact ⟨rfl, rfl⟩) (nodup_upTo _) (nodup_upTo _)
    · rintro n hn _ hn' rfl
      simp only [List.mem_flatMap, List.mem_map] at hn hn'
      obtain ⟨i, -, k, -, rfl⟩ := hn
      obtain ⟨i', -, k', -, h⟩ := hn'
      cases h
  · exact nodup_pairs (fun _ _ _ _ h => by cases h; exact ⟨rfl, rfl⟩) (nodup_upTo _) (nodup_upTo _)

theorem nodup_allocationNames (b : Layout) : b.allocationNames.Nodup := by
  unfold allocationNames
  split
  · refine List.nodup_append.2 ⟨?_, ?_, ?_⟩
    · exact nodup_pairs (fun _ _ _ _ h => by cases h; exact ⟨rfl, rfl⟩) (nodup_upTo _) (nodup_upTo _)
    · refine nodup_flatMap_of_tag HoleName.group (nodup_upTo _) (fun k => ?_) fun k n hn => ?_
      · exact nodup_pairs (fun _ _ _ _ h => by cases h; exact ⟨rfl, rfl⟩) (nodup_upTo _) (nodup_upTo _)
      · simp only [List.mem_flatMap, List.mem_map] at hn
        obtain ⟨i, -, c, -, rfl⟩ := hn
        rfl
    · rintro n hn _ hn' rfl
      simp only [List.mem_flatMap, List.mem_map] at hn hn'
      obtain ⟨j, -, k, -, rfl⟩ := hn
      obtain ⟨_, -, _, -, _, -, h⟩ := hn'
      cases h
  · exact nodup_pairs (fun _ _ _ _ h => by cases h; exact ⟨rfl, rfl⟩) (nodup_upTo _) (nodup_upTo _)

/-- A sketch has each of its holes once, if the holes of a stateless ALU do not get in each other's way. -/
theorem nodup_holeNames (hrests : b.statelessRests.Nodup) (hdemux : demuxRest ∉ b.statelessRests) :
    b.holeNames.Nodup := by
  refine List.nodup_append.2 ⟨List.nodup_append.2 ⟨List.nodup_append.2 ⟨?_, b.nodup_operandNames, ?_⟩,
    b.nodup_outputNames, ?_⟩, b.nodup_allocationNames, ?_⟩
  · refine nodup_flatMap_of_tag HoleName.stage (nodup_upTo _) (nodup_stageNames hrests) fun i n hn => ?_
    rcases mem_stageNames hn with ⟨j, rest, -, rfl⟩ | ⟨l, f, m, rfl⟩ <;> rfl
  · rintro n hn _ hn' rfl
    obtain ⟨i, -, hn⟩ := List.mem_flatMap.1 hn
    obtain ⟨i', l, k, rfl⟩ := mem_operandNames hn'
    rcases mem_stageNames hn with ⟨j, rest, -, h⟩ | ⟨l', f, m, h⟩
    · cases h
    · injection h with _ _ hrest
      exact f.rest_ne_operandRest m k hrest.symm
  · -- The holes of what containers take are named for it, and no other holes are.
    rintro n hn _ hn' rfl
    obtain ⟨i, k, hn'⟩ := mem_outputNames hn'
    rcases List.mem_append.1 hn with hn | hn
    · obtain ⟨i', -, hn⟩ := List.mem_flatMap.1 hn
      rcases mem_stageNames hn with ⟨j, rest, hrest, rfl⟩ | ⟨l, f, m, rfl⟩
      · rcases hn' with h | h | h <;> cases h
        exact hdemux hrest
      · rcases hn' with h | h | h
        · cases h
        · injection h with _ _ hrest
          exact f.rest_ne_demuxRest m hrest
        · cases h
    · obtain ⟨i', l, m, rfl⟩ := mem_operandNames hn
      rcases hn' with h | h | h
      · cases h
      · injection h with _ _ hrest
        exact operandRest_ne_demuxRest m hrest
      · cases h
  · rintro n hn _ hn' rfl
    have hkind : ∃ i j rest, n = .stateless i j rest ∨ n = .stateful i j rest ∨ n = .output i j := by
      rcases List.mem_append.1 hn with hn | hn
      · rcases List.mem_append.1 hn with hn | hn
        · obtain ⟨i, -, hn⟩ := List.mem_flatMap.1 hn
          rcases mem_stageNames hn with ⟨j, rest, -, rfl⟩ | ⟨l, f, m, rfl⟩
          · exact ⟨i, j, rest, .inl rfl⟩
          · exact ⟨i, l, _, .inr (.inl rfl)⟩
        · obtain ⟨i, l, k, rfl⟩ := mem_operandNames hn
          exact ⟨i, l, _, .inr (.inl rfl)⟩
      · obtain ⟨i, k, hn⟩ := mem_outputNames hn
        exact ⟨i, k, demuxRest, hn⟩
    obtain ⟨i, j, rest, hkind⟩ := hkind
    rcases mem_allocationNames hn' with ⟨i', k, rfl⟩ | ⟨k, i', c, rfl⟩ | ⟨k, c, rfl⟩ <;>
      rcases hkind with h | h | h <;> cases h

end Layout

end Sketch

end SwitchSynth
