import Mathlib.Algebra.BigOperators.Group.List.Basic
import Mathlib.Algebra.Ring.Int.Defs
import SwitchSynth.Proofs.Alu.Header
import SwitchSynth.Proofs.Matching
import SwitchSynth.Proofs.Sketch.History
import SwitchSynth.Proofs.Sketch.HoleNames
import SwitchSynth.Proofs.Table
import SwitchSynth.Sketch.HoleValue

/-!
# The records of holes

Behind a sketch its generator has each hole once. What it shows of them, the text that declares them, the parameters,
the number of all bits and the greatest values, tells the same holes in the same order, and reading the declarations
gives the names with their widths. For this the names have to be words: what a description calls its holes is made of
letters, digits and underscores, also where the description had to be mended.
-/

namespace SwitchSynth.Sketch

open Text (Pattern isWord isDigit)
open Text.Pattern (Goes Fails Takes Finds Shuns runLength runLength_append)

/-! ### Reading declarations -/

theorem isDigit_of_mem_toString {n : Nat} {c : Char} (h : c ∈ (toString n).toList) : isDigit c = true := by
  have hranges : Text.digitRanges = (0x30, 0x39) :: Text.digitRanges.drop 1 := rfl
  have hdigit := Text.isDigit_of_mem_toString h
  simp only [Char.isDigit, Bool.and_eq_true, decide_eq_true_eq, UInt32.le_iff_toNat_le] at hdigit
  have hlow : ¬ c.toNat < 0x30 := Nat.not_lt.2 hdigit.1
  have hhigh : c.toNat ≤ 0x39 := hdigit.2
  rw [isDigit, hranges, Text.Ranges.has, if_neg hlow, decide_eq_true hhigh, Bool.true_or]

theorem toString_ne_empty (n : Nat) : toString n ≠ "" := by
  intro h
  have hlist := congrArg String.toList h
  rw [Nat.toString_eq_repr, Nat.toList_repr] at hlist
  exact Nat.toDigits_ne_nil hlist

theorem any_word (x : Char) : [Text.CharItem.word].any (·.holds x) = isWord x :=
  Bool.or_false _

theorem any_digit (x : Char) : [Text.CharItem.digit].any (·.holds x) = isDigit x :=
  Bool.or_false _

theorem declarationPattern_eq : declarationPattern =
    .seqAll [.group 1 (.run [.word]), .text "= ??(", .group 2 (.run [.digit]), .text ");"] := rfl

theorem shuns_assignment (qs : List Pattern) : Shuns [.word] (.seqAll (.text "= ??(" :: qs)) :=
  Text.Pattern.shuns_text (fun x hx => by cases hx; decide) (by decide)

theorem shuns_closing : Shuns [.digit] (.seqAll [.text ");"]) :=
  Text.Pattern.shuns_text (fun x hx => by cases hx; decide) (by decide)

/-- There is no declaration where no word is, or where something else follows it. -/
theorem declaration_fails (word : List Char) {rest : List Char} (hword : ∀ x ∈ word, isWord x = true)
    (hrest : ∀ x ∈ rest.head?, isWord x = false ∧ x ≠ '=') : Fails declarationPattern (word ++ rest) := by
  intro c hc hcs
  have hlength : runLength [.word] c.rest = word.length := by
    rw [hcs]
    exact runLength_append (fun x hx => (any_word x).trans (hword x hx))
      fun x hx => (any_word x).trans (hrest x hx).1
  rw [declarationPattern_eq, Text.Pattern.ends_group_run hc (shuns_assignment _), hlength]
  split
  · rfl
  · refine Text.Pattern.ends_text_cons_eq_nil (hc.skip word.length) ?_
    rintro ⟨more, hmore⟩
    have hhead : '=' ∈ (c.rest.drop word.length).head? := by
      rw [show c.rest.drop word.length = "= ??(".toList ++ more from hmore.symm]
      rfl
    rw [hcs, List.drop_left] at hhead
    exact (hrest _ hhead).2 rfl

variable {more : List Char} {holes : List Hole}

theorem declaration_takes {name digits : String} (hname : name ≠ "")
    (hword : ∀ x ∈ name.toList, isWord x = true) (hdigits : digits ≠ "")
    (hdigit : ∀ x ∈ digits.toList, isDigit x = true) :
    Takes declarationPattern 2 (name.toList ++ ("= ??(".toList ++ (digits.toList ++ (");".toList ++ more)))) more
      [name, digits] := by
  have hne {s : String} (h : s ≠ "") : s.toList ≠ [] := fun hnil => h (String.toList_inj.1 hnil)
  -- The name goes up to the equals sign, and the number up to the parenthesis.
  have hnumber : Goes [.group 2 (.run [.digit]), .text ");"] (digits.toList ++ (");".toList ++ more))
      [(1, String.ofList name.toList)] more _ :=
    .group 2 shuns_closing (fun x hx => (any_digit x).trans (hdigit x hx)) (fun x hx => by cases hx; decide)
      (hne hdigits) (.text .nil)
  have hwhole : Goes [.group 1 (.run [.word]), .text "= ??(", .group 2 (.run [.digit]), .text ");"] _ [] more _ :=
    .group 1 (shuns_assignment _) (fun x hx => (any_word x).trans (hword x hx)) (fun x hx => by cases hx; decide)
      (hne hname) (.text hnumber)
  have hpos := List.length_pos_iff.2 (hne hname)
  have htakes := hwhole.takes 2 (by simp only [List.length_append]; omega)
  rw [String.ofList_toList, String.ofList_toList] at htakes
  exact htakes

/-- Nothing is declared before the name, nor between two declarations. -/
theorem finds_declaration {h : Hole} {found : List (List String)} (hname : h.name ≠ "")
    (hword : Text.AllWord h.name) (hwidth : 0 ≤ h.width) (hmore : Finds declarationPattern 2 more found) :
    Finds declarationPattern 2 (h.declaration.toList ++ more) ([h.name, toString h.width] :: found) := by
  obtain ⟨width, hwidth⟩ := Int.eq_ofNat_of_zero_le hwidth
  have hdigits : toString h.width = toString width := by rw [hwidth]; rfl
  have hsplit : h.declaration.toList ++ more =
      'i' :: 'n' :: 't' :: ' ' :: (h.name.toList ++ ("= ??(".toList ++ ((toString width).toList ++
        (");".toList ++ '\n' :: more)))) := by
    rw [Hole.declaration, hdigits, show ");\n" = ");" ++ "\n" by decide]
    simp only [String.toList_append, List.append_assoc]
    rfl
  have hblank (word : List Char) {rest : List Char} (h : word.all isWord = true) :
      Fails declarationPattern (word ++ ' ' :: rest) :=
    declaration_fails word (List.all_eq_true.1 h) fun x hx => by cases hx; decide
  rw [hsplit, hdigits]
  refine .skip (hblank ['i', 'n', 't'] (by decide)) (.skip (hblank ['n', 't'] (by decide)) ?_)
  refine .skip (hblank ['t'] (by decide)) (.skip (hblank [] (by decide)) ?_)
  refine .take (declaration_takes hname (Text.allWord_iff.1 hword) (toString_ne_empty width) fun x hx => ?_) ?_
  · exact isDigit_of_mem_toString hx
  · exact .skip (declaration_fails [] nofun fun x hx => by cases hx; decide) hmore

theorem finds_declarations
    (h : ∀ hole ∈ holes, hole.name ≠ "" ∧ Text.AllWord hole.name ∧ 0 ≤ hole.width) :
    Finds declarationPattern 2 (String.join (holes.map Hole.declaration)).toList
      (holes.map fun hole => [hole.name, toString hole.width]) := by
  induction holes with
  | nil => exact .done (declaration_fails [] nofun nofun)
  | cons hole holes ih =>
    obtain ⟨hname, hword, hwidth⟩ := h hole List.mem_cons_self
    rw [List.map_cons, String.join_cons, String.toList_append]
    exact finds_declaration hname hword hwidth (ih fun hole' hmem => h hole' (List.mem_cons_of_mem hole hmem))

def nameAndBits : List String → Option (String × String)
  | [name, bits] => some (name, bits)
  | _ => none

theorem declarations_eq_ofList (sketch : String) : declarations sketch =
    .ofList (((declarationPattern.findAll sketch).map (·.captures 2)).filterMap nameAndBits) := by
  rw [List.filterMap_map]
  rfl

/-- The holes that are declared are found with their widths, in order. -/
theorem declarations_eq
    (h : ∀ hole ∈ holes, hole.name ≠ "" ∧ Text.AllWord hole.name ∧ 0 ≤ hole.width)
    (hnodup : (holes.map Hole.name).Nodup) :
    (declarations (String.join (holes.map Hole.declaration))).toList =
      holes.map fun hole => (hole.name, toString hole.width) := by
  have hpairs : (holes.map fun hole => [hole.name, toString hole.width]).filterMap nameAndBits =
      holes.map fun hole => (hole.name, toString hole.width) := by
    rw [List.filterMap_map, ← List.filterMap_eq_map]
    rfl
  rw [declarations_eq_ofList, (finds_declarations h).findAll_eq, hpairs]
  refine Table.toList_ofList ?_
  rw [List.map_map]
  exact hnodup

/-! ### The holes of stateless ALUs -/

theorem allWord_of_isIdent {s : String} (h : Alu.IsIdent s) : Text.AllWord s := by
  obtain ⟨c, rest, hs, hletter, hrest⟩ := h
  refine Text.allWord_iff.2 fun x hx => Text.isWord_of_isIdentRest ?_
  rw [hs] at hx
  rcases List.mem_cons.1 hx with rfl | hx
  · rw [Alu.isIdentRest, hletter, Bool.true_or, Bool.true_or]
  · exact hrest x hx

namespace Layout

variable {b : Layout} {d : Alu.Description}

/-- What a stateless ALU brings along is given once, if its hole variables leave the other names free. -/
theorem nodup_statelessRests (hd : describedBy b.stateless = some d) (hnodup : d.holeVars.Nodup)
    (hvars : ∀ v ∈ d.holeVars, ∀ k, v ≠ operandRest k) : b.statelessRests.Nodup := by
  rw [statelessRests, hd]
  refine List.nodup_append.2 ⟨List.nodup_range.map fun _ _ => operandRest_inj, hnodup, ?_⟩
  rintro _ hrest v hv rfl
  obtain ⟨k, -, hk⟩ := List.mem_map.1 hrest
  exact hvars _ hv k hk.symm

theorem demuxRest_not_mem (hd : describedBy b.stateless = some d) (hvars : demuxRest ∉ d.holeVars) :
    demuxRest ∉ b.statelessRests := by
  rw [statelessRests, hd, List.mem_append]
  rintro (hmem | hmem)
  · obtain ⟨k, -, hk⟩ := List.mem_map.1 hmem
    exact operandRest_ne_demuxRest k hk
  · exact hvars hmem

end Layout

namespace Generator

variable {files : Files} {g g' : Generator} {r : Request} {p : Program}

/-- Behind a sketch the hole variables of its stateless ALUs are identifiers, and each of them is there once. -/
theorem program_holeVars (halus : HasAlus g) (h : EndsIn (program r) files g p g') :
    ∃ d, describedBy (g.layout files).stateless = some d ∧ d.Plain ∧ d.holeVars.Nodup := by
  obtain ⟨g₁, _, _, hends, -⟩ := program_inv h
  obtain ⟨d, hd, -, _, _, -, ⟨widths, hmain⟩, -⟩ := alus_muxes (g := g.emptied) halus.stages halus.alus hends
  refine ⟨d, hd, ?_, StatelessAlu.nodup_of_mainText hmain⟩
  unfold described at hd
  split at hd
  · exact nomatch hd
  · split at hd
    · exact nomatch hd
    · next hread =>
      cases hd
      exact Alu.Source.read_plain hread

theorem sketch_program {text : String} (h : EndsIn (sketch r) files g text g') :
    ∃ p, EndsIn (program r) files g p g' := by
  unfold sketch at h
  simp only [endsIn_bind, endsIn_pure] at h
  obtain ⟨p, _, hprogram, -, rfl⟩ := h
  exact ⟨p, hprogram⟩

theorem program_perm (halus : HasAlus g) (h : EndsIn (program r) files g p g') :
    (g'.holes.map Hole.name).Perm ((g.layout files).holeNames.map (HoleName.text g.shape.sketchName)) := by
  rw [(program_holes halus h).2.1]
  exact (g.layout files).perm_holeNames

/-- Each hole of a sketch is there once, if no hole variable takes the name of a multiplexer or of what a container
takes. -/
theorem program_nodup (halus : HasAlus g) (hvars : ∀ d, described files g.statelessFile = some d → ∀ v ∈ d.holeVars,
    v ≠ demuxRest ∧ ∀ k, v ≠ operandRest k) (h : EndsIn (program r) files g p g') :
    (g'.holes.map Hole.name).Nodup := by
  obtain ⟨d, hd, -, hnodup⟩ := program_holeVars halus h
  have hrests := Layout.nodup_statelessRests hd hnodup fun v hv => (hvars d hd v hv).2
  have hdemux := Layout.demuxRest_not_mem hd fun hmem => (hvars d hd _ hmem).1 rfl
  refine (program_perm halus h).nodup_iff.2 ?_
  exact (Layout.nodup_holeNames hrests hdemux).map fun _ _ => HoleName.text_inj

theorem program_allWord (halus : HasAlus g) (hsketch : Text.AllWord g.shape.sketchName)
    (h : EndsIn (program r) files g p g') {hole : Hole} (hhole : hole ∈ g'.holes) :
    hole.name ≠ "" ∧ Text.AllWord hole.name := by
  obtain ⟨d, hd, ⟨-, hplain, -⟩, -⟩ := program_holeVars halus h
  obtain ⟨n, hn, hname⟩ := List.mem_map.1 ((program_perm halus h).subset (List.mem_map_of_mem hhole))
  rw [← hname]
  refine ⟨n.text_ne_empty _, Layout.allWord_holeNames (b := g.layout files) hsketch (fun rest hrest => ?_) hn⟩
  rw [Layout.statelessRests, hd, List.mem_append] at hrest
  rcases hrest with hrest | hrest
  · obtain ⟨k, -, rfl⟩ := List.mem_map.1 hrest
    exact allWord_operandRest k
  · exact allWord_of_isIdent (hplain rest hrest)

end Generator

namespace NearMissOfMultiplexer

/-- A stateful ALU with one packet field and a hole, a stateless ALU whose hole is named nearly as the control of its
multiplexer, and a program. -/
def files : Files :=
  .ofList
    [("select", "type:stateful state variables:{s} hole variables:{} packet fields:{x} return Mux2(x,s);"),
     ("pass", "// Max value of opcode is 1\ntype:stateless state variables:{} " ++
       "hole variables:{operand_mux_ctrl} packet fields:{x} return x;"),
     ("program", "")]

/-- One stage with one container, of which holes tell what it is for. -/
def generator : Generator :=
  { shape := ⟨"net_1_", 1, 1, 1, 1, 1, [0], [0], [0], 1, false⟩
    synthesized := true
    statefulFile := "select"
    statelessFile := "pass"
    constants := ⟨["0", "1"], true⟩
    constantBits := 1 }

def widths : List (String × String) :=
  [("net_1__stateless_alu_0_0_operand_mux_0_ctrl", "0"), ("net_1__stateless_alu_0_0_operand_mux_ctrl", "2"),
   ("net_1__stateful_alu_0_0_Mux2_0_global", "1"), ("net_1__stateful_alu_0_0_operand_mux_0_ctrl", "0"),
   ("net_1__output_mux_phv_0_0_ctrl", "1"), ("phv_config_0_0", "1"), ("net_1__salu_config_0_0_0", "1")]

end NearMissOfMultiplexer

end SwitchSynth.Sketch
