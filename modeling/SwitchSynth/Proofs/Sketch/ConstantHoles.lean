import Mathlib
import SwitchSynth.Proofs.Sketch.Holes
import SwitchSynth.Proofs.Text

/-!
# Holes that choose a constant

A stateful ALU chooses constants by the holes of its calls `C()`, and a stateless one by its immediate operands.
Such a hole is told by its name, and is as wide as the number of the constants asks for.
-/

namespace SwitchSynth.Sketch

/-! ### The number of bits -/

theorem negligibleExcess_lt {e : Nat} (h : e < 49) : negligibleExcess e < 2 ^ (52 - e) := by
  revert e
  decide

theorem bitWidth_pos {k : Nat} (h : 0 < k) : bitWidth k =
    .ok (if (Rounded.ofNat k).excess ≤ negligibleExcess (Rounded.ofNat k).exponent then (Rounded.ofNat k).exponent
      else (Rounded.ofNat k).exponent + 1) := by
  cases k with
  | zero => exact absurd h (Nat.lt_irrefl 0)
  | succ k => rfl

/-- Up to where a double tells a number from the power of two below it, the number of bits is the logarithm,
rounded up. -/
theorem bitWidth_eq_clog {k : Nat} (hpos : 0 < k) (hle : k ≤ 2 ^ 49) : bitWidth k = .ok (Nat.clog 2 k) := by
  have hlow : 2 ^ Nat.log2 k ≤ k := Nat.log2_self_le (by omega)
  have hhigh : k < 2 ^ (Nat.log2 k + 1) := Nat.lt_log2_self
  have hexponent : Nat.log2 k ≤ 49 := (Nat.pow_le_pow_iff_right (by decide)).1 (hlow.trans hle)
  have hrounded : Rounded.ofNat k = ⟨Nat.log2 k, (k - 2 ^ Nat.log2 k) * 2 ^ (52 - Nat.log2 k)⟩ := by
    rw [Rounded.ofNat, if_pos (by omega)]
    rfl
  rw [bitWidth_pos hpos, hrounded]
  dsimp only
  rcases Nat.eq_or_lt_of_le hlow with heq | hlt
  · -- A power of two has nothing in excess.
    rw [← heq, Nat.log2_two_pow, Nat.sub_self, Nat.zero_mul, if_pos (Nat.zero_le _), Nat.clog_pow 2 _ (by decide)]
  · have hsmall : Nat.log2 k < 49 := by
      refine Nat.lt_of_le_of_ne hexponent fun hmax => ?_
      rw [hmax] at hlt
      omega
    have hexcess : 2 ^ (52 - Nat.log2 k) ≤ (k - 2 ^ Nat.log2 k) * 2 ^ (52 - Nat.log2 k) :=
      Nat.le_mul_of_pos_left _ (by omega)
    have hnegligible := negligibleExcess_lt hsmall
    have hclog : Nat.clog 2 k = Nat.log2 k + 1 := by
      refine Nat.le_antisymm ((Nat.clog_le_iff_le_pow (by decide)).2 hhigh.le) ?_
      rw [Nat.succ_le_iff, ← Nat.not_le, Nat.clog_le_iff_le_pow (by decide)]
      exact Nat.not_le.2 hlt
    rw [if_neg (by omega), hclog]

/-! ### Names -/

/-- A name of a hole that chooses a constant: that of a call `C()` of a stateful ALU, or that of an immediate operand
of a stateless ALU. -/
def ChoosesConstant (p : Plan) (name : String) : Prop :=
  (∃ i l n : Nat, name = p.statefulName i l ++ "_const_" ++ toString n ++ "_global") ∨
    ∃ (i j : Nat) (v : String), name = p.statelessName i j ++ "_" ++ v ∧ Text.Contains v "immediate_operand"

theorem occursIn_iff {part whole : List Char} : StatelessAlu.occursIn part whole = true ↔ part <:+: whole := by
  induction whole with
  | nil => simp [StatelessAlu.occursIn]
  | cons c rest ih =>
    rw [StatelessAlu.occursIn, Bool.or_eq_true, ih, List.isPrefixOf_iff_prefix, List.infix_cons_iff]

theorem eq_of_placed {start : String} {i l i' l' : Nat} {rest rest' : String}
    (h : start ++ toString i ++ "_" ++ toString l ++ "_" ++ rest =
      start ++ toString i' ++ "_" ++ toString l' ++ "_" ++ rest') : rest = rest' := by
  have hplain (n : Nat) : '_' ∉ (toString n).toList := Text.plain_toString n
  have hhead (cs : List Char) : ∀ c ∈ ("_".toList ++ cs).head?, c = '_' := by simp
  have hchars := congrArg String.toList h
  simp only [String.toList_append, List.append_assoc] at hchars
  have hfirst := List.append_cancel_left hchars
  obtain ⟨-, hfirst⟩ := Text.eq_of_append_eq (hplain i) (hplain i') (hhead _) (hhead _) hfirst
  have hsecond := List.append_cancel_left hfirst
  obtain ⟨-, hsecond⟩ := Text.eq_of_append_eq (hplain l) (hplain l') (hhead _) (hhead _) hsecond
  exact String.toList_inj.1 (List.append_cancel_left hsecond)

theorem take_eq_of_append_eq {start a b rest rest' : String} {n : Nat} (ha : n ≤ a.length) (hb : n ≤ b.length)
    (h : start ++ a ++ rest = start ++ b ++ rest') : a.toList.take n = b.toList.take n := by
  have hchars := congrArg String.toList h
  simp only [String.toList_append, List.append_assoc] at hchars
  have hrest := congrArg (List.take n) (List.append_cancel_left hchars)
  rwa [List.take_append_of_le_length (by rwa [String.length_toList]),
    List.take_append_of_le_length (by rwa [String.length_toList])] at hrest

namespace Plan

variable (p : Plan) (i l : Nat) (rest : String)

theorem statelessName_append : p.statelessName i l ++ rest =
    p.shape.sketchName ++ "_stateless_alu_" ++ (toString i ++ "_" ++ toString l ++ rest) := by
  simp only [statelessName, String.append_assoc]

theorem statefulName_append : p.statefulName i l ++ rest =
    p.shape.sketchName ++ "_stateful_alu_" ++ (toString i ++ "_" ++ toString l ++ rest) := by
  simp only [statefulName, String.append_assoc]

variable {p i l rest} {i' l' : Nat} {rest' : String}

theorem statelessName_ne_statefulName : p.statelessName i l ++ rest ≠ p.statefulName i' l' ++ rest' := by
  intro h
  rw [statelessName_append, statefulName_append] at h
  exact absurd (take_eq_of_append_eq (n := 8) (by decide) (by decide) h) (by decide)

end Plan

theorem ChoosesConstant.cases {p : Plan} {name : String} (h : ChoosesConstant p name) :
    ∃ kind rest, kind ∈ ["_stateless_alu_", "_stateful_alu_"] ∧ name = p.shape.sketchName ++ kind ++ rest := by
  rcases h with ⟨i, l, n, rfl⟩ | ⟨i, j, v, rfl, -⟩
  · refine ⟨"_stateful_alu_", toString i ++ "_" ++ toString l ++ ("_const_" ++ (toString n ++ "_global")), by simp, ?_⟩
    rw [← Plan.statefulName_append]
    simp only [String.append_assoc]
  · refine ⟨"_stateless_alu_", toString i ++ "_" ++ toString j ++ ("_" ++ v), by simp, ?_⟩
    rw [← Plan.statelessName_append]
    simp only [String.append_assoc]

/-! ### What the holes of a sketch are named for -/

namespace Layout

variable {b : Layout} {hole : Hole}

/-- The holes of a sketch, by their names. Of those that have nothing to do with a constant only so much is said that
they can be told from the others. -/
inductive Accounts (b : Layout) : Hole → Prop
  /-- A hole of a stateless ALU that is declared in its file. -/
  | declared (i j : Nat) (v : String) : Accounts b ⟨b.plan.statelessName i j ++ "_" ++ v, b.widths.of v⟩
  /-- A hole of a stateless ALU that controls a multiplexer. -/
  | stateless (i j : Nat) (rest : String) (width : Int) : 'i' ∉ rest.toList →
      Accounts b ⟨b.plan.statelessName i j ++ "_" ++ rest, width⟩
  /-- A hole of a stateful ALU that a helper reads. -/
  | helper (i l : Nat) (h : Helper) :
      Accounts b ⟨h.globalHole (b.plan.statefulName i l), h.primitive.width b.constantBits⟩
  /-- A hole of a stateful ALU that controls a multiplexer. -/
  | stateful (i l : Nat) (rest : String) (width : Int) : rest.toList.head? ≠ some 'c' →
      Accounts b ⟨b.plan.statefulName i l ++ "_" ++ rest, width⟩
  /-- A hole that belongs to no ALU. -/
  | shared (kind rest : String) (width : Int) : kind ∈ ["_output_mux_phv_", "_salu_config_"] →
      Accounts b ⟨b.shape.sketchName ++ kind ++ rest, width⟩
  /-- A hole that gives a packet field to a container. -/
  | field (name : String) (width : Int) : 't' ∉ name.toList → Accounts b ⟨name, width⟩

theorem accounts_statelessHoles {i j : Nat} (h : hole ∈ b.statelessHoles (b.plan.statelessName i j)) :
    Accounts b hole := by
  unfold statelessHoles at h
  split at h
  · exact absurd h List.not_mem_nil
  · rcases List.mem_append.1 h with h | h
    · obtain ⟨k, -, rfl⟩ := List.mem_map.1 h
      have hname : b.plan.statelessName i j ++ "_operand_mux_" ++ toString k ++ "_ctrl" =
          b.plan.statelessName i j ++ "_" ++ ("operand_mux_" ++ toString k ++ "_ctrl") := by
        rw [show "_operand_mux_" = "_" ++ "operand_mux_" by decide]
        simp only [String.append_assoc]
      rw [controlHole, hname]
      refine .stateless i j _ _ ?_
      simp only [String.toList_append, List.mem_append, not_or]
      refine ⟨⟨by decide, fun hmem => absurd (Text.isDigit_of_mem_toString hmem) (by decide)⟩, by decide⟩
    · obtain ⟨v, -, hv⟩ := List.mem_map.1 (mem_inOrder.1 h)
      obtain ⟨name, width⟩ := hole
      cases hv
      exact .declared i j v

theorem accounts_statefulHoles {i l : Nat} (h : hole ∈ b.statefulHoles (b.plan.statefulName i l)) :
    Accounts b hole := by
  unfold statefulHoles at h
  split at h
  · exact absurd h List.not_mem_nil
  · obtain ⟨helper, -, hhelper⟩ := List.mem_map.1 (mem_inOrder.1 h)
    obtain ⟨name, width⟩ := hole
    cases hhelper
    exact .helper i l helper

theorem accounts_operandHoles (h : hole ∈ b.operandHoles) : Accounts b hole := by
  simp only [operandHoles, List.mem_flatMap, List.mem_map] at h
  obtain ⟨i, -, l, -, k, -, rfl⟩ := h
  have hname : b.plan.operandMux i l k ++ "_ctrl" =
      b.plan.statefulName i l ++ "_" ++ ("operand_mux_" ++ toString k ++ "_ctrl") := by
    rw [Plan.operandMux, show "_operand_mux_" = "_" ++ "operand_mux_" by decide]
    simp only [String.append_assoc]
  rw [controlHole, hname]
  refine .stateful i l _ _ ?_
  rw [String.toList_append, String.toList_append, List.append_assoc, List.head?_append,
    show "operand_mux_".toList.head? = some 'o' by decide, Option.some_or]
  decide

theorem accounts_outputHoles (h : hole ∈ b.outputHoles) : Accounts b hole := by
  unfold outputHoles at h
  split at h
  · rcases List.mem_append.1 h with h | h
    · simp only [List.mem_flatMap, List.mem_map] at h
      obtain ⟨i, -, k, -, rfl⟩ := h
      rw [show "_demux_ctrl" = "_" ++ "demux_ctrl" by decide, ← String.append_assoc]
      exact .stateless i k _ _ (by decide)
    · simp only [List.mem_flatMap, List.mem_map] at h
      obtain ⟨i, -, k, -, rfl⟩ := h
      rw [show "_demux_ctrl" = "_" ++ "demux_ctrl" by decide, ← String.append_assoc]
      exact .stateful i k _ _ (by decide)
  · simp only [List.mem_flatMap, List.mem_map] at h
    obtain ⟨i, -, k, -, rfl⟩ := h
    have hname : b.plan.outputMux i k ++ "_ctrl" =
        b.shape.sketchName ++ "_output_mux_phv_" ++ (toString i ++ "_" ++ toString k ++ "_ctrl") := by
      rw [Plan.outputMux]
      simp only [String.append_assoc]
      rfl
    rw [controlHole, hname]
    exact .shared _ _ _ (by simp)

theorem accounts_allocationHoles (h : hole ∈ b.allocationHoles) : Accounts b hole := by
  obtain ⟨name, hname, rfl⟩ := List.mem_map.1 h
  have hshared {rest : String} : Accounts b ⟨b.shape.sketchName ++ "_salu_config_" ++ rest, 1⟩ :=
    .shared _ _ _ (by simp)
  split at hname
  · rcases List.mem_append.1 hname with hname | hname
    · simp only [Allocation.ofFields, List.mem_flatMap, List.mem_map] at hname
      obtain ⟨j, -, k, -, rfl⟩ := hname
      refine .field _ _ ?_
      simp only [Plan.fieldConfig, String.toList_append, List.mem_append, not_or]
      refine ⟨⟨⟨by decide, fun hmem => ?_⟩, by decide⟩, fun hmem => ?_⟩
      · exact absurd (Text.isDigit_of_mem_toString (n := k) hmem) (by decide)
      · exact absurd (Text.isDigit_of_mem_toString hmem) (by decide)
    · simp only [Allocation.ofGroups, List.mem_flatMap, List.mem_map] at hname
      obtain ⟨i, -, j, -, k, -, rfl⟩ := hname
      simp only [Allocation.groupBit, String.append_assoc] at *
      exact hshared
  · simp only [Allocation.canonical, List.mem_flatMap, List.mem_map] at hname
    obtain ⟨i, -, k, -, rfl⟩ := hname
    simp only [Allocation.activeBit, String.append_assoc] at *
    exact hshared

theorem accounts_of_mem (h : hole ∈ b.holes) : Accounts b hole := by
  simp only [holes, stageHoles, List.mem_append, List.mem_flatMap] at h
  rcases h with ((⟨i, -, ⟨j, -, h⟩ | ⟨l, -, h⟩⟩ | h) | h) | h
  · exact accounts_statelessHoles h
  · exact accounts_statefulHoles h
  · exact accounts_operandHoles h
  · exact accounts_outputHoles h
  · exact accounts_allocationHoles h

theorem family_eq_constant {f : Family} {m n : Nat} (h : f.hole m ++ "_global" = "const_" ++ toString n ++ "_global") :
    f = .constant := by
  have hcut : "" ++ f.holeStem ++ ("_" ++ (toString m ++ "_global")) = "" ++ "const_" ++ (toString n ++ "_global") := by
    simp only [Family.hole, String.append_assoc, String.empty_append] at h ⊢
    exact h
  have hlength : 3 ≤ f.holeStem.length := by cases f <;> decide
  have htake := take_eq_of_append_eq hlength (by decide) hcut
  cases f with
  | constant => rfl
  | _ => exact absurd htake (by decide)

theorem width_of_choosesConstant (h : hole ∈ b.holes) (hname : ChoosesConstant b.plan hole.name) :
    hole.width = b.constantBits := by
  cases accounts_of_mem h with
  | declared i j v =>
    rcases hname with ⟨i', l, n, heq⟩ | ⟨i', j', v', heq, hv'⟩
    · simp only [String.append_assoc] at heq
      exact absurd heq Plan.statelessName_ne_statefulName
    · obtain rfl := eq_of_placed heq
      exact if_pos (occursIn_iff.2 hv')
  | stateless i j rest width hrest =>
    rcases hname with ⟨i', l, n, heq⟩ | ⟨i', j', v', heq, hv'⟩
    · simp only [String.append_assoc] at heq
      exact absurd heq Plan.statelessName_ne_statefulName
    · obtain rfl := eq_of_placed heq
      exact absurd (hv'.subset (by decide)) hrest
  | helper i l helper =>
    rcases hname with ⟨i', l', n, heq⟩ | ⟨i', j', v', heq, hv'⟩
    · have hplaced : b.plan.statefulName i l ++ "_" ++ (helper.hole ++ "_global") =
          b.plan.statefulName i' l' ++ "_" ++ ("const_" ++ toString n ++ "_global") := by
        rw [show "_const_" = "_" ++ "const_" by decide] at heq
        simp only [Helper.globalHole, Family.globalHole, ← String.append_assoc, -String.reduceAppend] at heq ⊢
        exact heq
      have hfamily := family_eq_constant (eq_of_placed hplaced)
      cases hprimitive : helper.primitive with
      | constant => rfl
      | _ =>
        rw [hprimitive] at hfamily
        cases hfamily
    · simp only [Helper.globalHole, Family.globalHole, String.append_assoc] at heq
      exact absurd heq.symm Plan.statelessName_ne_statefulName
  | stateful i l rest width hrest =>
    rcases hname with ⟨i', l', n, heq⟩ | ⟨i', j', v', heq, hv'⟩
    · have hplaced : b.plan.statefulName i l ++ "_" ++ rest =
          b.plan.statefulName i' l' ++ "_" ++ ("const_" ++ (toString n ++ "_global")) := by
        rw [show "_const_" = "_" ++ "const_" by decide] at heq
        simp only [String.append_assoc, -String.reduceAppend] at heq ⊢
        exact heq
      rw [eq_of_placed hplaced, String.toList_append, List.head?_append,
        show "const_".toList.head? = some 'c' by decide, Option.some_or] at hrest
      exact absurd rfl hrest
    · simp only [String.append_assoc] at heq
      exact absurd heq.symm Plan.statelessName_ne_statefulName
  | shared kind rest width hkind =>
    obtain ⟨kind', rest', hkind', heq⟩ := hname.cases
    have hdiffer : 3 ≤ kind.length ∧ 3 ≤ kind'.length ∧ kind.toList.take 3 ≠ kind'.toList.take 3 := by
      simp only [List.mem_cons, List.not_mem_nil, or_false] at hkind hkind'
      rcases hkind with rfl | rfl <;> rcases hkind' with rfl | rfl <;> decide
    exact absurd (take_eq_of_append_eq hdiffer.1 hdiffer.2.1 heq) hdiffer.2.2
  | field name width hletter =>
    obtain ⟨kind, rest, hkind, rfl⟩ := hname.cases
    have hmem : 't' ∈ kind.toList := by
      simp only [List.mem_cons, List.not_mem_nil, or_false] at hkind
      rcases hkind with rfl | rfl <;> decide
    simp [hmem] at hletter

end Layout

end SwitchSynth.Sketch
