import Mathlib.Algebra.Order.BigOperators.Group.List
import Mathlib.Algebra.Order.Group.Int
import Mathlib.Algebra.Ring.Int.Defs
import SwitchSynth.Proofs.Sketch.Execution
import SwitchSynth.Proofs.Sketch.History

/-!
# What a sketch asserts of its holes

A constraint bounds a sum of holes, or counts the writers of a container. The pipeline of a sketch asserts its
constraints before it does anything else (`Program.pipelineText_codes`). These are the constraints of the allocation,
behind one for each container of each stage if every container has one writer (`program_asserts`).
-/

namespace SwitchSynth.Sketch

open Text (Codes nonblank nonblank_append nonblank_congr nonblank_join)

/-! ### The meaning of constraints -/

def Bound.Holds : Bound → Int → Prop
  | atMost n, v => v ≤ n
  | exactly n, v => v = n

def Condition.bit (hole : String → Int) (c : Condition) : Int :=
  if c.holds hole then 1 else 0

namespace Constraint

/-- The conditions under which a container is written: by its own stateless ALU, or by a stateful ALU that is active and
has the container. -/
def writerConditions (own : String) (others : List (String × String)) (container : Nat) : List Condition :=
  .equals own 1 :: others.map fun (demux, active) => .both (.equals demux container) (.equals active 1)

/-- A constraint holds for some values of the holes. What is given as text is not looked into. -/
def Holds (hole : String → Int) : Constraint → Prop
  | given _ => True
  | sum _ holes bound => bound.Holds (holes.map hole).sum
  | oneWriter own others container => ((writerConditions own others container).map (Condition.bit hole)).sum = 1

instance (hole : String → Int) (c : Constraint) : Decidable (c.Holds hole) :=
  match c with
  | given _ => .isTrue trivial
  | sum _ _ (.atMost _) => inferInstanceAs (Decidable (_ ≤ _))
  | sum _ _ (.exactly _) => inferInstanceAs (Decidable (_ = _))
  | oneWriter _ _ _ => inferInstanceAs (Decidable (_ = _))

def formula : Constraint → String
  | given s => s
  | sum _ holes bound => "(" ++ String.join (holes.map (· ++ " + ")) ++ "0)" ++ bound.text
  | oneWriter own others container =>
    "((" ++ String.join ((writerConditions own others container).map fun c => "(" ++ c.text ++ ") + ") ++ "0) == 1)"

theorem nonblank_term (spacing : Spacing) (hole : String) :
    nonblank (spacing.term hole) = nonblank (hole ++ " + ") := by
  cases spacing with
  | leading =>
    show nonblank (" " ++ hole ++ "+") = _
    simp only [nonblank_append,
      show nonblank " " = [] by decide, show nonblank "+" = nonblank " + " from nonblank_congr rfl,
      List.nil_append]
  | tight =>
    show nonblank (hole ++ "+") = _
    simp only [nonblank_append, show nonblank "+" = nonblank " + " from nonblank_congr rfl]
  | wide => rfl

theorem nonblank_writerText (container : Nat) (writer : String × String) :
    nonblank (writerText container writer) = nonblank ("(" ++
      (Condition.both (.equals writer.1 container) (.equals writer.2 1)).text ++ ") + ") := by
  show nonblank ("((" ++ writer.1 ++ " == " ++ toString container ++ ")  && (" ++ writer.2 ++ "== 1)) + ") =
    nonblank ("(" ++ ("(" ++ (writer.1 ++ " == " ++ toString container) ++ ") && (" ++
      (writer.2 ++ " == " ++ "1") ++ ")") ++ ") + ")
  simp only [nonblank_append, List.append_assoc, show nonblank "((" = nonblank "(" ++ nonblank "(" by decide,
    show nonblank ")  && (" = nonblank ") && (" from nonblank_congr rfl,
    show nonblank "== 1)) + " = nonblank " == " ++ (nonblank "1" ++ (nonblank ")" ++ nonblank ") + ")) by decide]

theorem nonblank_text (c : Constraint) : nonblank c.text = nonblank c.formula := by
  cases c with
  | given s => rfl
  | sum spacing holes bound =>
    show nonblank ("(" ++ String.join (holes.map spacing.term) ++ "0)" ++ bound.text) =
      nonblank ("(" ++ String.join (holes.map (· ++ " + ")) ++ "0)" ++ bound.text)
    simp only [nonblank_append, nonblank_join, List.map_map, Function.comp_def, nonblank_term]
  | oneWriter own others container =>
    show nonblank ("(((" ++ own ++ " == 1 ) +" ++ String.join (others.map (writerText container)) ++ " 0) == 1)") =
      nonblank ("((" ++ String.join ((writerConditions own others container).map fun c => "(" ++ c.text ++ ") + ") ++
        "0) == 1)")
    have hown : (Condition.equals own 1).text = own ++ " == " ++ "1" := rfl
    rw [writerConditions, List.map_cons, String.join_cons, hown]
    simp only [nonblank_append, nonblank_join, List.map_map, Function.comp_def, List.append_assoc, nonblank_writerText,
      show nonblank "(((" = nonblank "((" ++ nonblank "(" by decide,
      show nonblank " == 1 ) +" = nonblank " == " ++ (nonblank "1" ++ nonblank ") + ") by decide,
      show nonblank " 0) == 1)" = nonblank "0) == 1)" from nonblank_congr rfl]

end Constraint

theorem sum_bit (hole : String → Int) (conditions : List Condition) :
    (conditions.map (Condition.bit hole)).sum = (conditions.countP (Condition.holds hole) : Nat) := by
  induction conditions with
  | nil => rfl
  | cons c conditions ih =>
    rw [List.map_cons, List.sum_cons, ih, List.countP_cons, Condition.bit]
    split <;> omega

theorem eq_zero_of_sum_le_one {bit : Nat → Int} {xs : List Nat} {x y : Nat} (hbits : ∀ x ∈ xs, 0 ≤ bit x)
    (hsum : (xs.map bit).sum ≤ 1) (hx : x ∈ xs) (hone : bit x = 1) (hy : y ∈ xs) (hne : y ≠ x) : bit y = 0 := by
  obtain ⟨before, after, rfl⟩ := List.append_of_mem hx
  have hbefore : ∀ b ∈ before.map bit, 0 ≤ b :=
    List.forall_mem_map.2 fun z hz => hbits z (List.mem_append_left _ hz)
  have hafter : ∀ b ∈ after.map bit, 0 ≤ b :=
    List.forall_mem_map.2 fun z hz => hbits z (List.mem_append_right _ (List.mem_cons_of_mem _ hz))
  have hfirst := List.sum_nonneg hbefore
  have hlast := List.sum_nonneg hafter
  have hnonneg := hbits y hy
  rw [List.map_append, List.map_cons, List.sum_append, List.sum_cons] at hsum
  -- The other bit is in front of the set one or behind it, and is no more than the sum there.
  rcases List.mem_append.1 hy with hy | hy
  · have hle := List.single_le_sum hbefore (bit y) (List.mem_map_of_mem hy)
    omega
  · have hy := (List.mem_cons.1 hy).resolve_left hne
    have hle := List.single_le_sum hafter (bit y) (List.mem_map_of_mem hy)
    omega

theorem Plan.countP_writers {p : Plan} {hole : String → Int} {i c : Nat} (h : (p.writerConstraint i c).Holds hole) :
    (p.writers i c).countP (fun b => b.condition.holds hole) = 1 := by
  have hconditions : (p.writers i c).map Branch.condition = Constraint.writerConditions
      (p.statelessName i c ++ "_demux_ctrl") ((upTo p.shape.groups).map fun k =>
        (p.statefulName i k ++ "_demux_ctrl", Allocation.activeBit p.shape i k)) c := by
    rw [Constraint.writerConditions, writers, List.map_cons, List.map_map, List.map_map]
    rfl
  have hsum : ((Constraint.writerConditions (p.statelessName i c ++ "_demux_ctrl") ((upTo p.shape.groups).map fun k =>
      (p.statefulName i k ++ "_demux_ctrl", Allocation.activeBit p.shape i k)) c).map (Condition.bit hole)).sum = 1 := h
  rw [← hconditions, sum_bit, List.countP_map] at hsum
  exact Int.ofNat_inj.1 hsum

/-! ### The text of a pipeline -/

/-- A pipeline asserts the constraints from outside and those on holes, and does its statements behind them. -/
def Program.pipelineCode (p : Program) : String :=
  "|StateAndPacket| pipeline (|StateAndPacket| state_and_packet) \x7b" ++
    String.join (p.extraConstraints.map fun c => "assert(" ++ c ++ ");") ++
    String.join (p.constraints.map fun c => "assert(" ++ c.formula ++ ");") ++
    String.join (p.plan.code.map Statement.text) ++ "return state_and_packet;\x7d"

theorem nonblank_intercalate_lines (lines : List String) :
    nonblank (String.intercalate "\n" lines) = nonblank (String.join lines) := by
  induction lines with
  | nil => rfl
  | cons line lines ih =>
    cases lines with
    | nil => rw [String.intercalate_singleton, String.join_cons, String.join_nil, String.append_empty]
    | cons next lines =>
      rw [String.intercalate_cons_cons, String.join_cons, nonblank_append, nonblank_append, nonblank_append, ih,
        show nonblank "\n" = [] by decide, List.append_nil]

/-- Apart from blanks and comments, a pipeline is written as its assertions and its statements. -/
theorem Program.pipelineText_codes (p : Program) : Codes p.pipelineText (nonblank p.pipelineCode) := by
  have hconstraints : nonblank (String.join (p.constraints.map Constraint.assertion)) =
      nonblank (String.join (p.constraints.map fun c => "assert(" ++ c.formula ++ ");")) := by
    simp only [nonblank_join, List.map_map, Function.comp_def, Constraint.assertion, nonblank_append,
      Constraint.nonblank_text, show nonblank ");\n" = nonblank ");" from nonblank_congr rfl]
  have hgiven := Codes.of_eq (nonblank_intercalate_lines (p.extraConstraints.map fun c => "assert(" ++ c ++ ");"))
  have hfirst : Codes "  // Any additional constraints to speed up synthesis through parallel execution.\n  " [] :=
    .note rfl
  have hsecond : Codes "\n\n  // Consolidate all constraints on holes here.\n  " [] := .note rfl
  have hthird : Codes "\n  // Return updated packet fields and state vars\n" [] := .note rfl
  have hhead := (((Codes.plain "  |StateAndPacket| pipeline (|StateAndPacket| state_and_packet) \x7b\n").append
    hfirst).append hgiven).append hsecond
  have htail := (((Codes.of_eq hconstraints).append (.plain "\n\n")).append p.plan.text_codes).append
    (hthird.append (.plain "  return state_and_packet;\n\x7d\n\n"))
  have hall := hhead.append htail
  have hopening : nonblank "|StateAndPacket| pipeline (|StateAndPacket| state_and_packet) \x7b" =
      nonblank "  |StateAndPacket| pipeline (|StateAndPacket| state_and_packet) \x7b\n" := nonblank_congr rfl
  have hlines : nonblank "\n\n" = [] := rfl
  have hclosing : nonblank "return state_and_packet;\x7d" = nonblank "  return state_and_packet;\n\x7d\n\n" :=
    nonblank_congr rfl
  have hcode : nonblank p.pipelineCode =
      nonblank "  |StateAndPacket| pipeline (|StateAndPacket| state_and_packet) \x7b\n" ++
      [] ++ nonblank (String.join (p.extraConstraints.map fun c => "assert(" ++ c ++ ");")) ++ [] ++
      (nonblank (String.join (p.constraints.map fun c => "assert(" ++ c.formula ++ ");")) ++ nonblank "\n\n" ++
        nonblank (String.join (p.plan.code.map Statement.text)) ++
        ([] ++ nonblank "  return state_and_packet;\n\x7d\n\n")) := by
    unfold pipelineCode
    generalize String.join (p.extraConstraints.map fun c => "assert(" ++ c ++ ");") = given
    generalize String.join (p.constraints.map fun c => "assert(" ++ c.formula ++ ");") = asserted
    generalize String.join (p.plan.code.map Statement.text) = code
    simp only [nonblank_append, List.append_nil, List.nil_append, List.append_assoc, hopening, hlines, hclosing]
  rw [hcode]
  unfold pipelineText
  rw [show "\n  // Return updated packet fields and state vars\n  return state_and_packet;\n\x7d\n\n" =
    "\n  // Return updated packet fields and state vars\n" ++ "  return state_and_packet;\n\x7d\n\n" from Text.cut rfl]
  simpa only [-String.reduceAppend, String.append_assoc] using hall

/-! ### The constraints that are collected -/

namespace Generator

variable {files : Files} {g g' : Generator}

variable {r : Request} {p : Program} {hole : String → Int}

/-- A sketch asserts the constraints of its allocation, and in front of them that every container has one writer if it
is to. -/
theorem program_asserts (h : EndsIn (program r) files g p g') :
    p.constraints = (if g.shape.tofino then
        (upTo g.shape.stages).flatMap fun i => (upTo g.shape.containers).map (p.plan.writerConstraint i) else []) ++
      g.allocationConstraints := by
  obtain ⟨g₁, g₂, g₃, halus, hoperands, houtputs, hallocate, -, -, -, hp⟩ := program_inv h
  obtain ⟨hwrites, -⟩ := alus_define halus
  obtain ⟨-, -, -, hfirst⟩ := operandMuxes_define hoperands
  have halike₂ := alike.trans hwrites.toAlike hfirst.alike
  have hshape₂ : g₂.shape = g.shape := halike₂.shape
  have hplan : g₂.namingPlan.writerConstraint = p.plan.writerConstraint := by
    unfold Plan.writerConstraint Plan.statelessName Plan.statefulName
    rw [program_shape h, ← hshape₂]
    rfl
  have hallocation (halike : Alike g₂ g₃) : g₃.allocationConstraints = g.allocationConstraints := by
    unfold allocationConstraints
    rw [halike.synthesized, halike₂.synthesized, halike.shape, hshape₂]
    rfl
  have hconstraints₂ : g₂.constraints = [] := by
    rw [hfirst.eq]
    exact (List.append_nil _).trans hwrites.constraints_eq
  have hthird := allocate_adds hallocate
  rw [show p.constraints = g'.constraints from congrArg Program.constraints hp, hthird.eq]
  rcases outputMuxes_define houtputs with ⟨htofino, -, hsecond⟩ | ⟨htofino, -, -, hsecond⟩ <;>
    rw [hshape₂] at htofino <;> rw [hallocation hsecond.alike, hsecond.eq, htofino, hconstraints₂]
  · rw [hshape₂, hplan]
    rfl
  · rfl

/-- With the canonical allocation each hole of the allocation has one bit. -/
theorem program_constraints (hg : g.synthesized = false)
    (h : EndsIn (program r) files g p g') :
    p.constraints = (if g.shape.tofino then
        (upTo g.shape.stages).flatMap fun i => (upTo g.shape.containers).map (p.plan.writerConstraint i) else []) ++
      (Allocation.canonical g.shape).constraints ∧
    ∀ name ∈ (Allocation.canonical g.shape).bits, ⟨name, 1⟩ ∈ g'.holes := by
  have hcanonical : g.allocationConstraints = (Allocation.canonical g.shape).constraints :=
    if_neg (by rw [hg]; exact Bool.false_ne_true)
  refine ⟨by rw [program_asserts h, hcanonical], fun name hname => ?_⟩
  obtain ⟨g₁, g₂, g₃, halus, hoperands, houtputs, hallocate, -⟩ := program_inv h
  obtain ⟨hwrites, -⟩ := alus_define halus
  obtain ⟨-, -, -, hfirst⟩ := operandMuxes_define hoperands
  obtain ⟨_, _, hsecond⟩ := outputMuxes_adds houtputs
  have halike := alike.trans hwrites.toAlike (hfirst.trans hsecond).alike
  have hsynthesized : ¬ g₃.synthesized = true := by
    rw [halike.synthesized]
    exact Bool.eq_false_iff.1 hg
  rw [(allocate_adds hallocate).eq, if_neg hsynthesized, show g₃.shape = g.shape from halike.shape]
  exact List.mem_append_right _ (List.mem_map_of_mem hname)

theorem program_synthesized (h : EndsIn (program r) files g p g') :
    p.plan.synthesized = r.synthesized := by
  obtain ⟨_, _, _, -, -, -, -, -, -, hplan⟩ := program_plan h
  rw [hplan]

/-- Whatever satisfies the constraints of a sketch in which containers have one writer lets exactly one branch for each
container hold. -/
theorem program_writers (hg : g.synthesized = false)
    (h : EndsIn (program r) files g p g') (hconstraints : ∀ c ∈ p.constraints, c.Holds hole) {i c : Nat}
    (htofino : g.shape.tofino = true) (hi : i ∈ upTo g.shape.stages) (hc : c ∈ upTo g.shape.containers) :
    (p.plan.writers i c).countP (fun b => b.condition.holds hole) = 1 := by
  apply Plan.countP_writers
  apply hconstraints
  rw [(program_constraints hg h).1, if_pos htofino]
  exact List.mem_append_left _ (List.mem_flatMap.2 ⟨i, hi, List.mem_map_of_mem hc⟩)

/-- Whatever satisfies the constraints of a sketch with the canonical allocation decides all chains of its pipeline. -/
theorem program_decided (hg : g.synthesized = false)
    (hr : r.synthesized = false) (h : EndsIn (program r) files g p g')
    (hconstraints : ∀ c ∈ p.constraints, c.Holds hole) : ∀ s ∈ p.plan.code, s.Decided hole := by
  intro s hs
  obtain ⟨st, hst, rfl⟩ := List.mem_map.1 hs
  have hcanonical := Plan.canonical_of_mem_steps ((program_synthesized h).trans hr) hst
  cases st with
  | demultiplex i c =>
    obtain ⟨htofino, hi, hc⟩ := hcanonical
    rw [program_shape h] at htofino hi hc
    exact program_writers hg h hconstraints htofino hi hc
  | _ => trivial

end Generator

end SwitchSynth.Sketch
