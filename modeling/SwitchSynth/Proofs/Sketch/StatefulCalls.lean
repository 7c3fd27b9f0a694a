import SwitchSynth.Proofs.Sketch.Calls
import SwitchSynth.Proofs.Sketch.Definitions

/-!
# Calls of stateful ALUs and multiplexers

A sketch defines the functions for all its stages once, and each call of a stateful ALU or of a multiplexer that is
made in the data path is a call of one of them, with an argument for each parameter.
-/

namespace SwitchSynth.Sketch

open Text (Contains pieces)

namespace Plan

variable (p : Plan)

def operandFunctions : List Function :=
  p.operandNames.map fun n => Mux.function ⟨n.text p.shape.sketchName, p.shape.containers.toNat⟩

/-- The inputs of a multiplexer behind a stage: the states of all units and the stateless ALU. -/
def outputInputs : Nat :=
  p.units.length * p.slots + 1

/-- The multiplexers behind the stages, as functions. -/
def outputFunctions : List Function :=
  p.outputNames.map fun n => Mux.function ⟨n.text p.shape.sketchName, p.outputInputs⟩

theorem operandFunctions_eq : p.operandFunctions = ((upTo p.shape.stages).flatMap fun i => p.units.flatMap fun l =>
    (List.range p.operands).map fun k => p.operandMux i l k).map fun n =>
      Mux.function ⟨n, p.shape.containers.toNat⟩ := by
  simp only [operandFunctions, operandNames, List.map_flatMap, List.map_map, Function.comp_def,
    FunctionName.text_operandMux]

theorem outputFunctions_eq (h : p.shape.tofino = false) :
    p.outputFunctions = ((upTo p.shape.stages).flatMap fun i =>
      (upTo p.shape.containers).map fun k => p.outputMux i k).map fun n => Mux.function ⟨n, p.outputInputs⟩ := by
  simp only [outputFunctions, outputNames, h, Bool.false_eq_true, if_false, List.map_flatMap, List.map_map,
    Function.comp_def, FunctionName.text_outputMux]

end Plan

/-- A call stands in a text and is a call of one of some functions, with an argument for each of the parameters that
the function takes. -/
structure Call.Matches (c : Call) (parameters : List String) (text : String) (functions : List Function) : Prop where
  standsIn : c.StandsIn text
  length_eq : c.arguments.length = parameters.length
  defined : ∃ f ∈ functions, f.name = c.function ∧ f.Takes parameters

namespace Generator

variable {files : Files} {g g' : Generator}

theorem toNat_outputInputs {count : Int} {slots : Nat} (h : 1 ≤ count * slots + 1) :
    (count * slots + 1).toNat = count.toNat * slots + 1 := by
  cases slots with
  | zero =>
    -- Without states the number of units does not matter, even if it is negative.
    simp
  | succ n =>
    have hcount : 0 ≤ count := by
      by_contra hneg
      have hle : count * ((n + 1 : Nat) : Int) ≤ -1 * ((n + 1 : Nat) : Int) :=
        Int.mul_le_mul_of_nonneg_right (by omega) (by omega)
      omega
    obtain ⟨c, rfl⟩ := Int.eq_ofNat_of_zero_le hcount
    simp only [Int.toNat_natCast]
    omega

/-- A plan has the shape, the allocation and the sizes of a generator. -/
structure Agrees (p : Plan) (g : Generator) : Prop where
  shape : p.shape = g.shape
  synthesized : p.synthesized = g.synthesized
  operands : p.operands = g.operands
  slots : p.slots = g.slots

variable {p : Plan} {text name : String} {g₁ : Generator} {fs : List Function}

theorem Agrees.units (h : Agrees p g) : p.units = g.units := by
  rw [Plan.units, h.shape, h.synthesized]
  rfl

theorem Agrees.adds {hs : List Hole} {cs : List Constraint} (h : Agrees p g) (hadds : Adds hs cs g g') :
    Agrees p g' := by
  rw [hadds.eq]
  exact ⟨h.shape, h.synthesized, h.operands, h.slots⟩

theorem Agrees.operandMux (h : Agrees p g) (i l k : Nat) :
    p.operandMux i l k = g.namingPlan.operandMux i l k := by
  rw [Plan.operandMux, Plan.statefulName, h.shape]
  rfl

theorem Agrees.outputMux (h : Agrees p g) (i k : Nat) :
    p.outputMux i k = g.namingPlan.outputMux i k := by
  rw [Plan.outputMux, h.shape]
  rfl

theorem defines_operandFunctions (h : EndsIn operandMuxes files g text g')
    (hplan : Agrees p g) : Defines text p.operandFunctions ∧ p.operands ≠ 0 ∧
      ∀ i ∈ upTo p.shape.stages, ∀ l ∈ p.units, 1 ≤ p.shape.containers := by
  obtain ⟨hoperands, hdefines, hcontainers, -⟩ := operandMuxes_define h
  refine ⟨?_, hplan.operands ▸ hoperands, fun i hi l hl => ?_⟩
  · simp only [p.operandFunctions_eq, hplan.operandMux, hplan.units, hplan.shape, hplan.operands]
    exact hdefines
  · rw [hplan.shape] at hi ⊢
    exact hcontainers _ (mem_operandMuxNames hi (hplan.units ▸ hl) (Nat.pos_of_ne_zero hoperands))

theorem defines_outputFunctions (h : EndsIn outputMuxes files g text g')
    (hplan : Agrees p g) : Defines text p.outputFunctions := by
  rcases outputMuxes_define h with ⟨htofino, rfl, -⟩ | ⟨htofino, hdefines, hinputs, -⟩ <;> rw [← hplan.shape] at htofino
  · rw [Plan.outputFunctions, Plan.outputNames, htofino, if_pos rfl]
    exact .nil
  · -- The two numbers of inputs agree wherever there is a multiplexer at all.
    have hcount : ∀ n ∈ g.outputMuxNames, g.outputInputs.toNat = p.outputInputs := by
      intro n hn
      rw [outputInputs, toNat_outputInputs (hinputs n hn), Plan.outputInputs, hplan.slots, Plan.units,
        hplan.synthesized, hplan.shape]
      split <;> simp [upTo]
    have hfunctions : p.outputFunctions = g.outputMuxNames.map fun n => Mux.function ⟨n, g.outputInputs.toNat⟩ := by
      rw [p.outputFunctions_eq htofino]
      simp only [hplan.outputMux, hplan.shape]
      exact List.map_congr_left fun n hn => by rw [hcount n hn]
    rw [hfunctions]
    exact hdefines

/-- The functions of a plan with some functions for each stage, in the order of their definitions. -/
def functionsOf (p : Plan) (fss : List (List Function)) : List Function :=
  p.operandFunctions ++ p.outputFunctions ++ fss.flatten

/-- A sketch of a generator is composed of the multiplexers of its plan and of functions for the ALUs of each stage,
with the sizes that another generator has behind the ALUs. -/
structure Composed (files : Files) (g g₁ : Generator) (p : Program) (fss : List (List Function)) : Prop where
  defines : Defines p.definitionsText (functionsOf p.plan fss)
  stages : List.Forall₂ (StagePart files g g₁) (upTo p.plan.shape.stages) fss
  shape : p.plan.shape = g.shape
  units : p.plan.units = g.units
  statelessFile : g₁.statelessFile = g.statelessFile
  statefulFile : g₁.statefulFile = g.statefulFile
  statelessMuxes : g₁.statelessMuxes = some p.plan.statelessMuxes
  statefulHoles : g₁.statefulHoles = some p.plan.statefulHoles
  operands : p.plan.operands = g₁.operands
  operands_ne_zero : p.plan.operands ≠ 0
  containers : ∀ i ∈ upTo p.plan.shape.stages, ∀ l ∈ p.plan.units, 1 ≤ p.plan.shape.containers

/-- A sketch defines the multiplexers of its plan and the functions for the ALUs of each stage. -/
theorem program_composed {r : Request} {p : Program} (h : EndsIn (program r) files g p g')
    (hallocation : r.synthesized = g.synthesized) : ∃ g₁ fss, Composed files g g₁ p fss := by
  obtain ⟨g₁, g₂, g₃, halus, hoperands, houtputs, -, hmuxes, hholes, hplan⟩ := program_plan h
  obtain ⟨hwrites, fss, hdefines, hstages⟩ := alus_define halus
  have hagrees : Agrees p.plan g₁ := by
    rw [hplan]
    exact ⟨hwrites.shape.symm, hallocation.trans hwrites.synthesized.symm, rfl, rfl⟩
  have hshape := program_shape h
  have hunits : p.plan.units = g.units := by
    rw [Plan.units, hagrees.shape, hagrees.synthesized, hwrites.shape, hwrites.synthesized]
    rfl
  -- The multiplexers of the operands are written in between, and leave the sizes as they are.
  have houtputs := defines_outputFunctions houtputs (hagrees.adds (operandMuxes_define hoperands).2.2.2)
  obtain ⟨hoperands, hnonzero, hcontainers⟩ := defines_operandFunctions hoperands hagrees
  refine ⟨g₁, fss, Program.defines hoperands houtputs hdefines, ?_, hshape, hunits, hwrites.statelessFile,
    hwrites.statefulFile, hmuxes, hholes, hagrees.operands, hnonzero, hcontainers⟩
  rw [hshape]
  exact hstages

/-! ### Each function once -/

/-- A function of a sketch: a multiplexer, a helper of a stateful ALU, or what is written for an ALU of one of the
two files. -/
inductive Made (files : Files) (g : Generator) : Function → Prop where
  | mux (m : Mux) : Made files g m.function
  | helper (alu : String) (h : Helper) : Made files g (h.function alu)
  | stateless {d : Alu.Description} {name : String} {f : Function} :
      described files g.statelessFile = some d → IsStateless d g.aluOperands name f → Made files g f
  | stateful {d : Alu.Description} {name : String} {f : Function} :
      described files g.statefulFile = some d → IsStateful d name f → Made files g f

theorem StatelessPart.made
    (h : StatelessPart files g₁ name g.aluOperands fs) (hfile : g₁.statelessFile = g.statelessFile) :
    ∀ f ∈ fs, Made files g f := by
  obtain ⟨d, main, hd, -, -, hmain, rfl⟩ := h
  refine List.forall_mem_append.2 ⟨List.forall_mem_map.2 fun k _ => .mux _, ?_⟩
  exact List.forall_mem_singleton.2 (.stateless (hfile ▸ hd) hmain)

theorem StatefulPart.made
    (h : StatefulPart files g₁ name fs) (hfile : g₁.statefulFile = g.statefulFile) : ∀ f ∈ fs, Made files g f := by
  obtain ⟨d, main, hd, -, hmain, rfl⟩ := h
  refine List.forall_mem_append.2 ⟨List.forall_mem_map.2 fun helper _ => .helper _ helper, ?_⟩
  exact List.forall_mem_singleton.2 (.stateful (hfile ▸ hd) hmain)

theorem StagePart.made {i : Nat} (h : StagePart files g g₁ i fs)
    (hstateless : g₁.statelessFile = g.statelessFile) (hstateful : g₁.statefulFile = g.statefulFile) :
    ∀ f ∈ fs, Made files g f := by
  obtain ⟨fss, fss', rfl, hparts, hparts'⟩ := h
  exact List.forall_mem_append.2 ⟨mem_flatten_of_forall₂ hparts fun hpart => hpart.made hstateless,
    mem_flatten_of_forall₂ hparts' fun hpart => hpart.made hstateful⟩

theorem IsNamed.name_eq {f : Function} (h : IsNamed f name) (hname : '%' ∉ name.toList) :
    f.name = name := by
  obtain ⟨shown, hshown, hf⟩ := h
  rw [singlePercents_of_not_mem hname] at hshown
  cases hshown
  rw [hf, String.ofList_toList]

/-- Where the name of a sketch has no percent sign, those of its ALUs have none. -/
theorem percent_not_mem (h : '%' ∉ p.shape.sketchName.toList) (i j : Nat) :
    '%' ∉ (p.statelessName i j).toList ∧ '%' ∉ (p.statefulName i j).toList := by
  have hdigits : ∀ n : Nat, '%' ∉ (toString n).toList := fun n hmem =>
    absurd (Text.isDigit_of_mem_toString hmem) (by decide)
  constructor
  · simp only [Plan.statelessName, String.toList_append, List.mem_append, h, hdigits, false_or, or_false]
    decide
  · simp only [Plan.statefulName, String.toList_append, List.mem_append, h, hdigits, false_or, or_false]
    decide

/-- The helpers of the stateful ALU of a file, by family and number. -/
def fileKeys (files : Files) (file : String) : List (Family × Nat) :=
  ((described files file).map helperKeys).getD []

theorem nodup_fileKeys (files : Files) (file : String) : (fileKeys files file).Nodup := by
  unfold fileKeys
  cases described files file with
  | none => exact List.nodup_nil
  | some d => exact nodup_helperKeys d

section Names

variable {p : Plan} {i j : Nat} {fs : List Function}

theorem StatelessPart.names {operands : List String}
    (h : StatelessPart files g (p.statelessName i j) operands fs) (hname : '%' ∉ p.shape.sketchName.toList)
    (hmuxes : g.statelessMuxes = some p.statelessMuxes) :
    fs.map Function.name = (statelessNames p.statelessMuxes i j).map (FunctionName.text p.shape.sketchName) := by
  obtain ⟨d, f, -, hcount, -, hf, rfl⟩ := h
  rw [Option.some.inj (hmuxes.symm.trans hcount), statelessNames, List.map_append, List.map_append, List.map_map,
    List.map_map, List.map_singleton, List.map_singleton, hf.named.name_eq (percent_not_mem hname i j).1,
    FunctionName.text_stateless]
  simp only [Function.comp_def, FunctionName.text_fieldMux]
  rfl

theorem StatefulPart.names (h : StatefulPart files g (p.statefulName i j) fs)
    (hname : '%' ∉ p.shape.sketchName.toList) :
    fs.map Function.name =
      (statefulNames (fileKeys files g.statefulFile) i j).map (FunctionName.text p.shape.sketchName) := by
  obtain ⟨d, f, hd, -, hf, rfl⟩ := h
  have hkeys : fileKeys files g.statefulFile = helperKeys d := by
    rw [fileKeys, hd]
    rfl
  rw [hkeys, statefulNames, helperKeys, List.map_append, List.map_append, List.map_map, List.map_map,
    List.map_map, List.map_singleton, List.map_singleton, hf.named.name_eq (percent_not_mem hname i j).2,
    FunctionName.text_stateful]
  simp only [Function.comp_def, FunctionName.text_helper]
  rfl

theorem StagePart.names {g₀ : Generator} (h : StagePart files g₀ g i fs) (hshape : p.shape = g₀.shape)
    (hunits : p.units = g₀.units) (hname : '%' ∉ p.shape.sketchName.toList)
    (hmuxes : g.statelessMuxes = some p.statelessMuxes) :
    fs.map Function.name =
      (p.stageNames (fileKeys files g.statefulFile) i).map (FunctionName.text p.shape.sketchName) := by
  obtain ⟨stateless, stateful, rfl, hstateless, hstateful⟩ := h
  simp only [namingPlan_names hshape] at hstateless hstateful
  rw [List.map_append, map_flatten_of_forall₂ hstateless fun hpart => hpart.names hname hmuxes,
    map_flatten_of_forall₂ hstateful fun hpart => hpart.names hname, ← List.map_flatMap, ← List.map_flatMap,
    ← List.map_append, Plan.stageNames, hshape, hunits]

end Names

namespace Composed

variable {g₁ : Generator} {p : Program} {fss : List (List Function)}

theorem nodup_names (h : Composed files g g₁ p fss) (hname : '%' ∉ p.plan.shape.sketchName.toList) :
    ((functionsOf p.plan fss).map Function.name).Nodup := by
  have hnames : (functionsOf p.plan fss).map Function.name =
      (p.plan.functionNames (fileKeys files g₁.statefulFile)).map (FunctionName.text p.plan.shape.sketchName) := by
    have hstages := map_flatten_of_forall₂ h.stages fun hpart =>
      hpart.names h.shape h.units hname h.statelessMuxes
    rw [functionsOf, List.map_append, List.map_append, hstages, ← List.map_flatMap, Plan.functionNames,
      List.map_append, List.map_append, Plan.operandFunctions, Plan.outputFunctions, List.map_map, List.map_map]
    rfl
  rw [hnames]
  exact (p.plan.nodup_functionNames (nodup_fileKeys files g₁.statefulFile)).map fun _ _ heq =>
    FunctionName.text_inj heq

theorem made (h : Composed files g g₁ p fss) : ∀ f ∈ functionsOf p.plan fss, Made files g f := by
  refine List.forall_mem_append.2 ⟨List.forall_mem_append.2 ⟨?_, ?_⟩,
    mem_flatten_of_forall₂ h.stages fun hpart => hpart.made h.statelessFile h.statefulFile⟩
  · exact List.forall_mem_map.2 fun n _ => .mux _
  · exact List.forall_mem_map.2 fun n _ => .mux _

end Composed

/-! ### Calls and definitions -/

/-- The multiplexer of a container behind a stage takes the states of all units, the stateless ALU and its
control. -/
theorem chooseOutput_matches {p : Program} {i k : Nat} (fss : List (List Function))
    (hstep : .chooseOutput i k ∈ p.plan.steps) :
    Call.Matches ⟨p.plan.outputMux i k, (p.plan.units.flatMap fun l =>
        List.replicate p.plan.slots (returnedName i l)) ++ [destinationName i k, p.plan.outputMux i k ++ "_ctrl"]⟩
      (Mux.mk (p.plan.outputMux i k) p.plan.outputInputs).parameters p.text (functionsOf p.plan fss) := by
  obtain ⟨htofino, hi, hk⟩ : p.plan.shape.tofino = false ∧ i ∈ upTo p.plan.shape.stages ∧
    k ∈ upTo p.plan.shape.containers := Plan.places_of_mem_steps hstep
  have hmem : Mux.function ⟨p.plan.outputMux i k, p.plan.outputInputs⟩ ∈ p.plan.outputFunctions := by
    rw [p.plan.outputFunctions_eq htofino]
    exact List.mem_map_of_mem (List.mem_flatMap.2 ⟨i, hi, List.mem_map_of_mem hk⟩)
  refine ⟨p.call_standsIn hstep rfl, ?_, _, List.mem_append_left _ (List.mem_append_right _ hmem), rfl,
    Mux.takes (Nat.le_add_left 1 _)⟩
  simp [Mux.parameters, Plan.outputInputs, List.length_flatMap]

namespace Composed

variable {g₁ : Generator} {p : Program} {fss : List (List Function)} {i k o : Nat}

/-- The multiplexer of a stateful operand takes the containers and its control. -/
theorem chooseOperand_matches (h : Composed files g g₁ p fss) (hstep : .chooseOperand i k o ∈ p.plan.steps) :
    Call.Matches ⟨p.plan.operandMux i k o, p.plan.inputs i ++ [p.plan.operandMux i k o ++ "_ctrl"]⟩
      (Mux.mk (p.plan.operandMux i k o) p.plan.shape.containers.toNat).parameters p.text
      (functionsOf p.plan fss) := by
  obtain ⟨hi, hk, ho⟩ : i ∈ upTo p.plan.shape.stages ∧ k ∈ p.plan.units ∧ o < p.plan.operands :=
    Plan.places_of_mem_steps hstep
  have hpositive := h.containers i hi k hk
  have hinputs : p.plan.inputs i ≠ [] := by
    rw [Plan.inputs, ne_eq, List.map_eq_nil_iff, upTo, List.range_eq_nil]
    omega
  have hmem : Mux.function ⟨p.plan.operandMux i k o, p.plan.shape.containers.toNat⟩ ∈
      p.plan.operandFunctions := by
    refine List.mem_map.2 ⟨.operandMux i k o, Plan.mem_operandNames.2 ⟨i, hi, k, hk, o, ho, rfl⟩, ?_⟩
    rw [FunctionName.text_operandMux]
  refine ⟨?_, ?_, _, List.mem_append_left _ (List.mem_append_left _ hmem), rfl, Mux.takes ?_⟩
  · have hcall := p.call_standsIn hstep rfl
    rw [Text.pieces_of_ne_nil hinputs] at hcall
    exact hcall
  · simp [Plan.inputs, upTo, Mux.parameters]
  · show 1 ≤ p.plan.shape.containers.toNat
    omega

/-- The function of a stateful ALU takes the state, the declared packet fields and the holes. -/
theorem stateful_matches (h : Composed files g g₁ p fss) (hstep : .stateful i k ∈ p.plan.steps)
    (hholes : p.plan.statefulHoles ≠ []) (hname : '%' ∉ p.plan.shape.sketchName.toList) :
    ∃ d, described files g.statefulFile = some d ∧
      Call.Matches ⟨p.plan.statefulName i k, stateName i k ::
          (List.range d.packetFields.length).map (operandName i k) ++
          p.plan.statefulHoles.map fun h => p.plan.statefulName i k ++ "_" ++ h ++ "_global"⟩
        ("ref | StateGroup | state_group" :: d.packetFields.map ("int " ++ ·) ++
          p.plan.statefulHoles.map ("int " ++ ·)) p.text (functionsOf p.plan fss) := by
  obtain ⟨hi, hk⟩ : i ∈ upTo p.plan.shape.stages ∧ k ∈ p.plan.units := Plan.places_of_mem_steps hstep
  obtain ⟨fs, hfs, stateless, stateful, rfl, -, hstateful⟩ := exists_of_forall₂ h.stages hi
  obtain ⟨part, hpart, d, f, hd, hsized, hf, rfl⟩ := exists_of_forall₂ hstateful (h.units ▸ hk)
  rw [(namingPlan_names h.shape i k).2] at hf
  have hcount : p.plan.operands = d.packetFields.length := h.operands.trans hsized.operands
  have hsorted : p.plan.statefulHoles = holesOf d := Option.some.inj (h.statefulHoles.symm.trans hsized.holes)
  have hmem : f ∈ fss.flatten := by
    refine List.mem_flatten.2 ⟨_, hfs, List.mem_append_right _ (List.mem_flatten.2 ⟨_, hpart, ?_⟩)⟩
    exact List.mem_append_right _ (List.mem_singleton.2 rfl)
  refine ⟨d, h.statefulFile ▸ hd, ?_, ?_, f, List.mem_append_right _ hmem,
    hf.named.name_eq (percent_not_mem hname i k).2, ?_⟩
  · have hcall := p.call_standsIn hstep rfl
    rw [Text.pieces_of_ne_nil (by simpa using hholes), hcount] at hcall
    exact hcall
  · simp
  · -- There is a packet field, for otherwise the multiplexers of the operands would not have been written.
    have hfields : d.packetFields.map ("int " ++ ·) ≠ [] := by
      rw [ne_eq, List.map_eq_nil_iff, ← List.length_eq_zero_iff, ← hcount]
      exact h.operands_ne_zero
    have htakes := hf.takes
    rw [StatefulAlu.parameterWords, ← hsorted, Text.pieces_of_ne_nil hfields,
      Text.pieces_of_ne_nil (by simpa using hholes)] at htakes
    exact htakes

end Composed

end Generator

namespace TwoStages

/-- A stateful ALU with two packet fields and a hole, a stateless ALU, and a program. -/
def files : Files :=
  .ofList
    [("select", "type:stateful state variables:{s} hole variables:{} packet fields:{x,y} return Mux2(x,y);"),
     ("pass", "// Max value of opcode is 1\ntype:stateless state variables:{} " ++
       "hole variables:{opcode} packet fields:{x} return x;"),
     ("program", "")]

/-- Two stages with two containers and one state group. -/
def generator : Generator :=
  { shape := ⟨"net_2", 2, 1, 2, 2, 2, [], [], [], 1, false⟩
    synthesized := false
    statefulFile := "select"
    statelessFile := "pass"
    constants := ⟨["0", "1"], true⟩
    constantBits := 1 }

def request : Generator.Request :=
  { specFile := "program", mode := .codegen, synthesized := false }

/-- Whether a sketch has a stateful ALU with a hole and calls all that the second stage has. -/
def calls (p : Program) (_ : Generator) : Bool :=
  !p.plan.statefulHoles.isEmpty &&
    [.stateful 1 0, .chooseOperand 1 0 1, .chooseOutput 1 1].all fun step => decide (step ∈ p.plan.steps)

end TwoStages

end SwitchSynth.Sketch
