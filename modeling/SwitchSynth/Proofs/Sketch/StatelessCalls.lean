import Mathlib.Data.List.Sort
import SwitchSynth.Proofs.Sketch.Calls
import SwitchSynth.Proofs.Sketch.Definitions

/-!
# Calls of stateless ALUs

The function of a stateless ALU takes the containers, the holes as they are declared and the controls of its
multiplexers, and all holes once more if there are more than two. A call passes the containers, the hole `opcode`,
the hole `immediate_operand` and the controls, whatever is declared. So a call fits its function exactly if these
two holes are declared, in this order, and there is a packet field.
-/

namespace SwitchSynth.Sketch

open StatelessAlu (holeWord reads readLine control extraWords parameterWords localSuffix)
open Text (pieces Contains)

/-- What a position of a list goes with in another list is one thing if the entries are distinct. -/
theorem eq_of_mem_zip {α β : Type} {xs : List α} {ys : List β} (h : xs.Nodup) {x : α} {y y' : β}
    (hy : (x, y) ∈ xs.zip ys) (hy' : (x, y') ∈ xs.zip ys) : y = y' := by
  induction xs generalizing ys with
  | nil => exact nomatch hy
  | cons x₀ xs ih =>
    cases ys with
    | nil => exact nomatch hy
    | cons y₀ ys =>
      obtain ⟨hx₀, hnodup⟩ := List.nodup_cons.1 h
      rw [List.zip_cons_cons, List.mem_cons, Prod.mk.injEq] at hy hy'
      rcases hy with ⟨rfl, rfl⟩ | hy
      · rcases hy' with ⟨-, rfl⟩ | hy'
        · rfl
        · exact absurd (List.of_mem_zip hy').1 hx₀
      · rcases hy' with ⟨rfl, -⟩ | hy'
        · exact absurd (List.of_mem_zip hy).1 hx₀
        · exact ih hnodup hy hy'

/-- The arguments of a call of a stateless ALU fit the parameters of its function: there are as many, the
parameters are distinct, each declared hole is passed as the parameter from which the body reads it, and each
control as the parameter that controls the multiplexer. -/
structure StatelessFits (d : Alu.Description) (name : String) (parameters arguments : List String) : Prop where
  length_eq : arguments.length = parameters.length
  distinct : parameters.Nodup
  holes : ∀ h ∈ d.holeVars, ∃ parameter, (h, parameter) ∈ reads d.holeVars ∧
    ("int " ++ parameter, name ++ "_" ++ h) ∈ parameters.zip arguments
  controls : ∀ k < d.packetFields.length,
    ("int " ++ control k, name ++ "_operand_mux_" ++ toString k ++ "_ctrl") ∈ parameters.zip arguments

/-- The arguments of a call of a stateless ALU, for some containers and a number of multiplexers. -/
def statelessArguments (inputs : List String) (name : String) (muxes : Nat) : List String :=
  pieces inputs ++ [name ++ "_opcode", name ++ "_immediate_operand"] ++
    pieces ((List.range muxes).map fun k => name ++ "_operand_mux_" ++ toString k ++ "_ctrl")

section Fits

variable {d : Alu.Description} {name : String} {inputs operands : List String}

theorem length_pieces (ws : List String) : (pieces ws).length = max ws.length 1 := by
  cases ws with
  | nil => rfl
  | cons w ws => simp [pieces]

theorem length_extraWords (holeVars : List String) :
    (extraWords holeVars).length = if 2 < holeVars.length then holeVars.length else 0 := by
  unfold extraWords
  split <;> simp

/-- There are as many arguments as parameters only for two holes, with containers and packet fields. -/
theorem lengths_of_fits (hlength : inputs.length = operands.length)
    (h : StatelessFits d name (parameterWords operands d.holeVars d.packetFields)
      (statelessArguments inputs name d.packetFields.length)) :
    d.holeVars.length = 2 ∧ operands ≠ [] ∧ d.packetFields ≠ [] := by
  have hlengths := h.length_eq
  -- A call has two arguments for holes. The function has a parameter for each hole, and where there are more than
  -- two of them it has them twice.
  simp only [statelessArguments, parameterWords, List.length_append, length_pieces, List.length_map,
    List.length_range, length_extraWords, List.length_cons, List.length_nil] at hlengths
  rw [← List.length_pos_iff, ← List.length_pos_iff]
  split at hlengths <;> omega

theorem zip_of_two (d : Alu.Description) (name a b : String) (hlength : inputs.length = operands.length)
    (hoperands : operands ≠ []) (hfields : d.packetFields ≠ []) :
    (parameterWords operands [a, b] d.packetFields).zip (statelessArguments inputs name d.packetFields.length) =
      (operands.map ("int " ++ ·)).zip inputs ++
        [("int " ++ (a ++ localSuffix), name ++ "_" ++ "opcode"),
          ("int " ++ (b ++ localSuffix), name ++ "_" ++ "immediate_operand")] ++
        (List.range d.packetFields.length).map fun k =>
          ("int " ++ control k, name ++ "_operand_mux_" ++ toString k ++ "_ctrl") := by
  have hinputs : inputs ≠ [] := by
    rw [← List.length_pos_iff, hlength, List.length_pos_iff]
    exact hoperands
  have hcontrols : (List.range d.packetFields.length).map (fun k =>
      name ++ "_operand_mux_" ++ toString k ++ "_ctrl") ≠ [] := by
    simpa using hfields
  have hextra : extraWords [a, b] = [] := rfl
  have hopcode : name ++ "_" ++ "opcode" = name ++ "_opcode" := String.append_assoc
  have himmediate : name ++ "_" ++ "immediate_operand" = name ++ "_immediate_operand" := String.append_assoc
  rw [hopcode, himmediate, ← String.append_assoc, ← String.append_assoc, parameterWords, statelessArguments, hextra,
    List.append_nil, Text.pieces_of_ne_nil hinputs, Text.pieces_of_ne_nil hcontrols,
    Text.pieces_of_ne_nil (show [a, b].map holeWord ≠ [] from nofun)]
  -- Containers stand beside containers, holes beside holes and controls beside controls.
  rw [List.zip_append (by simp [hlength]), List.zip_append (by simp [hlength]), List.zip_map']
  rfl

theorem StatelessFits.hole {a b h : String} (hlength : inputs.length = operands.length) (hoperands : operands ≠ [])
    (hfields : d.packetFields ≠ []) (hholes : d.holeVars = [a, b])
    (hfits : StatelessFits d name (parameterWords operands d.holeVars d.packetFields)
      (statelessArguments inputs name d.packetFields.length)) (hh : h ∈ d.holeVars) :
    (h = "opcode" ∧ (h, a ++ localSuffix) ∈ reads d.holeVars) ∨
      (h = "immediate_operand" ∧ (h, b ++ localSuffix) ∈ reads d.holeVars) := by
  obtain ⟨parameter, hread, hpassed⟩ := hfits.holes h hh
  have hdistinct := hfits.distinct
  have hzip := zip_of_two d name a b hlength hoperands hfields
  rw [hholes] at hpassed hdistinct hread ⊢
  have hparameter : parameter = a ++ localSuffix ∨ parameter = b ++ localSuffix := by
    simp only [reads, List.map_cons, List.map_nil, List.mem_cons, Prod.mk.injEq, List.not_mem_nil,
      or_false] at hread
    exact hread.imp And.right And.right
  rcases hparameter with rfl | rfl
  · have hown : ("int " ++ (a ++ localSuffix), name ++ "_" ++ "opcode") ∈
        (parameterWords operands [a, b] d.packetFields).zip
          (statelessArguments inputs name d.packetFields.length) := by
      rw [hzip]
      simp
    exact .inl ⟨(String.append_right_inj _).1 (eq_of_mem_zip hdistinct hpassed hown), hread⟩
  · have hown : ("int " ++ (b ++ localSuffix), name ++ "_" ++ "immediate_operand") ∈
        (parameterWords operands [a, b] d.packetFields).zip
          (statelessArguments inputs name d.packetFields.length) := by
      rw [hzip]
      simp
    exact .inr ⟨(String.append_right_inj _).1 (eq_of_mem_zip hdistinct hpassed hown), hread⟩

/-- The only two holes that fit are the opcode and the immediate operand, in this order. -/
theorem StatelessFits.holeVars_eq (hlength : inputs.length = operands.length)
    (h : StatelessFits d name (parameterWords operands d.holeVars d.packetFields)
      (statelessArguments inputs name d.packetFields.length)) :
    d.holeVars = ["opcode", "immediate_operand"] := by
  obtain ⟨htwo, hoperands, hfields⟩ := lengths_of_fits hlength h
  obtain ⟨a, b, hholes⟩ := List.length_eq_two.1 htwo
  have ha := h.hole hlength hoperands hfields hholes (h := a) (by simp [hholes])
  have hb := h.hole hlength hoperands hfields hholes (h := b) (by simp [hholes])
  have hne : a ≠ b := by
    rintro rfl
    have hdistinct := h.distinct
    rw [hholes] at hdistinct
    simp [parameterWords, pieces, List.nodup_append] at hdistinct
  rw [hholes] at ha hb ⊢
  rcases ha with ⟨rfl, -⟩ | ⟨rfl, hread⟩
  · rcases hb with ⟨rfl, -⟩ | ⟨rfl, -⟩
    · exact absurd rfl hne
    · rfl
  · rcases hb with ⟨rfl, -⟩ | ⟨rfl, -⟩
    · -- The body reads the immediate operand from its own parameter, which stands in the place of the opcode.
      exact absurd hread (by decide)
    · exact absurd rfl hne

theorem input_inj {i j : Nat} (h : "int " ++ Mux.input i = "int " ++ Mux.input j) : i = j :=
  Text.toString_nat_injective ((String.append_right_inj _).1 ((String.append_right_inj _).1 h))

theorem control_inj {i j : Nat} (h : "int " ++ control i = "int " ++ control j) : i = j := by
  have hnumbers := (String.append_left_inj _).1 ((String.append_left_inj _).1 ((String.append_right_inj _).1 h))
  exact Text.toString_nat_injective ((String.append_right_inj _).1 hnumbers)

/-- The parameters for an opcode and an immediate operand are distinct. -/
theorem nodup_parameterWords (n : Nat) (packetFields : List String) :
    (parameterWords ((List.range n).map Mux.input) ["opcode", "immediate_operand"] packetFields).Nodup := by
  have hextra : extraWords ["opcode", "immediate_operand"] = [] := rfl
  -- The kinds of parameters differ in their first letters.
  have hinput : ∀ i, "int in".toList <+: ("int " ++ Mux.input i).toList := fun i => by simp [Mux.input]
  have hcontrol : ∀ k, "int ope".toList <+: ("int " ++ control k).toList := fun k => by
    simp [StatelessAlu.control]
  have hholes : ∀ w ∈ pieces (["opcode", "immediate_operand"].map holeWord),
      ¬ "int in".toList <+: w.toList ∧ ¬ "int ope".toList <+: w.toList := by decide
  rw [parameterWords, hextra, List.append_nil, List.map_map]
  refine List.nodup_append.2 ⟨List.nodup_append.2 ⟨?_, by decide, ?_⟩, ?_, ?_⟩
  · exact List.nodup_range.map fun _ _ h => input_inj h
  · intro a ha b hb hab
    obtain ⟨i, -, rfl⟩ := List.mem_map.1 ha
    exact (hholes b hb).1 (hab ▸ hinput i)
  · exact List.nodup_range.map fun _ _ h => control_inj h
  · intro a ha b hb hab
    obtain ⟨k, -, rfl⟩ := List.mem_map.1 hb
    rcases List.mem_append.1 ha with ha | ha
    · obtain ⟨i, -, rfl⟩ := List.mem_map.1 ha
      have hprefix := hcontrol k
      rw [← hab] at hprefix
      simp [Mux.input] at hprefix
    · exact (hholes a ha).2 (hab ▸ hcontrol k)

/-- A call with some containers fits its function exactly if the two holes that it passes are declared in order
and there is a packet field. -/
theorem statelessFits_iff {n : Nat} (hlength : inputs.length = n) (hinputs : d.packetFields ≠ [] → n ≠ 0) :
    StatelessFits d name (parameterWords ((List.range n).map Mux.input) d.holeVars d.packetFields)
        (statelessArguments inputs name d.packetFields.length) ↔
      d.holeVars = ["opcode", "immediate_operand"] ∧ d.packetFields ≠ [] := by
  have hsame : inputs.length = ((List.range n).map Mux.input).length := by simpa using hlength
  constructor
  · intro hfits
    exact ⟨hfits.holeVars_eq hsame, (lengths_of_fits hsame hfits).2.2⟩
  · rintro ⟨hholes, hfields⟩
    have hoperands : (List.range n).map Mux.input ≠ [] := by simpa using hinputs hfields
    have hzip := zip_of_two d name "opcode" "immediate_operand" hsame hoperands hfields
    rw [hholes]
    refine ⟨?_, nodup_parameterWords n d.packetFields, fun h hh => ?_, fun k hk => ?_⟩
    · have hn := hinputs hfields
      have hm := List.length_pos_iff.2 hfields
      simp only [statelessArguments, parameterWords, List.length_append, length_pieces, List.length_map,
        List.length_range, length_extraWords, List.length_cons, List.length_nil, hlength]
      split <;> omega
    · rw [hholes] at hh ⊢
      rw [hzip]
      simp only [List.mem_cons, List.not_mem_nil, or_false] at hh
      rcases hh with rfl | rfl
      · exact ⟨"opcode" ++ localSuffix, by decide, by simp⟩
      · exact ⟨"immediate_operand" ++ localSuffix, by decide, by simp⟩
    · rw [hzip]
      exact List.mem_append_right _ (List.mem_map.2 ⟨k, List.mem_range.2 hk, rfl⟩)

end Fits

namespace Generator

variable {files : Files} {g g' : Generator}

/-- The function of each stateless ALU that a data path calls stands in the sketch. -/
theorem program_stateless {r : Request} {p : Program} {i j : Nat} (h : EndsIn (program r) files g p g')
    (hi : i ∈ upTo g.shape.stages) (hj : j ∈ upTo g.shape.alus) :
    ∃ d f, described files g.statelessFile = some d ∧ p.plan.statelessMuxes = d.packetFields.length ∧
      (d.packetFields ≠ [] → g.aluOperands ≠ []) ∧ Contains p.text f.text ∧
      IsStateless d g.aluOperands (g.namingPlan.statelessName i j) f := by
  obtain ⟨g₁, g₂, g₃, halus, -, -, -, hmuxes, -, -⟩ := program_plan h
  obtain ⟨hwrites, fss, hdefines, hstages⟩ := alus_define halus
  obtain ⟨fs, hfs, stateless, stateful, rfl, hstateless, -⟩ := exists_of_forall₂ hstages hi
  obtain ⟨part, hpart, d, f, hd, hcount, hinputs, hf, rfl⟩ := exists_of_forall₂ hstateless hj
  have hmem : f ∈ fss.flatten := by
    refine List.mem_flatten.2 ⟨_, hfs, List.mem_append_left _ (List.mem_flatten.2 ⟨_, hpart, ?_⟩)⟩
    exact List.mem_append_right _ (List.mem_singleton.2 rfl)
  exact ⟨d, f, hwrites.statelessFile ▸ hd, Option.some.inj (hmuxes.symm.trans hcount), hinputs,
    p.contains_alus.trans (hdefines.contains hmem), hf⟩

/-- In every sketch, the call of a stateless ALU and its definition stand in the text, with the arguments and the
parameters that are listed in them. The call passes as many arguments as there are parameters, which are distinct,
each hole as the parameter from which the body reads it and each control in its place, exactly if the file declares
the hole variables `opcode` and `immediate_operand`, in this order and no others, and some packet field. -/
theorem stateless_calls_fit_iff_opcode_then_immediate_operand {r : Request} {p : Program} {i j : Nat}
    (h : EndsIn (program r) files g p g') (hstep : .stateless i j ∈ p.plan.steps) :
    ∃ d f call, described files g.statelessFile = some d ∧
      Contains p.text f.text ∧ IsStateless d g.aluOperands (p.plan.statelessName i j) f ∧
      (Step.stateless i j).call? p.plan = some call ∧ call.StandsIn p.text ∧
      (StatelessFits d call.function (parameterWords g.aluOperands d.holeVars d.packetFields) call.arguments ↔
        d.holeVars = ["opcode", "immediate_operand"] ∧ d.packetFields ≠ []) := by
  have hshape := program_shape h
  obtain ⟨hi, hj⟩ : i ∈ upTo p.plan.shape.stages ∧ j ∈ upTo p.plan.shape.alus := Plan.places_of_mem_steps hstep
  rw [hshape] at hi hj
  obtain ⟨d, f, hd, hmuxes, hinputs, htext, hf⟩ := program_stateless h hi hj
  rw [(namingPlan_names hshape i j).1] at hf
  refine ⟨d, f, _, hd, htext, hf, rfl, p.call_standsIn hstep rfl, ?_⟩
  have hlength : (p.plan.inputs i).length = g.shape.containers.toNat := by
    rw [Plan.inputs, List.length_map, hshape, upTo, List.length_range]
  have hnonzero : d.packetFields ≠ [] → g.shape.containers.toNat ≠ 0 := fun hfields hzero => by
    refine hinputs hfields ?_
    rw [aluOperands, upTo, hzero]
    rfl
  rw [← statelessFits_iff hlength hnonzero, ← hmuxes]
  rfl

end Generator

/-! ### A file that declares the two holes the other way round -/

theorem orderedInsert_append {α : Type} {r : α → α → Prop} [DecidableRel r] {a : α} {before after : List α}
    (hbefore : ∀ b ∈ before, ¬ r a b) (hafter : ∀ b ∈ after.head?, r a b) :
    List.orderedInsert r a (before ++ after) = before ++ a :: after := by
  induction before with
  | nil =>
    cases after with
    | nil => rfl
    | cons b after => exact List.orderedInsert_cons_of_le r after (hafter b rfl)
  | cons b before ih =>
    rw [List.cons_append, List.orderedInsert, if_neg (hbefore b List.mem_cons_self),
      ih fun b' hb' => hbefore b' (List.mem_cons_of_mem b hb')]
    rfl

theorem mergeSort_eq_insertionSort_key {β : Type} (l : List (String × β)) :
    (l.mergeSort fun a b => decide (a.1 ≤ b.1)) = l.insertionSort fun a b => a.1 ≤ b.1 := by
  have htrans : ∀ a b c : String × β, decide (a.1 ≤ b.1) = true → decide (b.1 ≤ c.1) = true →
      decide (a.1 ≤ c.1) = true := fun a b c hab hbc =>
    decide_eq_true (String.le_trans (of_decide_eq_true hab) (of_decide_eq_true hbc))
  have htotal : ∀ a b : String × β, (decide (a.1 ≤ b.1) || decide (b.1 ≤ a.1)) = true := fun a b => by
    simpa using String.le_total a.1 b.1
  induction l with
  | nil => exact List.mergeSort_nil
  | cons a l ih =>
    obtain ⟨before, after, hsort, hrest, hbefore⟩ := List.mergeSort_cons htrans htotal a l
    have hsorted := List.pairwise_mergeSort htrans htotal (a :: l)
    rw [hsort, List.pairwise_append, List.pairwise_cons] at hsorted
    rw [List.insertionSort_cons, ← ih, hrest, hsort, orderedInsert_append]
    · intro b hb
      simpa using hbefore b hb
    · intro b hb
      simpa using hsorted.2.1.1 b (List.mem_of_head? hb)

namespace SwappedHoles

/-- A stateful ALU, two stateless ALUs that differ in the order of their holes, and a program. -/
def files : Files :=
  .ofList
    [("keep", "type:stateful state variables:{s} hole variables:{} packet fields:{x} return s;"),
     ("swapped", "// Max value of opcode is 1\ntype:stateless state variables:{} " ++
       "hole variables:{immediate_operand,opcode} packet fields:{x} return x;"),
     ("straight", "// Max value of opcode is 1\ntype:stateless state variables:{} " ++
       "hole variables:{opcode,immediate_operand} packet fields:{x} return x;"),
     ("program", "")]

/-- One stage with one container and one state group. -/
def generator (statelessFile : String) : Generator :=
  { shape := ⟨"n", 1, 1, 1, 1, 1, [], [], [], 1, false⟩
    synthesized := false
    statefulFile := "keep"
    statelessFile := statelessFile
    constants := ⟨["0", "1"], true⟩
    constantBits := 1 }

def request : Generator.Request :=
  { specFile := "program", mode := .codegen, synthesized := false }

theorem addHoles_eq : Generator.addHoles = fun holes =>
    (holes.insertionSort fun a b => a.1 ≤ b.1).forM fun (name, width) => Generator.addHole name width := by
  funext holes
  rw [Generator.addHoles, mergeSort_eq_insertionSort_key]

/-- Whether a sketch calls its first stateless ALU, whose file declares some holes and a packet field. -/
def calls (file : String) (holes : List String) (p : Program) (_ : Generator) : Bool :=
  decide (.stateless 0 0 ∈ p.plan.steps) &&
    (Generator.described files file).all fun d => d.holeVars == holes && !d.packetFields.isEmpty

theorem sketch_ends (file : String) (holes : List String) (hcheck :
      endsWith (calls file holes) (((Generator.program request).run files).run.run (generator file)) = true) :
    ∃ p g, EndsIn (Generator.program request) files (generator file) p g ∧ .stateless 0 0 ∈ p.plan.steps ∧
      ∀ d, Generator.described files file = some d → d.holeVars = holes ∧ d.packetFields ≠ [] := by
  obtain ⟨p, g, hends, hcalls⟩ := exists_endsIn (calls file holes) hcheck
  rw [calls, Bool.and_eq_true, decide_eq_true_eq] at hcalls
  refine ⟨p, g, hends, hcalls.1, fun d hd => ?_⟩
  have hdeclared := hcalls.2
  rw [hd] at hdeclared
  simpa using hdeclared

/-- With the holes the other way round, the call passes each of them as the other. -/
theorem swapped_call_misfits_straight_call_fits :
    (∃ p g d call, EndsIn (Generator.program request) files (generator "swapped") p g ∧
      .stateless 0 0 ∈ p.plan.steps ∧ Generator.described files "swapped" = some d ∧
      (Step.stateless 0 0).call? p.plan = some call ∧ call.StandsIn p.text ∧
      ¬ StatelessFits d call.function
        (parameterWords (generator "swapped").aluOperands d.holeVars d.packetFields) call.arguments) ∧
    ∃ p g d call, EndsIn (Generator.program request) files (generator "straight") p g ∧
      .stateless 0 0 ∈ p.plan.steps ∧ Generator.described files "straight" = some d ∧
      (Step.stateless 0 0).call? p.plan = some call ∧ call.StandsIn p.text ∧
      StatelessFits d call.function
        (parameterWords (generator "straight").aluOperands d.holeVars d.packetFields) call.arguments := by
  constructor
  · obtain ⟨p, g, hends, hstep, hdeclared⟩ := sketch_ends "swapped" ["immediate_operand", "opcode"] (by
      simp only [Generator.program, Generator.alus, Generator.statelessAlu, addHoles_eq]
      decide +kernel)
    obtain ⟨d, f, call, hd, -, -, hcall, hstands, hiff⟩ :=
      Generator.stateless_calls_fit_iff_opcode_then_immediate_operand hends hstep
    refine ⟨p, g, d, call, hends, hstep, hd, hcall, hstands, fun hfits => ?_⟩
    have hholes := (hdeclared d hd).1
    rw [(hiff.1 hfits).1] at hholes
    exact absurd hholes (by decide)
  · obtain ⟨p, g, hends, hstep, hdeclared⟩ := sketch_ends "straight" ["opcode", "immediate_operand"] (by
      simp only [Generator.program, Generator.alus, Generator.statelessAlu, addHoles_eq]
      decide +kernel)
    obtain ⟨d, f, call, hd, -, -, hcall, hstands, hiff⟩ :=
      Generator.stateless_calls_fit_iff_opcode_then_immediate_operand hends hstep
    exact ⟨p, g, d, call, hends, hstep, hd, hcall, hstands, hiff.2 (hdeclared d hd)⟩

end SwappedHoles

end SwitchSynth.Sketch
