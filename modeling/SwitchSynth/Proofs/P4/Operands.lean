import SwitchSynth.Proofs.P4.Assembly
import SwitchSynth.Proofs.Sketch.Holes

/-!
# Operands in sketches and in switch programs

A sketch and the switch program made of it choose the operands of an ALU by the same hole. In the sketch a
multiplexer passes on the container that the hole selects, and every value beyond the last container selects
the last. The switch program names the container by the value itself. The two are the same container exactly
for the values below the number of containers; a hole has more values than that whenever the number is not
the size of its range.
-/

namespace SwitchSynth

open Sketch (Mux Hole Generator)

/-- A hole admits the values that its bits can hold. -/
def Sketch.Hole.Admits (h : Hole) (v : Int) : Prop :=
  0 ≤ v ∧ v ≤ h.greatest

instance (h : Hole) (v : Int) : Decidable (h.Admits v) :=
  inferInstanceAs (Decidable (_ ∧ _))

theorem Sketch.Hole.greatest_nonneg (h : Hole) : 0 ≤ h.greatest := by
  have hpow : (0 : Int) < Int.pow 2 h.width.toNat := Int.pow_pos (by decide)
  unfold Sketch.Hole.greatest
  omega

namespace P4

theorem containerText_natCast_inj {m n : Nat} :
    containerText (m : Int) = containerText (n : Int) ↔ m = n := by
  refine ⟨fun h => ?_, fun h => by rw [h]⟩
  unfold containerText at h
  exact Text.toString_nat_injective (String.append_right_inj _ |>.1 h)

/-- The container that a switch program names for a value is the one that a multiplexer passes on. -/
def SameContainer (m : Mux) (v : Int) : Prop :=
  containerText v = containerText (m.select v)

variable {m : Mux} {g : Generator}

theorem sameContainer_iff {v : Int} (hinputs : 1 ≤ m.inputs) (hv : 0 ≤ v) :
    SameContainer m v ↔ v < m.inputs := by
  obtain ⟨n, rfl⟩ := Int.eq_ofNat_of_zero_le hv
  unfold SameContainer
  rw [Mux.select_natCast, containerText_natCast_inj]
  omega

/-- All values of a hole name the right container exactly if there are no more of them than containers. -/
theorem forall_sameContainer_iff {h : Hole} (hinputs : 1 ≤ m.inputs) :
    (∀ v, h.Admits v → SameContainer m v) ↔ h.greatest < m.inputs := by
  constructor
  · intro hall
    have hgreatest := h.greatest_nonneg
    exact (sameContainer_iff hinputs hgreatest).1 (hall _ ⟨hgreatest, Int.le_refl _⟩)
  · intro hlt v hv
    exact (sameContainer_iff hinputs hv.1).2 (Int.lt_of_le_of_lt hv.2 hlt)

theorem aluName_statelessName (p : Sketch.Plan) (i j : Nat) :
    Assemble.aluName p.shape.sketchName "stateless" i j = p.statelessName i j := by
  rw [Assemble.aluName, Sketch.Plan.statelessName,
    show "_stateless_alu_" = "_" ++ ("stateless" ++ "_alu_") from rfl]
  simp only [String.append_assoc]

theorem aluName_statefulName (p : Sketch.Plan) (i l : Nat) :
    Assemble.aluName p.shape.sketchName "stateful" i l = p.statefulName i l := by
  rw [Assemble.aluName, Sketch.Plan.statefulName,
    show "_stateful_alu_" = "_" ++ ("stateful" ++ "_alu_") from rfl]
  simp only [String.append_assoc]

theorem aluName_stateless (i j : Nat) :
    Assemble.aluName g.shape.sketchName "stateless" i j = g.namingPlan.statelessName i j :=
  aluName_statelessName g.namingPlan i j

theorem aluName_stateful (i l : Nat) :
    Assemble.aluName g.shape.sketchName "stateful" i l = g.namingPlan.statefulName i l :=
  aluName_statefulName g.namingPlan i l

/-- A switch program is made for the pipeline of a sketch: every container has a stateless ALU, and every
state group its own stateful ALU. -/
structure Target.Fits (t : Target) (g : Generator) : Prop where
  sketchName : t.sketchName = g.shape.sketchName
  stages : t.stages = g.shape.stages
  alus : t.alus = g.shape.alus
  groups : t.groups = g.shape.groups
  containers : g.shape.containers = g.shape.alus
  canonical : g.synthesized = false
  tofino : g.shape.tofino = true

/-- An operand of an ALU in a sketch and in a switch program: the sketch defines the multiplexer, both choose
by the value of its hole, and they choose the same container exactly for the values below its inputs. -/
structure OperandCompared (g : Generator) (sketch : String) (holes : Table Int) (m : Mux) (v : Int) :
    Prop where
  defined : g.HasMux sketch m
  assigned : holes.get? m.control = some v
  same_iff : SameContainer m v ↔ v < m.inputs
  always_same_iff : ∀ h ∈ g.holes, h.name = m.control →
    ((∀ u, h.Admits u → SameContainer m u) ↔ h.greatest < m.inputs)

theorem operandCompared {sketch : String} {holes : Table Int} {v : Int}
    (hvalues : ∀ h ∈ g.holes, ∀ v, holes.get? h.name = some v → h.Admits v)
    (hmux : g.HasMux sketch m) (hv : holes.get? m.control = some v) :
    OperandCompared g sketch holes m v := by
  have hinputs := hmux.inputs_pos
  obtain ⟨width, -, hmem, -⟩ := id hmux
  have hadmits := hvalues _ hmem v hv
  exact ⟨hmux, hv, sameContainer_iff hinputs hadmits.1,
    fun h _ _ => forall_sameContainer_iff hinputs⟩

/-- For every pipeline whose sketch is generated, and all values of holes that are made into a switch program,
the operands of all ALUs are the containers that the sketch selects exactly where the value of the hole is
below the number of containers. -/
theorem operands_are_selected_iff_below_containers {files files' : Files} {r : Generator.Request}
    {g g' : Generator} {p : Sketch.Program} {t : Target} {holes left : Table Int} {a : Assembly}
    (hsketch : EndsIn (Generator.program r) files g p g') (hfits : t.Fits g)
    (hassemble : EndsIn assemble (t, files') holes a left)
    (hvalues : ∀ h ∈ g'.holes, ∀ v, holes.get? h.name = some v → h.Admits v) :
    (∀ i < t.stages.toNat, ∀ j < t.alus.toNat, ∃ row c,
      a.stateless[i]? = some row ∧ row[j]? = some c ∧
      c.instruction = .ofOpcode (containerText j) (containerText c.first) (containerText c.second)
        c.immediate c.opcode ∧
      ∀ k v, [c.first, c.second][k]? = some v → k < p.plan.statelessMuxes →
        OperandCompared g' p.text holes
          ⟨g.namingPlan.statelessName i j ++ "_operand_mux_" ++ toString k, t.alus.toNat⟩ v) ∧
    (∀ i < t.stages.toNat, ∀ l < t.groups.toNat, ∃ row c text low high rest,
      a.stateful[i]? = some row ∧ row[l]? = some c ∧ files'.readAscii t.statefulFile = .ok text ∧
      c.expressions = (StatefulAlu.lower ⟨g.namingPlan.statefulName i l, t.constants,
        containerText low, containerText high⟩ rest (Alu.Source.read (Alu.lex text))).2.expressions ∧
      ∀ k v, [low, high][k]? = some v → k < p.plan.operands →
        OperandCompared g' p.text holes ⟨g.namingPlan.operandMux i l k, t.alus.toNat⟩ v) := by
  obtain ⟨hstateless, hstateful⟩ := Generator.program_hasMux hsketch
  have hinputs : g.shape.containers.toNat = t.alus.toNat := by rw [hfits.containers, hfits.alus]
  rw [hinputs] at hstateless hstateful
  constructor
  · intro i hi j hj
    -- The holes that were used up go by the names of the sketch.
    obtain ⟨row, c, hrow, hc, hresult, hoperands⟩ := assemble_stateless_operands hassemble hi hj
    rw [hfits.sketchName, aluName_stateless] at hoperands
    refine ⟨row, c, hrow, hc, by rw [StatelessConfig.instruction, hresult], fun k v hk hlt => ?_⟩
    have hmux := hstateless i (hfits.stages ▸ hi) j (hfits.alus ▸ hj) k hlt
    exact operandCompared hvalues hmux (hoperands k v hk)
  · intro i hi l hl
    obtain ⟨row, c, text, low, high, rest, hrow, hc, htext, hexpressions, hoperands⟩ :=
      assemble_stateful_operands hassemble hi hl
    rw [hfits.sketchName, aluName_stateful] at hexpressions hoperands
    refine ⟨row, c, text, low, high, rest, hrow, hc, htext, hexpressions, fun k v hk hlt => ?_⟩
    -- Without a synthesised allocation each state group has a unit of its own in every stage.
    have hunit : l ∈ g.units := by
      simp only [Generator.units, Generator.namingPlan, Sketch.Plan.units, hfits.canonical,
        Bool.false_eq_true, if_false, Sketch.upTo, List.mem_range]
      exact hfits.groups ▸ hl
    have hmux := hstateful i (hfits.stages ▸ hi) l hunit k hlt
    exact operandCompared hvalues hmux (hoperands k v hk)

namespace ThreeContainers

/-- A stateful and a stateless ALU with one packet field each, and a program. -/
def files : Files :=
  .ofList
    [("keep", "type:stateful state variables:{s} hole variables:{} packet fields:{x} return s;"),
     ("pass", "// Max value of opcode is 1\ntype:stateless state variables:{} " ++
       "hole variables:{opcode} packet fields:{x} return x;"),
     ("program", "")]

/-- One stage with three containers and one state group. -/
def generator : Generator :=
  { shape := ⟨"n", 3, 1, 3, 1, 3, [], [], [], 1, true⟩
    synthesized := false
    statefulFile := "keep"
    statelessFile := "pass"
    constants := ⟨["0", "1"], true⟩
    constantBits := 1 }

def request : Generator.Request :=
  { specFile := "program", mode := .codegen, synthesized := false }

def target : Target :=
  ⟨"n", 3, 1, 1, ["0", "1"], "keep"⟩

def statelessValues (alu : String) (first : Int) : List (String × Int) :=
  [(alu ++ "_demux_ctrl", 1), (alu ++ "_opcode", 0), (alu ++ "_operand_mux_0_ctrl", first),
   (alu ++ "_operand_mux_1_ctrl", 0), (alu ++ "_immediate_operand", 0)]

/-- Values of all holes. The first stateless ALU and the stateful one have the operand three. -/
def values : Table Int :=
  .ofList (statelessValues "n_stateless_alu_0_0" 3 ++ statelessValues "n_stateless_alu_0_1" 0 ++
    statelessValues "n_stateless_alu_0_2" 0 ++
    [("n_stateful_alu_0_0_operand_mux_0_ctrl", 3), ("n_stateful_alu_0_0_operand_mux_1_ctrl", 0),
     ("n_stateful_alu_0_0_demux_ctrl", 0), ("n_salu_config_0_0", 1)])

/-- Whether a sketch ended with holes that admit all values. -/
def sketched : Except Error Sketch.Program × Generator → Bool
  | (.ok p, g) => decide (0 < p.plan.statelessMuxes) && decide (0 < p.plan.operands) &&
    g.holes.all fun h => (values.get? h.name).all fun v => decide (h.Admits v)
  | (.error _, _) => false

theorem sketch_ends : ∃ p g, EndsIn (Generator.program request) files generator p g ∧
    0 < p.plan.statelessMuxes ∧ 0 < p.plan.operands ∧
    ∀ h ∈ g.holes, ∀ v, values.get? h.name = some v → h.Admits v := by
  have hcheck : sketched (((Generator.program request).run files).run.run generator) = true := by
    decide +kernel
  generalize hrun : ((Generator.program request).run files).run.run generator = run at hcheck
  obtain ⟨result, g⟩ := run
  cases result with
  | error e => exact nomatch hcheck
  | ok p =>
    simp only [sketched, Bool.and_eq_true, decide_eq_true_eq, List.all_eq_true] at hcheck
    obtain ⟨⟨hstateless, hstateful⟩, hadmits⟩ := hcheck
    refine ⟨p, g, hrun, hstateless, hstateful, fun h hh v hv => ?_⟩
    have hall := hadmits h hh
    rw [hv] at hall
    simpa using hall

theorem assembly_ends : ∃ a left, EndsIn assemble (target, files) values a left := by
  have hsome : ((assemble.run (target, files)).run.run values).1.toOption.isSome = true := by
    decide +kernel
  generalize hrun : (assemble.run (target, files)).run.run values = run at hsome
  obtain ⟨result, left⟩ := run
  cases result with
  | error e => exact nomatch hsome
  | ok a => exact ⟨a, left, hrun⟩

/-- With three containers both ALUs of a stage may have an operand that the switch program does not take from
the container that the sketch selects. -/
theorem operands_differ :
    ∃ p g a left, EndsIn (Generator.program request) files generator p g ∧
      target.Fits generator ∧ EndsIn assemble (target, files) values a left ∧
      (∀ h ∈ g.holes, ∀ v, values.get? h.name = some v → h.Admits v) ∧
      (∃ row c m, a.stateless[0]? = some row ∧ row[0]? = some c ∧
        OperandCompared g p.text values m c.first ∧ ¬ SameContainer m c.first) ∧
      ∃ m v, OperandCompared g p.text values m v ∧ m.name = "n_stateful_alu_0_0_operand_mux_0" ∧
        ¬ SameContainer m v := by
  obtain ⟨p, g, hsketch, hmuxes, hoperands, hvalues⟩ := sketch_ends
  obtain ⟨a, left, hassemble⟩ := assembly_ends
  have hfits : target.Fits generator := ⟨rfl, rfl, rfl, rfl, rfl, rfl, rfl⟩
  obtain ⟨hstateless, hstateful⟩ :=
    operands_are_selected_iff_below_containers hsketch hfits hassemble hvalues
  refine ⟨p, g, a, left, hsketch, hfits, hassemble, hvalues, ?_, ?_⟩
  · obtain ⟨row, c, hrow, hc, -, hcompared⟩ := hstateless 0 (by decide) 0 (by decide)
    have hfirst := hcompared 0 c.first rfl hmuxes
    have hthree : values.get? "n_stateless_alu_0_0_operand_mux_0_ctrl" = some 3 := by
      decide +kernel
    have hc3 : some c.first = some 3 := hfirst.assigned.symm.trans hthree
    refine ⟨row, c, _, hrow, hc, hfirst, fun hsame => ?_⟩
    have hlt := hfirst.same_iff.1 hsame
    rw [Option.some.inj hc3] at hlt
    exact absurd hlt (by decide)
  · obtain ⟨row, c, text, low, high, rest, -, -, -, -, hcompared⟩ :=
      hstateful 0 (by decide) 0 (by decide)
    have hlow := hcompared 0 low rfl hoperands
    have hthree : values.get? "n_stateful_alu_0_0_operand_mux_0_ctrl" = some 3 := by
      decide +kernel
    have hlow3 : some low = some 3 := hlow.assigned.symm.trans hthree
    refine ⟨_, low, hlow, by decide +kernel, fun hsame => ?_⟩
    have hlt := hlow.same_iff.1 hsame
    rw [Option.some.inj hlow3] at hlt
    exact absurd hlt (by decide)

end ThreeContainers

end P4

end SwitchSynth
