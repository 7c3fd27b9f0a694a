import SwitchSynth.Proofs.Paths
import SwitchSynth.Proofs.Sketch.Definitions

/-!
# The holes of a sketch

Generating a sketch adds its holes one after the other. Which holes these are and how wide they are is decided
by the shape of the pipeline, by the texts of the two kinds of ALU and by the number of the constants (`Layout`).
What an earlier sketch has left behind does not count, so that a sketch that is generated again has the same
holes.
-/

namespace SwitchSynth.Sketch.Generator

variable {files : Files} {g g' : Generator} {name text : String} {i : Nat} {d : Alu.Description} {r : Request}
  {p : Program} {hs : List Hole} {cs : List Constraint}

/-- There is a stage, and a stage has ALUs of both kinds. -/
structure HasAlus (g : Generator) : Prop where
  stages : upTo g.shape.stages ≠ []
  alus : upTo g.shape.alus ≠ []
  units : g.units ≠ []

theorem HasAlus.of_alike (h : HasAlus g) (hg : Alike g g') : HasAlus g' := by
  refine ⟨hg.shape ▸ h.stages, hg.shape ▸ h.alus, ?_⟩
  rw [Generator.units, namingPlan, hg.shape, hg.synthesized]
  exact h.units

/-- Behind stateful ALUs the sizes are those of their file, from which they are written. -/
theorem alus_sizes (hstages : upTo g.shape.stages ≠ []) (hunits : g.units ≠ [])
    (h : EndsIn alus files g text g') :
    ∃ d, described files g.statefulFile = some d ∧ SizedBy d g' ∧ ∃ name f, IsStateful d name f := by
  obtain ⟨hwrites, fss, -, hparts⟩ := alus_define h
  obtain ⟨i, hi⟩ := List.exists_mem_of_ne_nil _ hstages
  obtain ⟨l, hl⟩ := List.exists_mem_of_ne_nil _ hunits
  obtain ⟨fs, -, _, stateful, -, -, hstateful⟩ := exists_of_forall₂ hparts hi
  obtain ⟨_, -, d, f, hd, hsized, hf, -⟩ := exists_of_forall₂ hstateful hl
  exact ⟨d, hwrites.statefulFile ▸ hd, hsized, _, f, hf⟩

/-- Behind stateless ALUs their multiplexers are counted by their file, from which they are written. -/
theorem alus_muxes (hstages : upTo g.shape.stages ≠ []) (halus : upTo g.shape.alus ≠ [])
    (h : EndsIn alus files g text g') :
    ∃ d, described files g.statelessFile = some d ∧ g'.statelessMuxes = some d.packetFields.length ∧
      ∃ name f, IsStateless d g.aluOperands name f := by
  obtain ⟨hwrites, fss, -, hparts⟩ := alus_define h
  obtain ⟨i, hi⟩ := List.exists_mem_of_ne_nil _ hstages
  obtain ⟨j, hj⟩ := List.exists_mem_of_ne_nil _ halus
  obtain ⟨fs, -, stateless, _, -, hstateless, -⟩ := exists_of_forall₂ hparts hi
  obtain ⟨_, -, d, f, hd, hmuxes, -, hf, -⟩ := exists_of_forall₂ hstateless hj
  exact ⟨d, hwrites.statelessFile ▸ hd, hmuxes, _, f, hf⟩

theorem emptied_alike (g : Generator) : Alike g g.emptied :=
  ⟨rfl, rfl, rfl, rfl, rfl, rfl⟩

/-- Both texts are read, and behind the ALUs of a sketch the sizes are those of the stateful one. -/
theorem described_of_hasAlus (halus : HasAlus g) (h : EndsIn alus files g.emptied text g') :
    (∃ d, describedBy (g.layout files).stateless = some d) ∧
      ∃ d, describedBy (g.layout files).stateful = some d ∧ SizedBy d g' := by
  have halus' := halus.of_alike (emptied_alike g)
  obtain ⟨d, hd, -⟩ := alus_muxes halus'.stages halus'.alus h
  obtain ⟨d', hd', hsized, -⟩ := alus_sizes halus'.stages halus'.units h
  exact ⟨⟨d, hd⟩, d', hd', hsized⟩

theorem SizedBy.adds (hsized : SizedBy d g) (h : Adds hs cs g g') : SizedBy d g' := by
  rw [h.eq]
  exact ⟨hsized.holes, hsized.operands, hsized.slots⟩

theorem operandMuxes_holes (hd : describedBy (g.layout files).stateful = some d) (hsized : SizedBy d g)
    (h : EndsIn operandMuxes files g text g') : Adds (g.layout files).operandHoles [] g g' := by
  obtain ⟨-, -, -, hadds⟩ := operandMuxes_define h
  simp only [operandMuxNames, List.map_flatMap, List.map_map, hsized.operands] at hadds
  rw [Layout.operandHoles, hd]
  exact hadds

theorem outputMuxes_holes (hd : describedBy (g.layout files).stateful = some d) (hsized : SizedBy d g)
    (h : EndsIn outputMuxes files g text g') : ∃ cs, Adds (g.layout files).outputHoles cs g g' := by
  rw [Layout.outputHoles, hd]
  rcases outputMuxes_define h with ⟨htofino, -, hadds⟩ | ⟨htofino, -, -, hadds⟩
  · rw [if_pos (show (g.layout files).shape.tofino = true from htofino)]
    exact ⟨_, hadds⟩
  · rw [if_neg (show ¬ (g.layout files).shape.tofino = true from Bool.eq_false_iff.1 htofino)]
    simp only [outputMuxNames, outputInputs, List.map_flatMap, List.map_map, hsized.slots] at hadds
    exact ⟨_, hadds⟩

/-- Behind a sketch the holes are those of its layout, whatever an earlier sketch has left. -/
theorem program_holes (hready : HasAlus g) (h : EndsIn (program r) files g p g') :
    Alike g g' ∧ g'.holes = (g.layout files).holes ∧ ∀ hole ∈ g'.holes, 0 ≤ hole.width := by
  obtain ⟨g₁, g₂, g₃, halus, hoperands, houtputs, hallocate, -⟩ := program_inv h
  obtain ⟨-, d, hd, hsized⟩ := described_of_hasAlus hready halus
  obtain ⟨hwrites, -⟩ := alus_define halus
  have hlayout₁ := hwrites.layout_eq files
  have hfirst := operandMuxes_holes (hlayout₁ ▸ hd) hsized hoperands
  have hlayout₂ := (hfirst.alike.layout_eq files).trans hlayout₁
  obtain ⟨_, hsecond⟩ := outputMuxes_holes (hlayout₂ ▸ hd) (hsized.adds hfirst) houtputs
  have hlayout₃ := (hsecond.alike.layout_eq files).trans hlayout₂
  have hthird : Adds (g₃.layout files).allocationHoles _ _ _ := allocate_adds hallocate
  rw [hlayout₃] at hthird
  rw [hlayout₂] at hsecond
  rw [hlayout₁] at hfirst
  have hall := (hfirst.trans hsecond).trans hthird
  have hholes : g'.holes = (g.layout files).holes := by
    rw [hall.eq]
    simp only [hwrites.holes_eq, emptied, Layout.holes, List.nil_append, List.append_assoc]
    rfl
  refine ⟨alike.trans (alike.trans (emptied_alike g) hwrites.toAlike) hall.alike, hholes, ?_⟩
  rw [hholes, Layout.holes, List.append_assoc, List.append_assoc, ← List.append_assoc _ _ (Layout.allocationHoles _)]
  exact List.forall_mem_append.2 ⟨hwrites.width_nonneg, hall.width_nonneg⟩

theorem Alike.units_eq (h : Alike g g') : g'.units = g.units := by
  rw [Generator.units, Generator.units, namingPlan, namingPlan, h.shape, h.synthesized]

/-- A generator that has not begun, or that has ALUs of both kinds. -/
def Ready (g : Generator) : Prop :=
  (g.operands = 0 ∧ g.statelessMuxes = none) ∨ HasAlus g

theorem program_holes_ne_nil (hready : HasAlus g) (h : EndsIn (program r) files g p g') :
    g'.holes ≠ [] := by
  obtain ⟨g₁, g₂, g₃, halus, hmuxes, -⟩ := program_inv h
  obtain ⟨-, d, hd, hsized⟩ := described_of_hasAlus hready halus
  have hpos : 0 < d.packetFields.length :=
    Nat.pos_of_ne_zero (hsized.operands ▸ (operandMuxes_define hmuxes).1)
  obtain ⟨i, hi⟩ := List.exists_mem_of_ne_nil _ hready.stages
  obtain ⟨l, hl⟩ := List.exists_mem_of_ne_nil _ hready.units
  -- The first operand of a stateful ALU has a multiplexer, which has a hole.
  have hmem : controlHole g.shape.containers ((g.layout files).plan.operandMux i l 0) ∈
      (g.layout files).operandHoles := by
    have hd' : describedBy (g.layout files).stateful = some d := hd
    rw [Layout.operandHoles, hd']
    simp only [List.mem_flatMap, List.mem_map, List.mem_range]
    exact ⟨i, hi, l, hl, 0, hpos, rfl⟩
  rw [(program_holes hready h).2.1, Layout.holes]
  refine List.ne_nil_of_mem (a := controlHole g.shape.containers ((g.layout files).plan.operandMux i l 0)) ?_
  simp only [List.mem_append]
  exact .inl (.inl (.inr hmem))

/-- A multiplexer with an input is there if its definition and the hole that controls it are. -/
theorem hasMux_of_mem {inputs : Nat} (hinputs : 1 ≤ inputs)
    (hhole : controlHole inputs name ∈ g.holes) (htext : Text.Contains text (Mux.mk name inputs).text) :
    HasMux g text ⟨name, inputs⟩ := by
  obtain ⟨n, rfl⟩ := Nat.exists_eq_add_of_le' hinputs
  exact ⟨bitsOf (n + 1 : Nat), rfl, hhole, htext⟩

/-- Each stateless ALU has a multiplexer for each packet field of its file. -/
theorem alus_hasMux (h : EndsIn alus files g text g') {j k n : Nat} (hi : i ∈ upTo g.shape.stages)
    (hj : j ∈ upTo g.shape.alus) (hn : g'.statelessMuxes = some n) (hk : k < n) :
    HasMux g' text ⟨g.namingPlan.statelessName i j ++ "_operand_mux_" ++ toString k, g.shape.containers.toNat⟩ := by
  obtain ⟨hwrites, fss, hdefines, hparts⟩ := alus_define h
  obtain ⟨_, hfs, stateless, _, rfl, hstateless, -⟩ := exists_of_forall₂ hparts hi
  obtain ⟨_, hmem, d, _, hd, hcount, hinputs, -, rfl⟩ := exists_of_forall₂ hstateless hj
  have hk : k < d.packetFields.length := by rwa [Option.some.inj (hcount.symm.trans hn)]
  have hlength : g.aluOperands.length = g.shape.containers.toNat := by simp [aluOperands, upTo]
  have hpos : 0 < g.aluOperands.length := List.length_pos_iff.2 (hinputs (List.ne_nil_of_length_pos (by omega)))
  have htext := hdefines.contains (f := Mux.function ⟨g.namingPlan.statelessName i j ++ "_operand_mux_" ++ toString k,
    g.aluOperands.length⟩) (List.mem_flatten.2 ⟨_, hfs, List.mem_append_left _ (List.mem_flatten.2
      ⟨_, hmem, List.mem_append_left _ (List.mem_map.2 ⟨k, List.mem_range.2 hk, rfl⟩)⟩)⟩)
  rw [← hlength]
  refine hasMux_of_mem hpos ?_ htext
  have hd : describedBy (g.layout files).stateless = some d := hwrites.layout_eq files ▸ hd
  rw [hwrites.holes_eq]
  refine List.mem_append_right _ (List.mem_flatMap.2 ⟨i, hi, List.mem_append_left _ (List.mem_flatMap.2 ⟨j, hj, ?_⟩)⟩)
  rw [Layout.statelessHoles, hd, aluOperands, List.length_map]
  exact List.mem_append_left _ (List.mem_map_of_mem (List.mem_range.2 hk))

theorem operandMuxes_hasMux (h : EndsIn operandMuxes files g text g') {l k : Nat}
    (hi : i ∈ upTo g.shape.stages) (hl : l ∈ g.units) (hk : k < g.operands) :
    HasMux g' text ⟨g.namingPlan.operandMux i l k, g.shape.containers.toNat⟩ := by
  obtain ⟨-, hdefines, hinputs, hadds⟩ := operandMuxes_define h
  have hmem := mem_operandMuxNames hi hl hk
  have hpos := hinputs _ hmem
  have htext := hdefines.contains (f := Mux.function ⟨g.namingPlan.operandMux i l k, g.shape.containers.toNat⟩)
    (List.mem_map.2 ⟨_, hmem, rfl⟩)
  refine hasMux_of_mem (by omega) ?_ htext
  rw [hadds.eq, Int.toNat_of_nonneg (by omega)]
  exact List.mem_append_right _ (List.mem_map_of_mem hmem)

theorem Adds.holes_before (h : Adds hs cs g g') : g.holes <+: g'.holes := by
  rw [h.eq]
  exact List.prefix_append _ _

/-- A generated sketch defines the multiplexers of all operands, and their holes are among those of the
generator. -/
theorem program_hasMux (h : EndsIn (program r) files g p g') :
    (∀ i < g.shape.stages.toNat, ∀ j < g.shape.alus.toNat, ∀ k < p.plan.statelessMuxes,
      HasMux g' p.text ⟨g.namingPlan.statelessName i j ++ "_operand_mux_" ++ toString k,
        g.shape.containers.toNat⟩) ∧
    ∀ i < g.shape.stages.toNat, ∀ l ∈ g.units, ∀ k < p.plan.operands,
      HasMux g' p.text ⟨g.namingPlan.operandMux i l k, g.shape.containers.toNat⟩ := by
  obtain ⟨g₁, g₂, g₃, halus, hoperands, houtputs, hallocate, hmuxes, -, hplan⟩ := program_plan h
  obtain ⟨_, _, hadds⟩ := outputMuxes_adds houtputs
  have hrest := hadds.trans (allocate_adds hallocate)
  obtain ⟨-, -, -, hfirst⟩ := operandMuxes_define hoperands
  constructor
  · intro i hi j hj k hk
    exact (alus_hasMux halus (List.mem_range.2 hi) (List.mem_range.2 hj) hmuxes hk).mono
      (hfirst.trans hrest).holes_before p.contains_alus
  · intro i hi l hl k hk
    have halike := (alus_define halus).1.toAlike
    have hnaming : g₁.namingPlan = g.namingPlan := by
      rw [namingPlan, halike.shape, halike.synthesized]
      rfl
    rw [hplan] at hk
    have hhas := operandMuxes_hasMux hoperands (halike.shape ▸ List.mem_range.2 hi)
      (show l ∈ g₁.namingPlan.units from hnaming ▸ hl) hk
    rw [hnaming, halike.shape] at hhas
    exact hhas.mono hrest.holes_before p.contains_operandMuxes

theorem program_reads (hready : HasAlus g) (h : EndsIn (program r) files g p g') :
    (∃ text, files.readAscii g.statelessFile = .ok text) ∧ ∃ text, files.readAscii g.statefulFile = .ok text := by
  obtain ⟨g₁, g₂, g₃, halus, -⟩ := program_inv h
  obtain ⟨⟨d₁, hd₁⟩, d₂, hd₂, -⟩ := described_of_hasAlus hready halus
  have hread {result : Except Error String} {d : Alu.Description} (hd : describedBy result = some d) :
      ∃ text, result = .ok text := by
    cases result with
    | error e => exact nomatch hd
    | ok text => exact ⟨text, rfl⟩
  exact ⟨hread hd₁, hread hd₂⟩

/-- The layout of sketches for files as they are, whether or not something keeps them from being read. -/
def fileLayout (files : Files) (g : Generator) : Layout where
  shape := g.shape
  synthesized := g.synthesized
  constantBits := g.constantBits
  stateless := .ok ((files.get? (pathName g.statelessFile)).getD "")
  stateful := .ok ((files.get? (pathName g.statefulFile)).getD "")

theorem Alike.fileLayout_eq {files' : Files} (h : Alike g g')
    (hstateless : files'.get? (pathName g.statelessFile) = files.get? (pathName g.statelessFile))
    (hstateful : files'.get? (pathName g.statefulFile) = files.get? (pathName g.statefulFile)) :
    g'.fileLayout files' = g.fileLayout files := by
  rw [fileLayout, h.shape, h.synthesized, h.constantBits, h.statelessFile, h.statefulFile, hstateless, hstateful]
  rfl

theorem readAscii_ok {file : String} (h : files.readAscii file = .ok text) :
    files.content file = .ok text := by
  unfold Files.readAscii at h
  cases hcontent : files.content file with
  | error e =>
    rw [hcontent] at h
    cases h
  | ok found =>
    rw [hcontent] at h
    dsimp only [bind, Except.bind] at h
    split at h
    · cases h
    · exact h

/-- A sketch that is generated has the holes for its files as they are. -/
theorem program_fileLayout (hready : HasAlus g)
    (h : EndsIn (program r) files g p g') : g'.holes = (g.fileLayout files).holes := by
  obtain ⟨⟨text₁, htext₁⟩, text₂, htext₂⟩ := program_reads hready h
  have hsame : g.layout files = g.fileLayout files := by
    rw [layout, fileLayout, htext₁, htext₂, (Files.content_ok (readAscii_ok htext₁)).1,
      (Files.content_ok (readAscii_ok htext₂)).1]
    rfl
  rw [(program_holes hready h).2.1, hsame]

end SwitchSynth.Sketch.Generator
