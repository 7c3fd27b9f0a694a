import SwitchSynth.Proofs.Ends
import SwitchSynth.Proofs.Text
import SwitchSynth.Sketch.Generator

/-!
# What a generator collects

Writing the parts of a sketch adds holes and constraints to its generator. For each part but the ALUs it is said which
ones are added (`Adds`), and nothing else changes. So a hole that was added on the way is among those at the end.
-/

namespace SwitchSynth.Sketch

/-- A control value selects the input of its number, up to the last input. -/
theorem Mux.select_natCast (m : Mux) (v : Nat) : m.select v = min v (m.inputs - 1) := by
  unfold Mux.select Mux.cases Mux.lastInput
  rw [List.find?_map, Option.map_map]
  by_cases hv : v < m.inputs - 1
  · have hfind : (List.range (m.inputs - 1)).find?
        ((fun c : Nat × Nat => (c.1 : Int) == v) ∘ fun i => (i, i)) = some v := by
      rw [List.find?_range_eq_some]
      refine ⟨by simp, by simpa using hv, fun j hj => ?_⟩
      simp only [Function.comp_apply, Bool.not_eq_true', beq_eq_false_iff_ne, ne_eq]
      omega
    rw [hfind]
    simp only [Option.map_some, Function.comp_apply, Option.getD_some]
    omega
  · have hfind : (List.range (m.inputs - 1)).find?
        ((fun c : Nat × Nat => (c.1 : Int) == v) ∘ fun i => (i, i)) = none := by
      rw [List.find?_range_eq_none]
      intro i hi
      simp only [Function.comp_apply, Bool.not_eq_true', beq_eq_false_iff_ne, ne_eq]
      omega
    rw [hfind]
    simp only [Option.map_none, Option.getD_none]
    omega

/-- The number of bits of a hole with some choices. -/
def bitsOf (k : Int) : Nat :=
  (bitWidth k).toOption.getD 0

theorem bitsOf_eq {k : Int} {bits : Nat} (h : bitWidth k = .ok bits) : bitsOf k = bits := by
  rw [bitsOf, h]
  rfl

def controlHole (inputs : Int) (name : String) : Hole :=
  ⟨name ++ "_ctrl", bitsOf inputs⟩

def inOrder (holes : List (String × Int)) : List Hole :=
  (holes.mergeSort fun a b => decide (a.1 ≤ b.1)).map fun h => ⟨h.1, h.2⟩

theorem mem_inOrder {holes : List (String × Int)} {h : Hole} : h ∈ inOrder holes ↔ (h.name, h.width) ∈ holes := by
  simp only [inOrder, List.mem_map, List.mem_mergeSort]
  constructor
  · rintro ⟨_, hmem, rfl⟩
    exact hmem
  · intro hmem
    exact ⟨_, hmem, rfl⟩

def Plan.writerConstraint (p : Plan) (stage container : Nat) : Constraint :=
  .oneWriter (p.statelessName stage container ++ "_demux_ctrl")
    ((upTo p.shape.groups).map fun k =>
      (p.statefulName stage k ++ "_demux_ctrl", Allocation.activeBit p.shape stage k)) container

namespace Generator

variable {files : Files} {g g' g₁ g₂ : Generator} {name text : String} {u : PUnit}

def described (files : Files) (file : String) : Option Alu.Description :=
  match files.readAscii file with
  | .error _ => none
  | .ok text =>
    match Alu.Source.read (Alu.lex text) with
    | .headerOnly _ => none
    | .whole d => some d

theorem described_eq {file : String} {d : Alu.Description}
    (htext : files.readAscii file = .ok text) (hd : Alu.Source.read (Alu.lex text) = .whole d) :
    described files file = some d := by
  unfold described
  rw [htext]
  dsimp only
  rw [hd]

@[simp] theorem endsIn_lift {α : Type} {result : Except Error α} {a : α} :
    EndsIn (lift result) files g a g' ↔ result = .ok a ∧ g' = g := by
  cases result with
  | error e => simp [lift]
  | ok b => simp [lift, eq_comm]

@[simp] theorem endsIn_present {α : Type} {part : Option α} {a : α} :
    EndsIn (present part) files g a g' ↔ part = some a ∧ g' = g := by
  cases part with
  | none => simp [present]
  | some b => simp [present, eq_comm]

/-- A generator of the same sketches: only what was collected may differ. -/
structure Alike (g g' : Generator) : Prop where
  shape : g'.shape = g.shape
  synthesized : g'.synthesized = g.synthesized
  statefulFile : g'.statefulFile = g.statefulFile
  statelessFile : g'.statelessFile = g.statelessFile
  constants : g'.constants = g.constants
  constantBits : g'.constantBits = g.constantBits

theorem alike : Lasting Alike where
  refl _ := ⟨rfl, rfl, rfl, rfl, rfl, rfl⟩
  trans h h' := ⟨h'.shape.trans h.shape, h'.synthesized.trans h.synthesized,
    h'.statefulFile.trans h.statefulFile, h'.statelessFile.trans h.statelessFile,
    h'.constants.trans h.constants, h'.constantBits.trans h.constantBits⟩

/-- Some holes and constraints are added, and nothing else changes. No width is negative. -/
structure Adds (holes : List Hole) (constraints : List Constraint) (g g' : Generator) : Prop where
  eq : g' = { g with holes := g.holes ++ holes, constraints := g.constraints ++ constraints }
  width_nonneg : ∀ h ∈ holes, 0 ≤ h.width

section Adds

variable {hs hs' : List Hole} {cs cs' : List Constraint}

theorem Adds.refl (g : Generator) : Adds [] [] g g :=
  ⟨by simp, List.forall_mem_nil _⟩

theorem Adds.trans (h : Adds hs cs g g₁) (h' : Adds hs' cs' g₁ g₂) : Adds (hs ++ hs') (cs ++ cs') g g₂ := by
  refine ⟨?_, List.forall_mem_append.2 ⟨h.width_nonneg, h'.width_nonneg⟩⟩
  rw [h'.eq, h.eq]
  simp

theorem Adds.alike (h : Adds hs cs g g') : Alike g g' := by
  rw [h.eq]
  exact ⟨rfl, rfl, rfl, rfl, rfl, rfl⟩

theorem adds_forM {γ : Type} {xs : List γ} {f : γ → Generate PUnit} {F : γ → List Hole} {C : γ → List Constraint}
    (hf : ∀ x {s y s'}, EndsIn (f x) files s y s' → Adds (F x) (C x) s s') (h : EndsIn (xs.forM f) files g u g') :
    Adds (xs.flatMap F) (xs.flatMap C) g g' := by
  induction xs generalizing g with
  | nil =>
    rw [(endsIn_pure.1 h).2]
    exact .refl g
  | cons x xs ih =>
    obtain ⟨_, g₁, hfirst, hrest⟩ := endsIn_bind.1 h
    exact (hf x hfirst).trans (ih hrest)

theorem addHole_adds {width : Int} (h : EndsIn (addHole name width) files g u g') : Adds [⟨name, width⟩] [] g g' := by
  unfold addHole at h
  split at h
  · next hwidth =>
    rw [endsIn_modify.1 h]
    exact ⟨by simp, List.forall_mem_singleton.2 hwidth⟩
  · exact absurd h endsIn_throw

theorem addHoles_adds {holes : List (String × Int)} (h : EndsIn (addHoles holes) files g u g') :
    Adds (inOrder holes) [] g g' := by
  have hadds := adds_forM (fun _ _ _ _ h => addHole_adds h) h
  simp only [← List.map_eq_flatMap, List.flatMap_eq_nil_iff.2 fun _ _ => rfl] at hadds
  exact hadds

theorem mux_adds {inputs : Int} (h : EndsIn (mux inputs name) files g text g') :
    1 ≤ inputs ∧ text = (Mux.mk name inputs.toNat).text ∧ Adds [controlHole inputs name] [] g g' := by
  unfold mux at h
  split at h
  · simp at h
  · next hinputs =>
    simp only [endsIn_bind, endsIn_lift, endsIn_pure] at h
    obtain ⟨bits, _, ⟨hbits, rfl⟩, _, _, hadd, rfl, rfl⟩ := h
    rw [controlHole, bitsOf_eq hbits]
    exact ⟨by omega, rfl, addHole_adds hadd⟩

theorem mapM_mux {inputs : Int} {names texts : List String} (h : EndsIn (names.mapM (mux inputs)) files g texts g') :
    texts = names.map (fun n => (Mux.mk n inputs.toNat).text) ∧ (∀ n ∈ names, 1 ≤ inputs) ∧
      Adds (names.map (controlHole inputs)) [] g g' := by
  induction names generalizing g texts with
  | nil =>
    obtain ⟨rfl, rfl⟩ := endsIn_pure.1 h
    exact ⟨rfl, List.forall_mem_nil _, .refl _⟩
  | cons n names ih =>
    rw [List.mapM_cons] at h
    simp only [endsIn_bind, endsIn_pure] at h
    obtain ⟨_, g₁, hfirst, _, _, hrest, rfl, rfl⟩ := h
    obtain ⟨hinputs, rfl, hadds⟩ := mux_adds hfirst
    obtain ⟨rfl, -, hadds'⟩ := ih hrest
    exact ⟨rfl, fun _ _ => hinputs, hadds.trans hadds'⟩

theorem addAllocation_adds {a : Allocation} (h : EndsIn (addAllocation a) files g u g') :
    Adds (a.bits.map fun name => ⟨name, 1⟩) a.constraints g g' :=
  ⟨endsIn_modify.1 h, List.forall_mem_map.2 fun _ _ => Int.one_nonneg⟩

end Adds

/-- The holes that give each container one writer in each stage. -/
def demuxHoles (g : Generator) : List Hole :=
  ((upTo g.shape.stages).flatMap fun i => (upTo g.shape.containers).map fun k => ⟨g.statelessDemux i k, 1⟩) ++
    (upTo g.shape.stages).flatMap fun i => (upTo g.shape.groups).map fun k =>
      ⟨g.statefulDemux i k, bitsOf g.shape.containers⟩

theorem demuxes_adds (h : EndsIn demuxes files g u g') :
    Adds g.demuxHoles ((upTo g.shape.stages).flatMap fun i =>
      (upTo g.shape.containers).map (g.namingPlan.writerConstraint i)) g g' := by
  unfold demuxes at h
  simp only [endsIn_bind, endsIn_get] at h
  obtain ⟨_, g, ⟨rfl, rfl⟩, _, g₁, hstateless, _, g₂, hstateful, hconstraints⟩ := h
  have hfirst := adds_forM (fun i _ _ _ h => adds_forM (fun k _ _ _ h => addHole_adds h) h) hstateless
  have hsecond := adds_forM (fun i _ _ _ h => adds_forM
    (F := fun k => [⟨g.statefulDemux i k, bitsOf g.shape.containers⟩]) (C := fun _ => []) (fun k _ _ _ h => by
      simp only [endsIn_bind, endsIn_lift] at h
      obtain ⟨bits, _, ⟨hbits, rfl⟩, hhole⟩ := h
      rw [bitsOf_eq hbits]
      exact addHole_adds hhole) h) hstateful
  have hthird := adds_forM (fun i _ _ _ h => adds_forM (F := fun _ => [])
    (C := fun j => [g.namingPlan.writerConstraint i j]) (fun j _ _ _ h => by
      rw [endsIn_modify.1 h]
      exact ⟨by simp; rfl, List.forall_mem_nil _⟩) h) hconstraints
  have hadds := (hfirst.trans hsecond).trans hthird
  simp only [← List.map_eq_flatMap, List.flatMap_eq_nil_iff.2 fun _ _ => rfl, List.append_nil] at hadds
  exact hadds

/-- Let holes allocate packet fields and state groups. -/
def allocate : Generate Unit := do
  if (← get).synthesized then
    fieldAllocator
    stateAllocatorSynthesized
  else stateAllocatorCanonical

def allocationConstraints (g : Generator) : List Constraint :=
  if g.synthesized then (Allocation.ofFields g.shape).constraints ++ (Allocation.ofGroups g.shape).constraints
  else (Allocation.canonical g.shape).constraints

theorem allocate_adds (h : EndsIn allocate files g u g') :
    Adds (((if g.synthesized then (Allocation.ofFields g.shape).bits ++ (Allocation.ofGroups g.shape).bits
      else (Allocation.canonical g.shape).bits)).map fun name => ⟨name, 1⟩) g.allocationConstraints g g' := by
  unfold allocate at h
  simp only [endsIn_bind, endsIn_get] at h
  obtain ⟨_, g, ⟨rfl, rfl⟩, h⟩ := h
  unfold allocationConstraints
  split at h
  · next hsynthesized =>
    simp only [fieldAllocator, stateAllocatorSynthesized, endsIn_bind, endsIn_get] at h
    obtain ⟨_, g₁, ⟨_, g, ⟨rfl, rfl⟩, hfields⟩, _, g₁, ⟨rfl, rfl⟩, hgroups⟩ := h
    have hfirst := addAllocation_adds hfields
    have hsecond := addAllocation_adds hgroups
    rw [hfirst.alike.shape] at hsecond
    rw [if_pos hsynthesized, if_pos hsynthesized, List.map_append]
    exact hfirst.trans hsecond
  · next hsynthesized =>
    simp only [stateAllocatorCanonical, endsIn_bind, endsIn_get] at h
    obtain ⟨_, g, ⟨rfl, rfl⟩, h⟩ := h
    rw [if_neg hsynthesized, if_neg hsynthesized]
    exact addAllocation_adds h

/-! ### Multiplexers and ALUs -/

/-- A sketch defines a multiplexer, and a generator has the hole that controls it. -/
def HasMux (g : Generator) (text : String) (m : Mux) : Prop :=
  ∃ width : Nat, bitWidth m.inputs = .ok width ∧ ⟨m.control, width⟩ ∈ g.holes ∧
    Text.Contains text m.text

theorem HasMux.inputs_pos {m : Mux} (h : HasMux g text m) : 1 ≤ m.inputs := by
  obtain ⟨width, hwidth, -⟩ := h
  cases hm : m.inputs with
  | zero => rw [hm] at hwidth; exact nomatch hwidth
  | succ n => omega

theorem HasMux.mono {text' : String} {m : Mux} (h : HasMux g text m)
    (hholes : g.holes <+: g'.holes) (htext : Text.Contains text' text) : HasMux g' text' m := by
  obtain ⟨width, hwidth, hmem, hcontains⟩ := h
  exact ⟨width, hwidth, hholes.subset hmem, htext.trans hcontains⟩

theorem declare_eq {operands : List String} {widths : StatelessAlu.Widths} {source : Alu.Source} {alu : StatelessAlu}
    (h : StatelessAlu.declare name operands widths source = .ok alu) :
    ∃ d, source = .whole d ∧ alu = ⟨name, operands, widths, d.holeVars, d.packetFields, d.body⟩ := by
  unfold StatelessAlu.declare at h
  cases hindicator : StatelessAlu.checkIndicator source.indicator with
  | error e => rw [hindicator] at h; exact nomatch h
  | ok u =>
    rw [hindicator] at h
    cases source with
    | headerOnly indicator => exact nomatch h
    | whole d =>
      refine ⟨d, rfl, ?_⟩
      change (do
        let _ ← (StatelessAlu.holeParameters [] d.holeVars).toExcept
        return ⟨name, operands, widths, d.holeVars, d.packetFields, d.body⟩) = Except.ok alu at h
      cases hholes : (StatelessAlu.holeParameters [] d.holeVars).toExcept with
      | error e => rw [hholes] at h; exact nomatch h
      | ok s =>
        rw [hholes] at h
        cases h
        rfl

def stageAlus (g : Generator) (i : Nat) : Generate String := do
  let stateless ← writeAll (upTo g.shape.alus) fun j =>
    statelessAlu ("stateless_alu_" ++ toString i ++ "_" ++ toString j)
      ((upTo g.shape.containers).map Mux.input)
  let stateful ← writeAll g.units fun l =>
    statefulAlu ("stateful_alu_" ++ toString i ++ "_" ++ toString l)
  return stateless ++ stateful

theorem alus_eq : alus = do
    let g ← get
    let stages ← (upTo g.shape.stages).mapM (stageAlus g)
    return String.join stages := rfl

end Generator

theorem Program.contains_definitions (p : Program) : Text.Contains p.text p.definitionsText := by
  unfold Program.text
  iterate 7 refine .append_left ?_
  exact .append_right (.refl _)

theorem Program.contains_operandMuxes (p : Program) : Text.Contains p.text p.operandMuxes := by
  refine p.contains_definitions.trans ?_
  unfold Program.definitionsText
  iterate 6 refine .append_left ?_
  exact .append_right (.refl _)

theorem Program.contains_alus (p : Program) : Text.Contains p.text p.alus :=
  p.contains_definitions.trans (.append_right (.refl _))

namespace Generator

/-! ### The parts of a sketch -/

/-- A generator that has forgotten its holes and constraints. -/
def emptied (g : Generator) : Generator :=
  { g with holes := [], constraints := [] }

def collectBehind (specFile : String) (synthesized : Bool) (alus : String) : Generate (Program × Generator) := do
  let operandMuxes ← operandMuxes
  let outputMuxes ← outputMuxes
  allocate
  let g ← get
  let statelessMuxes ← present g.statelessMuxes
  let spec ← lift ((← read).readText specFile)
  let statefulHoles ← present g.statefulHoles
  return ({
    plan := ⟨g.shape, synthesized, statelessMuxes, statefulHoles, g.operands, g.slots⟩
    specFile := specFile
    spec := spec
    holeBlock := ""
    operandMuxes := operandMuxes
    outputMuxes := outputMuxes
    alus := alus
    extraConstraints := []
    constraints := g.constraints
    testcases := "" }, g)

/-- What a sketch is made of, whatever is asked of it beyond its program and its allocation. -/
def collect (specFile : String) (synthesized : Bool) : Generate (Program × Generator) := do
  collectBehind specFile synthesized (← alus)

/-- What is asked of a sketch, put between its parts. -/
def Request.fill (r : Request) (parts : Program × Generator) : Program :=
  { parts.1 with
    holeBlock := parts.2.holeBlock r
    extraConstraints := r.extraConstraints
    testcases := r.testcases }

theorem program_eq (r : Request) : program r = do
    reset
    if r.mode = .solveVerify then throw (.check .modeWithoutSketch)
    let parts ← collect r.specFile r.synthesized
    return r.fill parts := by
  unfold program collect collectBehind allocate
  congr 1
  funext _
  split
  · rfl
  · simp only [bind_assoc, pure_bind, Request.fill]
    congr 1; funext a
    congr 1; funext b
    congr 1; funext c
    congr 1; funext d
    split
    · simp only [bind_assoc]
    · rfl

variable {files : Files} {g g' : Generator}

/-- The parts of a sketch are written one after the other, and what is asked for is put between them. -/
theorem program_inv {r : Request} {p : Program} (h : EndsIn (program r) files g p g') :
    ∃ g₁ g₂ g₃, EndsIn alus files g.emptied p.alus g₁ ∧ EndsIn operandMuxes files g₁ p.operandMuxes g₂ ∧
      EndsIn outputMuxes files g₂ p.outputMuxes g₃ ∧ EndsIn allocate files g₃ () g' ∧
      g'.statelessMuxes = some p.plan.statelessMuxes ∧ g'.statefulHoles = some p.plan.statefulHoles ∧
      files.readText r.specFile = .ok p.spec ∧
      p = {
        plan := ⟨g'.shape, r.synthesized, p.plan.statelessMuxes, p.plan.statefulHoles, g'.operands, g'.slots⟩
        specFile := r.specFile
        spec := p.spec
        holeBlock := g'.holeBlock r
        operandMuxes := p.operandMuxes
        outputMuxes := p.outputMuxes
        alus := p.alus
        extraConstraints := r.extraConstraints
        constraints := g'.constraints
        testcases := r.testcases } := by
  rw [program_eq, endsIn_bind] at h
  obtain ⟨_, _, hreset, h⟩ := h
  rw [endsIn_modify.1 hreset] at h
  split at h
  · simp at h
  · simp only [collect, collectBehind, endsIn_bind, endsIn_get, endsIn_read, endsIn_lift, endsIn_present,
      endsIn_pure] at h
    obtain ⟨_, _, ⟨alus, g₁, halus, operandMuxes, g₂, hoperands, outputMuxes, g₃, houtputs, _, g₄, hallocate, _, g₄,
      ⟨rfl, rfl⟩, muxes, g₄, ⟨hmuxes, rfl⟩, files, g₄, ⟨rfl, rfl⟩, spec, g₄, ⟨hspec, rfl⟩, holes, g₄, ⟨hholes, rfl⟩,
      rfl, rfl⟩, rfl, rfl⟩ := h
    exact ⟨g₁, g₂, g₃, halus, hoperands, houtputs, hallocate, hmuxes, hholes, hspec, rfl⟩

end Generator

end SwitchSynth.Sketch
