import Mathlib.Data.List.Dedup
import SwitchSynth.Proofs.Sketch.Holes

/-!
# Sketches do not depend on earlier ones

A generator collects holes, constraints and the sizes of its ALUs while it writes a sketch, and what it has collected
is still there when the next sketch is asked for. Holes and constraints are forgotten at the start of a sketch. The
sizes are not, but where ALUs are written their sizes are set anew, and where none are written they have never been
set (`Untouched`). So a sketch is what it would be if it were the first one. In particular the sketch that checks
values for the holes is the sketch that they were found with, except for the block that declares the holes.
-/

namespace SwitchSynth.Sketch

def Program.behindHoles (p : Program) : String :=
  "\n\n// Definitions of muxes and ALUs of the router\n" ++ p.definitionsText ++ "\n" ++ p.recordsText ++
    "// Specification\n" ++ p.spec ++ "\n\n// Implementation\n" ++ p.pipelineText ++ p.harnessText

theorem Program.text_eq (p : Program) : p.text = p.titleText ++ p.holeBlock ++ p.behindHoles := by
  unfold Program.text Program.behindHoles
  simp only [String.append_assoc]

namespace Generator

variable {files : Files} {g g' g₀ : Generator} {R : Generator → Generator → Prop} {name text : String}

theorem Alike.symm (h : Alike g g') : Alike g' g :=
  ⟨h.shape.symm, h.synthesized.symm, h.statefulFile.symm, h.statelessFile.symm, h.constants.symm,
    h.constantBits.symm⟩

/-- Generators of the same sketches that have collected the same holes and constraints. -/
structure Near (g g' : Generator) : Prop extends Alike g g' where
  holes : g'.holes = g.holes
  constraints : g'.constraints = g.constraints

/-- Where no stateful ALU is written no operand is known, and where no stateless one is written no multiplexer. -/
structure Untouched (g : Generator) : Prop where
  operands : upTo g.shape.stages = [] ∨ g.units = [] → g.operands = 0
  muxes : upTo g.shape.stages = [] ∨ upTo g.shape.alus = [] → g.statelessMuxes = none

theorem Untouched.emptied (h : Untouched g) : Untouched g.emptied :=
  ⟨h.operands, h.muxes⟩

/-- Pairs of generators that stay together when the same is collected in both. -/
def Collecting (R : Generator → Generator → Prop) : Prop :=
  ∀ {g g' : Generator} (hs : List Hole) (cs : List Constraint), R g g' →
    R { g with holes := g.holes ++ hs, constraints := g.constraints ++ cs }
      { g' with holes := g'.holes ++ hs, constraints := g'.constraints ++ cs }

theorem lift_steady {α : Type} (result : Except Error α) : Steady R ((lift result).run files) := by
  cases result with
  | error e => exact steady_throw e
  | ok a => exact steady_pure a

theorem writeAll_steady {γ : Type} (jobs : List γ) {write : γ → Generate String}
    (hwrite : ∀ x ∈ jobs, Steady R ((write x).run files)) : Steady R ((writeAll jobs write).run files) :=
  (steady_mapMIn _ hwrite).bindIn fun _ => steady_pure _

section Collecting

variable (hR : Collecting R)

include hR

theorem addHole_steady (name : String) (width : Int) : Steady R ((addHole name width).run files) := by
  unfold addHole
  split
  · exact steady_modify fun g g' h => by simpa using hR [⟨name, width⟩] [] h
  · exact steady_throw _

theorem addHoles_steady (holes : List (String × Int)) : Steady R ((addHoles holes).run files) :=
  steady_forMIn _ fun _ => addHole_steady hR _ _

theorem mux_steady (inputs : Int) (name : String) : Steady R ((mux inputs name).run files) :=
  steady_check ((lift_steady _).bindIn fun _ => (addHole_steady hR _ _).bindIn fun _ => steady_pure _)

end Collecting

/-! ### ALUs -/

/-- Generators that write the same, with what an earlier sketch may have left in them. -/
structure Along (g₀ g g' : Generator) : Prop extends Near g g' where
  alike : Alike g₀ g
  left : Untouched g
  right : Untouched g'

theorem along_modify {f : Generator → Generator} (halike : ∀ g, Alike g (f g))
    (hholes : ∀ g g' : Generator, g'.holes = g.holes → (f g').holes = (f g).holes)
    (hconstraints : ∀ g g' : Generator, g'.constraints = g.constraints → (f g').constraints = (f g).constraints)
    (huntouched : ∀ g, Alike g₀ g → Untouched g → Untouched (f g)) :
    Steady (Along g₀) (modify f : Computation Generator PUnit) :=
  steady_modify fun g g' h =>
    ⟨⟨alike.trans (alike.trans (halike g).symm h.toAlike) (halike g'), hholes _ _ h.holes,
      hconstraints _ _ h.constraints⟩, alike.trans h.alike (halike g), huntouched g h.alike h.left,
      huntouched g' (alike.trans h.alike h.toAlike) h.right⟩

theorem along_collecting (g₀ : Generator) : Collecting (Along g₀) := fun hs cs h =>
  (along_modify (f := fun g => { g with holes := g.holes ++ hs, constraints := g.constraints ++ cs })
    (fun _ => ⟨rfl, rfl, rfl, rfl, rfl, rfl⟩) (fun _ _ h => congrArg (· ++ hs) h) (fun _ _ h => congrArg (· ++ cs) h)
    (fun _ _ h => ⟨h.operands, h.muxes⟩) _ _ h).2

theorem statelessAlu_steady (hstages : upTo g₀.shape.stages ≠ []) (halus : upTo g₀.shape.alus ≠ []) (name : String)
    (operands : List String) : Steady (Along g₀) ((statelessAlu name operands).run files) := by
  refine steady_get_bind (fun g g' h => ?_) fun g _ _ => ?_
  · simp only [h.shape, h.statelessFile, h.constantBits]
  · refine Steady.bindIn (steady_pure files) fun _ => (lift_steady _).bindIn fun text => ?_
    refine (lift_steady _).bindIn fun bits => (lift_steady _).bindIn fun alu => ?_
    refine (steady_mapMIn _ fun m _ => mux_steady (along_collecting g₀) _ m).bindIn fun muxes => ?_
    refine (lift_steady _).bindIn fun main => (addHoles_steady (along_collecting g₀) _).bindIn fun _ => ?_
    refine Steady.bindIn (along_modify (fun _ => ⟨rfl, rfl, rfl, rfl, rfl, rfl⟩)
      (fun _ _ h => h) (fun _ _ h => h) fun g halike huntouched => ⟨huntouched.operands, fun hnone => ?_⟩)
      fun _ => steady_pure _
    rw [halike.shape] at hnone
    exact (hnone.elim hstages halus).elim

theorem statefulAlu_steady (hstages : upTo g₀.shape.stages ≠ []) (hunits : g₀.units ≠ []) (name : String) :
    Steady (Along g₀) ((statefulAlu name).run files) := by
  refine steady_get_bind (fun g g' h => ?_) fun g _ _ => ?_
  · simp only [h.shape, h.statefulFile, h.constantBits]
  · refine Steady.bindIn (steady_pure files) fun _ => (lift_steady _).bindIn fun text => ?_
    refine (lift_steady _).bindIn fun alu => (lift_steady _).bindIn fun main => ?_
    refine (addHoles_steady (along_collecting g₀) _).bindIn fun _ => ?_
    refine Steady.bindIn (along_modify (fun _ => ⟨rfl, rfl, rfl, rfl, rfl, rfl⟩)
      (fun _ _ h => h) (fun _ _ h => h) fun g halike huntouched => ⟨fun hnone => ?_, huntouched.muxes⟩)
      fun _ => steady_pure _
    change upTo g.shape.stages = [] ∨ g.units = [] at hnone
    rw [halike.shape, halike.units_eq] at hnone
    exact (hnone.elim hstages hunits).elim

theorem stageAlus_steady (hstages : upTo g.shape.stages ≠ []) (halike : Alike g₀ g) (i : Nat) :
    Steady (Along g₀) ((stageAlus g i).run files) := by
  rw [halike.shape] at hstages
  refine (writeAll_steady _ fun j hj => statelessAlu_steady hstages ?_ _ _).bindIn fun _ =>
    (writeAll_steady _ fun l hl => statefulAlu_steady hstages ?_ _).bindIn fun _ => steady_pure _
  · exact halike.shape ▸ List.ne_nil_of_mem hj
  · exact halike.units_eq ▸ List.ne_nil_of_mem hl

theorem alus_steady (files : Files) (g₀ : Generator) : Steady (Along g₀) (alus.run files) := by
  rw [alus_eq]
  refine steady_get_bind (fun g g' h => ?_) fun g _ h => ?_
  · have hstage : stageAlus g' = stageAlus g := by
      unfold stageAlus Generator.units namingPlan
      rw [h.shape, h.synthesized]
    rw [h.shape, hstage]
  · exact (steady_mapMIn _ fun i hi => stageAlus_steady (List.ne_nil_of_mem hi) h.alike i).bindIn
      fun _ => steady_pure _

theorem Untouched.along (h : Untouched g) : Along g g g :=
  ⟨⟨alike.refl g, rfl, rfl⟩, alike.refl g, h, h⟩

/-- A generator writes a sketch only if it has ALUs of both kinds, whatever it was asked for before: without them there
is no operand, or no multiplexer is known. -/
theorem Untouched.hasAlus {r : Request} {p : Program} (hg : Untouched g) (h : EndsIn (program r) files g p g') :
    HasAlus g := by
  obtain ⟨g₁, _, _, halus, hoperandMuxes, -, -, hstateless, -⟩ := program_plan h
  obtain ⟨-, halong⟩ := alus_steady files g.emptied _ _ hg.emptied.along
  rw [show (alus.run files).run.run g.emptied = _ from halus] at halong
  have halike : Alike g g₁ := alike.trans (emptied_alike g) halong.alike
  have hne : g₁.operands ≠ 0 := (operandMuxes_define hoperandMuxes).1
  refine ⟨fun hnil => hne (halong.left.operands (.inl (halike.shape ▸ hnil))), fun hnil => ?_,
    fun hnil => hne (halong.left.operands (.inr (halike.units_eq ▸ hnil)))⟩
  cases hstateless.symm.trans (halong.left.muxes (.inr (halike.shape ▸ hnil)))

theorem Ready.hasAlus {r : Request} {p : Program} (hready : Ready g) (h : EndsIn (program r) files g p g') :
    HasAlus g := by
  rcases hready with ⟨hoperands, hmuxes⟩ | halus
  · exact Untouched.hasAlus ⟨fun _ => hoperands, fun _ => hmuxes⟩ h
  · exact halus

theorem SizedBy.eq_of_near {d : Alu.Description} (h : SizedBy d g) (h' : SizedBy d g') (hnear : Near g g')
    (hmuxes : g'.statelessMuxes = g.statelessMuxes) : g' = g := by
  obtain ⟨⟨hshape, hsynthesized, hstateful, hstateless, hconstants, hbits⟩, hholes, hconstraints⟩ := hnear
  have hsizes := h'.holes.trans h.holes.symm
  have hoperands := h'.operands.trans h.operands.symm
  have hslots := h'.slots.trans h.slots.symm
  cases g
  cases g'
  cases hshape
  cases hsynthesized
  cases hstateful
  cases hstateless
  cases hconstants
  cases hbits
  cases hholes
  cases hconstraints
  cases hmuxes
  cases hsizes
  cases hoperands
  cases hslots
  rfl

/-- Behind the ALUs nothing is left of earlier sketches, or there is no operand. -/
theorem alus_settle {text' : String} {g₁ g₁' : Generator} (hnear : Near g g') (h : EndsIn alus files g text g₁)
    (h' : EndsIn alus files g' text' g₁') (halong : Along g g₁ g₁') :
    g₁' = g₁ ∨ g₁.operands = 0 ∧ g₁'.operands = 0 := by
  have hshape : g₁'.shape = g.shape := halong.shape.trans halong.alike.shape
  by_cases hnone : upTo g.shape.stages = [] ∨ g.units = []
  · exact .inr ⟨halong.left.operands (by rwa [halong.alike.shape, halong.alike.units_eq]),
      halong.right.operands (by rwa [hshape, halong.units_eq, halong.alike.units_eq])⟩
  · obtain ⟨hstages, hunits⟩ := not_or.1 hnone
    obtain ⟨d, hd, hsized, -⟩ := alus_sizes hstages hunits h
    obtain ⟨d', hd', hsized', -⟩ := alus_sizes (hnear.shape ▸ hstages) (hnear.units_eq ▸ hunits) h'
    rw [hnear.statefulFile] at hd'
    obtain rfl : d = d' := Option.some.inj (hd.symm.trans hd')
    refine .inl (hsized.eq_of_near hsized' halong.toNear ?_)
    by_cases halus : upTo g.shape.alus = []
    · rw [halong.left.muxes (.inr (halong.alike.shape ▸ halus)), halong.right.muxes (.inr (hshape ▸ halus))]
    · obtain ⟨d₁, hd₁, hmuxes, -⟩ := alus_muxes hstages halus h
      obtain ⟨d₂, hd₂, hmuxes', -⟩ := alus_muxes (hnear.shape ▸ hstages) (hnear.shape ▸ halus) h'
      rw [hnear.statelessFile] at hd₂
      obtain rfl : d₁ = d₂ := Option.some.inj (hd₁.symm.trans hd₂)
      rw [hmuxes, hmuxes']

/-! ### The parts of a sketch -/

/-- One generator, with a property that collecting keeps. -/
def Same (P : Generator → Prop) (g g' : Generator) : Prop :=
  g' = g ∧ P g

section Same

variable {P : Generator → Prop}

theorem steady_same_get_bind {α : Type} {f : Generator → Generate α} (hf : ∀ g, Steady (Same P) ((f g).run files)) :
    Steady (Same P) ((get >>= f : Generate α).run files) :=
  steady_get_bind (fun _ _ h => by rw [h.1]) fun g _ _ => hf g

variable (hR : Collecting (Same P))

include hR

theorem operandMuxes_steady : Steady (Same P) (operandMuxes.run files) :=
  steady_same_get_bind fun _ => steady_check (writeAll_steady _ fun _ _ => mux_steady hR _ _)

theorem outputMuxes_steady : Steady (Same P) (outputMuxes.run files) := by
  refine steady_same_get_bind fun g => ?_
  have hdemuxes : Steady (Same P) (demuxes.run files) := by
    refine steady_same_get_bind fun g => Steady.bindIn ?_ fun _ => Steady.bindIn ?_ fun _ => ?_
    · exact steady_forMIn _ fun i => steady_forMIn _ fun k => addHole_steady hR _ _
    · refine steady_forMIn _ fun i => steady_forMIn _ fun k => ?_
      exact (lift_steady _).bindIn fun _ => addHole_steady hR _ _
    · exact steady_forMIn _ fun i => steady_forMIn _ fun k => steady_modify fun g g' h => by simpa using hR [] [_] h
  split
  · exact hdemuxes.bindIn fun _ => steady_pure _
  · exact writeAll_steady _ fun _ _ => mux_steady hR _ _

theorem allocate_steady : Steady (Same P) (allocate.run files) := by
  have hadd (a : Shape → Allocation) : Steady (Same P) (ReaderT.run (do addAllocation (a (← get).shape)) files) :=
    steady_same_get_bind fun _ => steady_modify fun _ _ h => hR _ _ h
  refine steady_same_get_bind fun g => ?_
  split
  · exact (hadd _).bindIn fun _ => hadd _
  · exact hadd _

theorem collectBehind_steady (specFile : String) (synthesized : Bool) (alus : String) :
    Steady (Same P) ((collectBehind specFile synthesized alus).run files) := by
  have hpresent {α : Type} (part : Option α) : Steady (Same P) ((present part).run files) := by
    cases part with
    | none => exact steady_throw _
    | some a => exact steady_pure a
  refine (operandMuxes_steady hR).bindIn fun _ => (outputMuxes_steady hR).bindIn fun _ => ?_
  refine (allocate_steady hR).bindIn fun _ => steady_same_get_bind fun g => ?_
  refine (hpresent _).bindIn fun _ => Steady.bindIn (steady_pure files) fun _ => ?_
  exact (lift_steady _).bindIn fun _ => (hpresent _).bindIn fun _ => steady_pure _

end Same

theorem operandMuxes_stops (hoperands : g.operands = 0) : StopsIn operandMuxes files g (.check .noOperand) g := by
  simp only [operandMuxes, stopsIn_bind, stopsIn_get, endsIn_get, false_or]
  refine ⟨g, g, ⟨rfl, rfl⟩, ?_⟩
  rw [if_pos hoperands]
  exact stopsIn_bind.2 (.inl (stopsIn_throw.2 ⟨rfl, rfl⟩))

variable {synthesized : Bool} {r : Request} {specFile : String}

theorem collect_snd {parts : Program × Generator}
    (h : EndsIn (collect specFile synthesized) files g parts g') : parts.2 = g' := by
  simp only [collect, collectBehind, endsIn_bind, endsIn_get, endsIn_read, endsIn_lift, endsIn_present,
    endsIn_pure] at h
  obtain ⟨_, _, -, _, _, -, _, _, -, _, _, -, _, _, ⟨rfl, rfl⟩, _, _, ⟨-, rfl⟩, _, _, ⟨rfl, rfl⟩, _, _, ⟨-, rfl⟩, _, _,
    ⟨-, rfl⟩, rfl, rfl⟩ := h
  rfl

theorem run_collect_of_endsIn (h : EndsIn alus files g text g') :
    ((collect specFile synthesized).run files).run.run g =
      ((collectBehind specFile synthesized text).run files).run.run g' :=
  Ends.run_bind h

theorem run_collect_of_stopsIn {e : Error} (h : StopsIn alus files g e g') :
    ((collect specFile synthesized).run files).run.run g = (.error e, g') :=
  Stops.run_bind h

theorem run_collectBehind (hoperands : g.operands = 0) :
    ((collectBehind specFile synthesized text).run files).run.run g = (.error (.check .noOperand), g) :=
  Stops.run_bind (operandMuxes_stops hoperands)

theorem collect_steady (files : Files) (specFile : String) (synthesized : Bool) (hg : Untouched g)
    (hg' : Untouched g') (hnear : Near g g') :
    (((collect specFile synthesized).run files).run.run g).1 =
        (((collect specFile synthesized).run files).run.run g').1 ∧
      Along g (((collect specFile synthesized).run files).run.run g).2
        (((collect specFile synthesized).run files).run.run g').2 := by
  obtain ⟨hresult, halong⟩ := alus_steady files g g g' ⟨hnear, alike.refl g, hg, hg'⟩
  rcases ends_or_stops (alus.run files) g with ⟨text, g₁, h⟩ | ⟨e, g₁, h⟩
  · rw [show (alus.run files).run.run g = _ from h] at hresult halong
    have h' : EndsIn alus files g' text ((alus.run files).run.run g').2 := Prod.ext hresult.symm rfl
    rw [run_collect_of_endsIn h, run_collect_of_endsIn h']
    rcases alus_settle hnear h h' halong with hsame | ⟨hnone, hnone'⟩
    · have hR : Collecting (Same fun s => Along g s s) := fun hs cs h => by
        rw [h.1]
        exact ⟨rfl, along_collecting g hs cs h.2⟩
      rw [hsame] at halong ⊢
      exact ⟨rfl, (collectBehind_steady hR specFile synthesized text _ _ ⟨rfl, halong⟩).2.2⟩
    · rw [run_collectBehind hnone, run_collectBehind hnone']
      exact ⟨rfl, halong⟩
  · rw [show (alus.run files).run.run g = _ from h] at hresult halong
    have h' : StopsIn alus files g' e ((alus.run files).run.run g').2 := Prod.ext hresult.symm rfl
    rw [run_collect_of_stopsIn h, run_collect_of_stopsIn h']
    exact ⟨rfl, halong⟩

/-! ### Requests one after the other -/

theorem Alike.emptied_near (h : Alike g g') : Near g.emptied g'.emptied :=
  ⟨⟨h.shape, h.synthesized, h.statefulFile, h.statelessFile, h.constants, h.constantBits⟩, rfl, rfl⟩

def attempt (files : Files) (g : Generator) (r : Request) : Except Error String × Generator :=
  ((sketch r).run files).run.run g

def after (files : Files) (g : Generator) (earlier : List Request) : Generator :=
  earlier.foldl (fun g r => (attempt files g r).2) g

theorem attempt_solveVerify (hmode : r.mode = .solveVerify) :
    attempt files g r = (.error (.check .modeWithoutSketch), g.emptied) := by
  have hprogram : StopsIn (program r) files g (.check .modeWithoutSketch) g.emptied := by
    rw [program_eq, if_pos hmode]
    refine stopsIn_bind.2 (.inr ⟨PUnit.unit, g.emptied, endsIn_modify.2 rfl, ?_⟩)
    exact stopsIn_bind.2 (.inl (stopsIn_throw.2 ⟨rfl, rfl⟩))
  exact Stops.run_bind hprogram

theorem attempt_eq (hmode : r.mode ≠ .solveVerify) :
    attempt files g r =
      ((((collect r.specFile r.synthesized).run files).run.run g.emptied).1.map fun parts => (r.fill parts).text,
        (((collect r.specFile r.synthesized).run files).run.run g.emptied).2) := by
  have hreset : EndsIn reset files g PUnit.unit g.emptied := endsIn_modify.2 rfl
  rcases ends_or_stops ((collect r.specFile r.synthesized).run files) g.emptied with ⟨parts, g₁, h⟩ | ⟨e, g₁, h⟩
  · rw [show ((collect r.specFile r.synthesized).run files).run.run g.emptied = _ from h]
    have hprogram : EndsIn (program r) files g (r.fill parts) g₁ := by
      rw [program_eq, if_neg hmode]
      exact endsIn_bind.2 ⟨_, _, hreset, endsIn_bind.2 ⟨parts, g₁, h, endsIn_pure.2 ⟨rfl, rfl⟩⟩⟩
    exact Ends.run_bind hprogram
  · rw [show ((collect r.specFile r.synthesized).run files).run.run g.emptied = _ from h]
    have hprogram : StopsIn (program r) files g e g₁ := by
      rw [program_eq, if_neg hmode]
      exact stopsIn_bind.2 (.inr ⟨_, _, hreset, stopsIn_bind.2 (.inl h)⟩)
    exact Stops.run_bind hprogram

/-- What is left of earlier sketches makes no difference to an attempt. -/
theorem attempt_steady (files : Files) (r : Request) (hg : Untouched g) (hg' : Untouched g') (halike : Alike g g') :
    (attempt files g r).1 = (attempt files g' r).1 ∧ Along g (attempt files g r).2 (attempt files g' r).2 := by
  have hemptied := emptied_alike g
  by_cases hmode : r.mode = .solveVerify
  · rw [attempt_solveVerify hmode, attempt_solveVerify hmode]
    exact ⟨rfl, halike.emptied_near, hemptied, hg.emptied, hg'.emptied⟩
  · obtain ⟨hresult, halong⟩ := collect_steady files r.specFile r.synthesized hg.emptied hg'.emptied
      halike.emptied_near
    rw [attempt_eq hmode, attempt_eq hmode, hresult]
    exact ⟨rfl, halong.toNear, alike.trans hemptied halong.alike, halong.left, halong.right⟩

theorem after_along (files : Files) (earlier : List Request) (hg : Untouched g) :
    Alike g (after files g earlier) ∧ Untouched (after files g earlier) := by
  induction earlier generalizing g with
  | nil => exact ⟨alike.refl g, hg⟩
  | cons r earlier ih =>
    obtain ⟨-, halong⟩ := attempt_steady files r hg hg (alike.refl g)
    obtain ⟨halike, huntouched⟩ := ih halong.left
    exact ⟨alike.trans halong.alike halike, huntouched⟩

/-- The generators that there are: one is created, and then sketches are asked for and constants are replaced. -/
inductive Arises : Generator → Prop where
  | created {shape : Shape} {synthesized : Bool} {statefulFile statelessFile : String} {constants : List String}
    {g : Generator} : create shape synthesized statefulFile statelessFile constants = .ok g → Arises g
  | sketched {g : Generator} (files : Files) (r : Request) : Arises g → Arises (attempt files g r).2
  | updated {g : Generator} (files : Files) (values : List String) :
    Arises g → Arises (((updateConstants values).run files).run.run g).2

theorem create_untouched {shape : Shape} {statefulFile statelessFile : String}
    {constants : List String} (h : create shape synthesized statefulFile statelessFile constants = .ok g) :
    Untouched g := by
  unfold create at h
  cases hbits : bitWidth constants.length with
  | error e =>
    rw [hbits] at h
    exact nomatch h
  | ok bits =>
    rw [hbits] at h
    cases h
    exact ⟨fun _ => rfl, fun _ => rfl⟩

theorem updateConstants_untouched (values : List String) :
    Moves (fun g g' => Untouched g → Untouched g') ((updateConstants values).run files) := by
  have hR : Lasting fun g g' : Generator => Untouched g → Untouched g' := ⟨fun _ h => h, fun h h' hg => h' (h hg)⟩
  refine hR.bindIn (moves_modify fun g hg => ⟨hg.operands, hg.muxes⟩) fun _ => ?_
  split
  · exact moves_modify fun g hg => ⟨hg.operands, hg.muxes⟩
  · exact hR.throw _

theorem Arises.untouched (h : Arises g) : Untouched g := by
  induction h with
  | created hcreate => exact create_untouched hcreate
  | sketched files r _ ih => exact (attempt_steady files r ih ih (alike.refl _)).2.left
  | updated files values _ ih => exact updateConstants_untouched values _ ih

/-- What becomes of a generator that is asked for sketches and given other constants. -/
inductive Becomes (g : Generator) : Generator → Prop where
  | same : Becomes g g
  | sketched {g' : Generator} (files : Files) (r : Request) : Becomes g g' → Becomes g (attempt files g' r).2
  | updated {g' : Generator} (files : Files) (values : List String) :
    Becomes g g' → Becomes g (((updateConstants values).run files).run.run g').2

theorem Becomes.arises (h : Becomes g g') (hg : Arises g) : Arises g' := by
  induction h with
  | same => exact hg
  | sketched files r _ ih => exact .sketched files r ih
  | updated files values _ ih => exact .updated files values ih

/-- Two generators write for the same pipeline, with ALUs from the same files. -/
structure SamePipeline (g g' : Generator) : Prop where
  shape : g'.shape = g.shape
  synthesized : g'.synthesized = g.synthesized
  statefulFile : g'.statefulFile = g.statefulFile
  statelessFile : g'.statelessFile = g.statelessFile

theorem samePipeline : Lasting SamePipeline where
  refl _ := ⟨rfl, rfl, rfl, rfl⟩
  trans h h' := ⟨h'.1.trans h.1, h'.2.trans h.2, h'.3.trans h.3, h'.4.trans h.4⟩

theorem updateConstants_samePipeline (values : List String) :
    Moves SamePipeline ((updateConstants values).run files) := by
  refine samePipeline.bindIn (moves_modify fun g => ⟨rfl, rfl, rfl, rfl⟩) fun _ => ?_
  split
  · exact moves_modify fun g => ⟨rfl, rfl, rfl, rfl⟩
  · exact samePipeline.throw _

theorem Becomes.samePipeline (h : Becomes g g') (hg : Arises g) : SamePipeline g g' := by
  induction h with
  | same => exact Generator.samePipeline.refl g
  | sketched files r h ih =>
    have huntouched := (h.arises hg).untouched
    have halike := (attempt_steady files r huntouched huntouched (alike.refl _)).2.alike
    exact Generator.samePipeline.trans ih
      ⟨halike.shape, halike.synthesized, halike.statefulFile, halike.statelessFile⟩
  | updated files values _ ih => exact Generator.samePipeline.trans ih (updateConstants_samePipeline values _)

theorem attempt_after (hg : Untouched g) (files : Files) (earlier : List Request) (r : Request) :
    (attempt files (after files g earlier) r).1 = (attempt files g r).1 ∧
      Near (attempt files (after files g earlier) r).2 (attempt files g r).2 := by
  obtain ⟨halike, huntouched⟩ := after_along files earlier hg
  obtain ⟨hresult, halong⟩ := attempt_steady files r huntouched hg halike.symm
  exact ⟨hresult, halong.toNear⟩

/-- What a generator shows of the sketch it has written. -/
structure Record where
  holeNames : List String
  bits : Int
  assertions : String
  constraints : List String

def record (g : Generator) : Record :=
  ⟨g.holes.map Hole.name, g.totalBits, g.assertions, g.constraints.map Constraint.text⟩

theorem record_holeNames (g : Generator) : g.record.holeNames = g.holes.map Hole.name := rfl

theorem Near.record_eq (h : Near g g') : g'.record = g.record := by
  unfold record totalBits assertions
  rw [h.holes, h.constraints]

def Request.find (specFile : String) (synthesized : Bool) : Request :=
  { specFile := specFile, mode := .codegen, synthesized := synthesized }

/-- The request for a sketch that checks values of the holes, which are named one after the other. -/
def Request.check (specFile : String) (synthesized : Bool) (names : List String) (value : String → String) : Request :=
  { specFile := specFile
    mode := .verify
    synthesized := synthesized
    values := names.map fun name => (name, value name) }

/-- From one generator, both requests collect the same and fill it in differently in one block. -/
theorem attempt_check (files : Files) (hg : Untouched g) (specFile : String) (synthesized : Bool) (names : List String)
    (value : String → String) :
    (attempt files g (.check specFile synthesized names value)).2 = (attempt files g (.find specFile synthesized)).2 ∧
    ((∃ e, (attempt files g (.find specFile synthesized)).1 = .error e ∧
        (attempt files g (.check specFile synthesized names value)).1 = .error e) ∨
      ∃ before behind,
        (attempt files g (.find specFile synthesized)).1 = .ok (before ++
          (g.constants.text ++ (attempt files g (.find specFile synthesized)).2.preamble) ++ behind) ∧
        (attempt files g (.check specFile synthesized names value)).1 = .ok (before ++
          (g.constants.text ++ String.intercalate "\n" (names.map fun name =>
            "int " ++ name ++ " = " ++ value name ++ ";")) ++ behind)) := by
  have hfind : (Request.find specFile synthesized).mode ≠ .solveVerify := nofun
  have hcheck : (Request.check specFile synthesized names value).mode ≠ .solveVerify := nofun
  rw [attempt_eq hfind, attempt_eq hcheck]
  refine ⟨rfl, ?_⟩
  have hnear : Near g.emptied g.emptied := ⟨alike.refl _, rfl, rfl⟩
  obtain ⟨-, halong⟩ := collect_steady files specFile synthesized hg.emptied hg.emptied hnear
  dsimp only [Request.find, Request.check]
  rcases ends_or_stops ((collect specFile synthesized).run files) g.emptied with ⟨parts, g₁, h⟩ | ⟨e, g₁, h⟩
  · rw [show ((collect specFile synthesized).run files).run.run g.emptied = _ from h] at halong ⊢
    have hconstants : parts.2.constants = g.constants := by
      rw [collect_snd h]
      exact halong.alike.constants
    refine .inr ⟨parts.1.titleText, ((Request.find specFile synthesized).fill parts).behindHoles, ?_, ?_⟩
    · refine congrArg Except.ok ((Program.text_eq _).trans ?_)
      rw [← hconstants, ← collect_snd h]
      rfl
    · refine congrArg Except.ok ((Program.text_eq _).trans ?_)
      rw [← hconstants]
      simp only [Request.fill, holeBlock, List.map_map]
      rfl
  · rw [show ((collect specFile synthesized).run files).run.run g.emptied = _ from h]
    exact .inl ⟨e, rfl, rfl⟩

/-- The sketch that checks values of the holes is the one that they were found with, outside the block of the holes.
That block has the constants and then one line for each hole, with its width or with its value. None of this, and
nothing that the generator shows afterwards, depends on the requests before. -/
theorem checked_sketch_is_found_sketch (hg : Arises g) (files : Files) (earlier earlier' : List Request)
    (specFile : String) (synthesized : Bool) (names : List String) (value : String → String) (hnodup : names.Nodup)
    (hnames : ∀ name, name ∈ names ↔
      name ∈ (attempt files (after files g earlier) (.find specFile synthesized)).2.record.holeNames) :
    let found := attempt files (after files g earlier) (.find specFile synthesized)
    let checked := attempt files (after files g earlier') (.check specFile synthesized names value)
    (∀ r, (attempt files (after files g earlier) r).1 = (attempt files g r).1 ∧
      (attempt files (after files g earlier) r).2.record = (attempt files g r).2.record) ∧
    checked.2.record = found.2.record ∧ names.Perm found.2.record.holeNames.dedup ∧
    ((∃ e, found.1 = .error e ∧ checked.1 = .error e) ∨
      ∃ before behind,
        found.1 = .ok (before ++ (g.constants.text ++ String.join (found.2.holes.map fun h =>
          "int " ++ h.name ++ "= ??(" ++ toString h.width ++ ");\n")) ++ behind) ∧
        checked.1 = .ok (before ++ (g.constants.text ++ String.intercalate "\n" (names.map fun name =>
          "int " ++ name ++ " = " ++ value name ++ ";")) ++ behind)) := by
  intro found checked
  have huntouched := hg.untouched
  obtain ⟨hsame, htexts⟩ := attempt_check files huntouched specFile synthesized names value
  obtain ⟨hfound, hnear⟩ := attempt_after huntouched files earlier (.find specFile synthesized)
  obtain ⟨hchecked, hnear'⟩ := attempt_after huntouched files earlier' (.check specFile synthesized names value)
  refine ⟨fun r => ?_, ?_, ?_, ?_⟩
  · obtain ⟨hresult, hnear⟩ := attempt_after huntouched files earlier r
    exact ⟨hresult, hnear.record_eq.symm⟩
  · rw [← hnear'.record_eq, hsame, hnear.record_eq]
  · exact (List.perm_ext_iff_of_nodup hnodup (List.nodup_dedup _)).2 fun name => by
      rw [hnames, List.mem_dedup]
  · rw [hfound, hchecked, ← hnear.holes]
    exact htexts

end Generator

namespace SeveralRequests

/-- A stateful ALU with one packet field and a hole, a stateless ALU, and a program. -/
def files : Files :=
  .ofList
    [("select", "type:stateful state variables:{s} hole variables:{} packet fields:{x} return Mux2(x,s);"),
     ("pass", "// Max value of opcode is 1\ntype:stateless state variables:{} " ++
       "hole variables:{opcode} packet fields:{x} return x;"),
     ("program", "")]

/-- One stage with one container and one state group. -/
def generator : Generator :=
  { shape := ⟨"net", 1, 1, 1, 1, 1, [0], [0], [0], 1, false⟩
    synthesized := false
    statefulFile := "select"
    statelessFile := "pass"
    constants := ⟨["0", "1"], true⟩
    constantBits := 1 }

/-- A request that fails as its program is not there, one for a mode that is no longer in use, and one that checks
values under a constraint. -/
def earlier : List Generator.Request :=
  [.find "absent" false, { specFile := "program", mode := .solveVerify, synthesized := true },
   { Generator.Request.check "program" false ["x"] (fun _ => "7") with extraConstraints := ["x == 7"] }]

def holes : List Hole :=
  [⟨"net_stateless_alu_0_0_operand_mux_0_ctrl", 0⟩, ⟨"net_stateless_alu_0_0_opcode", 1⟩,
   ⟨"net_stateful_alu_0_0_Mux2_0_global", 1⟩, ⟨"net_stateful_alu_0_0_operand_mux_0_ctrl", 0⟩,
   ⟨"net_output_mux_phv_0_0_ctrl", 1⟩, ⟨"net_salu_config_0_0", 1⟩]

/-- Behind other requests, all holes are found and then checked to be zero. -/
theorem zeros_are_checked_behind_failures :
    ∃ before behind,
      (Generator.attempt files (Generator.after files generator earlier) (.find "program" false)).1 =
        .ok (before ++ (generator.constants.text ++ String.join (holes.map fun h =>
          "int " ++ h.name ++ "= ??(" ++ toString h.width ++ ");\n")) ++ behind) ∧
      (Generator.attempt files (Generator.after files generator []) (.check "program" false
          (holes.map Hole.name) fun _ => "0")).1 =
        .ok (before ++ (generator.constants.text ++ String.intercalate "\n" ((holes.map Hole.name).map fun name =>
          "int " ++ name ++ " = " ++ "0" ++ ";")) ++ behind) := by
  have hcreated : Generator.create generator.shape false "select" "pass" ["0", "1"] = .ok generator := rfl
  have harises : Generator.Arises generator := .created hcreated
  obtain ⟨text, g, hends, hholes⟩ := exists_endsIn (m := Generator.sketch (.find "program" false)) (r := files)
    (s := generator) (fun _ g => decide (g.holes = holes)) (by decide +kernel)
  obtain ⟨hresult, hnear⟩ := Generator.attempt_after harises.untouched files earlier (.find "program" false)
  rw [show Generator.attempt files generator (.find "program" false) = _ from hends] at hresult hnear
  have hsame : (Generator.attempt files (Generator.after files generator earlier) (.find "program" false)).2.holes =
      holes := hnear.holes.symm.trans (of_decide_eq_true hholes)
  obtain ⟨-, -, -, htexts⟩ := Generator.checked_sketch_is_found_sketch harises files earlier [] "program" false
    (holes.map Hole.name) (fun _ => "0") (by decide) fun name => by rw [Generator.record_holeNames, hsame]
  rcases htexts with ⟨e, herror, -⟩ | ⟨before, behind, hfound, hchecked⟩
  · exact nomatch hresult.symm.trans herror
  · rw [hsame] at hfound
    exact ⟨before, behind, hfound, hchecked⟩

end SeveralRequests

end SwitchSynth.Sketch
