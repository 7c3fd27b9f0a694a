import Mathlib
import SwitchSynth.Proofs.Sketch.ConstantHoles
import SwitchSynth.Proofs.Sketch.History
import SwitchSynth.Proofs.Synthesis.OwnFiles

/-!
# One list of constants

The constants are kept by the compiler and by its generator, and a round that learns from a counterexample changes
both. So the sketch that the synthesiser fills, the sketch that its values are checked with, and the switch program
have the same constants in the same order, and a hole that chooses one of them is as wide as their number asks for.
-/

namespace SwitchSynth

open Formula (Counterexample Quantified)
open Sketch (Generator Hole ChoosesConstant)
open Sketch.Generator (Alike HasAlus Ready)

/-! ### Lists that grow -/

theorem nodup_eraseDups (l : List String) : l.eraseDups.Nodup := by
  -- By the length: behind the first element, a shorter list without its copies is left.
  induction hn : l.length using Nat.strong_induction_on generalizing l with
  | _ n ih =>
    cases l with
    | nil => exact List.nodup_nil
    | cons first rest =>
      have hshorter : (rest.filter fun b => !b == first).length < n := by
        have hle := List.length_filter_le (fun b => !b == first) rest
        rw [List.length_cons] at hn
        omega
      rw [List.eraseDups_cons, List.nodup_cons, List.mem_eraseDups, List.mem_filter]
      exact ⟨by simp, ih _ hshorter _ rfl⟩

namespace Loop

variable {constants : List String}

theorem addConstants_extends (constants new : List String) : constants <+: addConstants constants new := by
  unfold addConstants
  induction new generalizing constants with
  | nil => exact List.prefix_refl constants
  | cons c rest ih =>
    rw [List.foldl_cons]
    split
    · exact ih constants
    · exact (List.prefix_append constants [c]).trans (ih _)

theorem addConstants_nodup (h : constants.Nodup) (new : List String) : (addConstants constants new).Nodup := by
  unfold addConstants
  induction new generalizing constants with
  | nil => exact h
  | cons c rest ih =>
    rw [List.foldl_cons]
    split
    · exact ih h
    · next hmem =>
      -- A constant is only added if it is new.
      refine ih (List.nodup_append.2 ⟨h, List.nodup_singleton c, fun x hx y hy heq => ?_⟩)
      rw [List.mem_singleton.1 hy] at heq
      exact hmem (heq ▸ hx)

end Loop

/-! ### What a sketch declares -/

namespace Sketch

variable {files : Files} {g g' : Generator} {r : Generator.Request} {p : Program}

/-- Behind its title, a sketch declares some constants, and a block of holes follows. -/
def DeclaresConstants (p : Program) (constants : List String) (block : String) : Prop :=
  ∃ gap rest, (gap = "" ∨ gap = " ") ∧ p.text = p.titleText ++ "int[" ++ toString constants.length ++ "]" ++ gap ++
    "constant_vector = \x7b" ++ String.intercalate "," constants ++ "\x7d;\n\n" ++ block ++ rest

/-- A sketch declares some constants, and a hole that chooses one of them has a number of bits. -/
structure UsesConstants (constants : List String) (bits : Nat) (block : String) (p : Program) (g : Generator) :
    Prop where
  declares : DeclaresConstants p constants block
  width : ∀ hole ∈ g.holes, ChoosesConstant p.plan hole.name → hole.width = bits

theorem declaresConstants_of_holeBlock {v : ConstantVector} {block : String} (h : p.holeBlock = v.text ++ block) :
    DeclaresConstants p v.values block := by
  refine ⟨if v.spaced then " " else "", "\n\n// Definitions of muxes and ALUs of the router\n" ++
    p.definitionsText ++ "\n" ++ p.recordsText ++ "// Specification\n" ++ p.spec ++
    "\n\n// Implementation\n" ++ p.pipelineText ++ p.harnessText, ?_, ?_⟩
  · split
    · exact .inr rfl
    · exact .inl rfl
  · rw [Program.text, h, ConstantVector.text]
    simp only [-String.reduceAppend, String.append_assoc]

theorem program_usesConstants {block : String} (hready : HasAlus g) (h : EndsIn (Generator.program r) files g p g')
    (hblock : g'.holeBlock r = g'.constants.text ++ block) :
    UsesConstants g.constants.values g.constantBits block p g' := by
  obtain ⟨_, _, _, -, -, -, -, -, -, -, hp⟩ := Generator.program_inv h
  obtain ⟨halike, hholes, -⟩ := Generator.program_holes hready h
  refine ⟨?_, fun hole hhole hname => ?_⟩
  · refine declaresConstants_of_holeBlock ?_
    rw [hp, ← halike.constants]
    exact hblock
  · have hshape : p.plan.shape = g.shape := by rw [hp, halike.shape]
    rw [hholes] at hhole
    refine Layout.width_of_choosesConstant hhole ?_
    unfold ChoosesConstant Plan.statefulName Plan.statelessName at hname ⊢
    rw [hshape] at hname
    exact hname

/-- In a sketch that checks values of the holes, these follow the constants. -/
theorem holeBlock_checkRequest (g : Generator) (o : Compiler.Options) (values : Table HoleValue) :
    g.holeBlock (Compile.checkRequest o values) = g.constants.text ++ String.intercalate "\n"
      (values.toList.map fun (hole, value) => "int " ++ hole ++ " = " ++ value.shown ++ ";") := by
  rw [Generator.holeBlock, Compile.checkRequest]
  dsimp only
  rw [List.map_map]
  rfl

end Sketch

/-! ### The switch program -/

namespace Compiler

/-- What a switch program is made for, with some constants. -/
def target (c : Compiler) (constants : List String) : P4.Target :=
  ⟨c.options.sketchName, c.options.alus, c.options.stages, c.groups, constants, c.options.statefulFile⟩

end Compiler

def numbersOf (values : Table Sketch.HoleValue) : Except Error (List (String × Int)) :=
  values.toList.mapM fun (hole, value) => do return (hole, ← value.asNumber)

theorem Compile.switchProgram_run {values : Table Sketch.HoleValue} {numbers : List (String × Int)}
    (h : numbersOf values = .ok numbers) (c : Compiler) (w : Workspace) :
    ((switchProgram values).run.run c).run w =
      (((P4.generate (c.target c.constants) (.ofList numbers) w).1, c),
        (P4.generate (c.target c.constants) (.ofList numbers) w).2.2) := by
  unfold numbersOf at h
  unfold switchProgram
  rw [h]
  rfl

namespace Loop

variable {s : Setup} {x y : Stand} {c c' : Compiler} {w w' : Workspace} {run : Compile.Run} {found : Counterexample}

theorem succeed_inv (htofino : s.arguments.tofino = true) (h : Compile.Ends (succeed s run) c w () c' w') :
    ∃ w₁ c₂ w₂, Compile.Ends (Compile.switchProgram run.values) c w₁ () c₂ w₂ := by
  simp only [succeed, htofino, if_true, Compile.ends_bind, Compile.ends_work] at h
  obtain ⟨_, _, w₁, ⟨-, rfl⟩, _, c₂, w₂, hprogram, -⟩ := h
  exact ⟨w₁, c₂, w₂, hprogram⟩

/-- A round that is the last one and reports success has asked for a check of its values, and makes the switch
program of these if there is a switch. -/
theorem Finishes.asks (h : Finishes s y (.ok 0) c' w') : ∃ run f c₁ w₁, Asks s y run f c₁ w₁ ∧
    (s.arguments.tofino = true → ∃ w₂ c₂ w₃, Compile.Ends (Compile.switchProgram run.values) c₁ w₂ () c₂ w₃) := by
  rcases round_ends_iff.1 h with ⟨_, _, _, _, _, _, _, _, _, h, _⟩ |
    ⟨run, f, c₁, w₁, found, c₂, w₂, hasks, hjudge, h⟩
  · exact nomatch h
  · rcases h with ⟨-, hsucceed, -⟩ | ⟨-, _, _, _, -, -, h⟩
    · obtain ⟨rfl, -, -⟩ := Compile.judge_inv hjudge
      exact ⟨run, f, _, w₁, hasks, fun htofino => succeed_inv htofino hsucceed⟩
    · exact nomatch h

/-! ### The compiler of a round -/

/-- While the synthesiser is asked for values, only what the generator has collected changes. -/
theorem Tries.compiler (hready : Ready x.compiler.generator) (h : Tries s x run c w) :
    ∃ g, Alike x.compiler.generator g ∧ HasAlus g ∧ c = { x.compiler with generator := g } := by
  obtain ⟨_, -, files, p, g, hprogram, hc, -⟩ := h.sketch
  have halus := hready.hasAlus hprogram
  -- Side by side, each job has a generator of its own, and that of the compiler stays.
  refine ⟨generatorBehind s x g, ?_, ?_, hc⟩
  · unfold generatorBehind
    split
    · exact Generator.alike.refl _
    · exact (Generator.program_holes halus hprogram).1
  · unfold generatorBehind
    split
    · exact halus
    · exact halus.of_alike (Generator.program_holes halus hprogram).1

theorem Asks.compiler {f : Quantified} (hready : Ready x.compiler.generator) (h : Asks s x run f c w) :
    ∃ g, Alike x.compiler.generator g ∧ HasAlus g ∧ c = { x.compiler with generator := g } := by
  obtain ⟨c₁, w₁, p, g, htries, -, -, hprogram, rfl⟩ := h.sketch
  obtain ⟨g₁, halike, halus, rfl⟩ := htries.compiler hready
  have halike' := (Generator.program_holes halus hprogram).1
  exact ⟨g, Generator.alike.trans halike halike', halus.of_alike halike', rfl⟩

/-- Between two rounds, nothing but the constants and what the generator has collected changes, and the constants
only without elimination. -/
theorem Turns.compiler (hready : Ready x.compiler.generator) (h : Turns s x run found y) :
    ∃ g, Alike x.compiler.generator g ∧ HasAlus g ∧ (y.compiler = { x.compiler with generator := g } ∨
      ∃ bits, Sketch.bitWidth (learntConstants x.compiler found).length = .ok bits ∧
        y.compiler = learntCompiler { x.compiler with generator := g } found bits) := by
  obtain ⟨f, c₁, w₁, w₂, hasks, -, -, -, hlearn⟩ := h
  obtain ⟨g, halike, halus, rfl⟩ := hasks.compiler hready
  refine ⟨g, halike, halus, ?_⟩
  cases helimination : s.arguments.holeElimination with
  | true =>
    obtain ⟨_, -, -, hcompiler, -⟩ := learn_constraints helimination hlearn
    exact .inl hcompiler
  | false =>
    obtain ⟨bits, hbits, -, hcompiler, -⟩ := learn_testcase helimination hlearn
    exact .inr ⟨bits, hbits, hcompiler⟩

/-! ### Agreement on the constants -/

/-- Compiler and generator have the same constants, each once, and those from the start first. -/
structure Agrees (s : Setup) (c : Compiler) : Prop where
  ready : Ready c.generator
  same : c.generator.constants.values = c.constants
  width : Sketch.bitWidth c.constants.length = .ok c.generator.constantBits
  nodup : c.constants.Nodup
  initial : s.arguments.constantList <+: c.constants

theorem Begins.agrees (h : Begins s x) : Agrees s x.compiler := by
  obtain ⟨fields, bits, hbits, hgenerator⟩ := h.generator
  have hconstants := h.constants
  constructor
  · rw [hgenerator]
    exact .inl ⟨rfl, rfl⟩
  · rw [hgenerator, hconstants]
  · rw [hgenerator, hconstants, hbits]
  · rw [hconstants]
    exact nodup_eraseDups _
  · rw [hconstants]

theorem Agrees.of_alike {g : Generator} (h : Agrees s c) (halike : Alike c.generator g) (halus : HasAlus g) :
    Agrees s { c with generator := g } := by
  refine ⟨.inr halus, ?_, ?_, h.nodup, h.initial⟩
  · exact halike.constants ▸ h.same
  · exact halike.constantBits ▸ h.width

theorem Agrees.learnt {bits : Nat} (h : Agrees s c)
    (hbits : Sketch.bitWidth (learntConstants c found).length = .ok bits) :
    Agrees s (learntCompiler c found bits) := by
  refine ⟨?_, rfl, hbits, addConstants_nodup h.nodup _, h.initial.trans (addConstants_extends _ _)⟩
  -- That there are ALUs of both kinds does not depend on the constants.
  rcases h.ready with hnew | halus
  · exact .inl hnew
  · exact .inr ⟨halus.stages, halus.alus, halus.units⟩

theorem Turns.agrees (hagrees : Agrees s x.compiler) (h : Turns s x run found y) : Agrees s y.compiler := by
  obtain ⟨g, halike, halus, hsame | ⟨bits, hbits, hlearnt⟩⟩ := h.compiler hagrees.ready
  · rw [hsame]
    exact hagrees.of_alike halike halus
  · rw [hlearnt]
    exact (hagrees.of_alike halike halus).learnt hbits

theorem Course.agrees {l : List (Compile.Run × Counterexample)} (hagrees : Agrees s x.compiler)
    (h : Course s x l y) : Agrees s y.compiler := by
  induction h with
  | start => exact hagrees
  | round _ hturn ih => exact hturn.agrees ih

/-- The number of bits is the logarithm of the number of the constants, rounded up, as far as a double tells. -/
theorem Agrees.bits_eq_clog (h : Agrees s c) (hle : c.constants.length ≤ 2 ^ 49) :
    c.generator.constantBits = Nat.clog 2 c.constants.length := by
  -- Without constants there would be no number of bits.
  have hpos : 0 < c.constants.length := by
    refine Nat.pos_of_ne_zero fun hzero => ?_
    have hwidth := h.width
    rw [hzero] at hwidth
    exact nomatch hwidth
  exact Except.ok.inj (h.width.symm.trans (Sketch.bitWidth_eq_clog hpos hle))

theorem Agrees.usesConstants {files : Files} {r : Generator.Request} {p : Sketch.Program} {g : Generator}
    {block : String} (h : Agrees s c) (hprogram : EndsIn (Generator.program r) files c.generator p g)
    (hblock : g.holeBlock r = g.constants.text ++ block) :
    Sketch.UsesConstants c.constants c.generator.constantBits block p g := by
  have huses := Sketch.program_usesConstants (h.ready.hasAlus hprogram) hprogram hblock
  rw [h.same] at huses
  exact huses

end Loop

namespace SmallSwitch

end SmallSwitch

end SwitchSynth
