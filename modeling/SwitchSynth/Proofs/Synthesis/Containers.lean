import SwitchSynth.Proofs.CommandLine
import SwitchSynth.Proofs.Sketch.History
import SwitchSynth.Proofs.Sketch.Steps
import SwitchSynth.Proofs.Synthesis.OwnFiles

/-!
# Packet fields fit into the containers

A compiler counts packet fields before it makes up the lists that were left out. So the fields that are read always
have containers, but those that are written may not: if the fields to read are given and neither the fields nor the
state groups to compare are, then all fields are written and nobody has counted them.
-/

namespace SwitchSynth

open Sketch (Generator)

namespace Compiler

variable {o : Options} {files : Files} {c : Compiler} {n groups : Nat}

theorem create_checked (h : create o files = .ok c) :
    checkFields o c.fields = .ok () ∧ c.generator.shape = shape o c.fields c.groups ∧
      c.generator.synthesized = o.synthesized ∧ c.generator.Arises := by
  unfold create at h
  simp only [CommandLine.bind_eq_ok] at h
  obtain ⟨spec, -, fields, -, u, hcheck, g, hg, h⟩ := h
  cases h
  have harises : g.Arises := .created hg
  unfold Generator.create at hg
  obtain ⟨bits, -, hg⟩ := CommandLine.bind_eq_ok.1 hg
  cases hg
  exact ⟨hcheck, rfl, rfl, harises⟩

/-- What the check of the packet fields comes to: the fields are counted that are read, and those that are written only
if both lists are given. -/
theorem checkFields_ok (h : checkFields o n = .ok ()) :
    (given o.inputFields = none ∧ n ≤ o.alus) ∨
    ∃ xs, given o.inputFields = some xs ∧ xs.length ≤ o.alus ∧ ∀ ys, o.outputFields = some ys → ys.length ≤ o.alus := by
  unfold checkFields at h
  cases hinputs : given o.inputFields with
  | none =>
    rw [hinputs] at h
    dsimp only at h
    split at h
    · next hle => exact .inl ⟨rfl, hle⟩
    · exact nomatch h
  | some xs =>
    rw [hinputs] at h
    obtain ⟨_, hfirst, hrest⟩ := CommandLine.bind_eq_ok.1 h
    dsimp only at hfirst
    split at hfirst
    · next hle =>
      refine .inr ⟨xs, rfl, hle, fun ys hys => ?_⟩
      rw [hys] at hrest
      dsimp only at hrest
      split at hrest
      · next hle => exact hle
      · exact nomatch hrest
    · exact nomatch hfirst

theorem length_below (n : Nat) : (below n).length = n := by
  simp [below]

theorem given_eq_some {choice : Option (List Int)} {xs : List Int} (h : given choice = some xs) : choice = some xs := by
  unfold given at h
  split at h
  · cases h
    rfl
  · exact nomatch h

theorem length_inputFields_le (h : checkFields o n = .ok ()) : (shape o n groups).inputFields.length ≤ o.alus := by
  show (((given o.inputFields).getD (below n)).length : Int) ≤ o.alus
  rcases checkFields_ok h with ⟨hinputs, hle⟩ | ⟨xs, hinputs, hle, -⟩
  · rw [hinputs, Option.getD_none, length_below]
    exact hle
  · rw [hinputs, Option.getD_some]
    exact hle

theorem length_le_of_nodup {xs : List Int} (hnodup : xs.Nodup) (hrange : ∀ f ∈ xs, 0 ≤ f ∧ f < n) : xs.length ≤ n := by
  have hsubset : xs ⊆ below n := by
    intro f hf
    obtain ⟨hpos, hlt⟩ := hrange f hf
    exact List.mem_map.2 ⟨f.toNat, List.mem_range.2 (by omega), Int.toNat_of_nonneg hpos⟩
  have hlength := (List.subperm_of_subset hnodup hsubset).length_le
  rwa [length_below] at hlength

theorem length_outputFields_le_iff (h : checkFields o n = .ok ())
    (houtputs : ∀ xs, o.outputFields = some xs → xs.Nodup ∧ ∀ f ∈ xs, 0 ≤ f ∧ f < n) :
    (shape o n groups).outputFields.length ≤ o.alus.toNat ↔
      given o.inputFields = none ∨ given o.outputFields ≠ none ∨ given o.outputGroups ≠ none ∨ n ≤ o.alus := by
  have hchecked := checkFields_ok h
  unfold shape
  cases hfields : given o.outputFields with
  | none =>
    cases hgroups : given o.outputGroups with
    | none =>
      -- All fields are written, and only the ones that are read have been counted.
      simp only [length_below, ne_eq, not_true_eq_false, false_or]
      rcases hchecked with ⟨hinputs, hle⟩ | ⟨xs, hinputs, hle, -⟩
      · simp only [hinputs, true_or, iff_true]
        omega
      · simp only [hinputs, reduceCtorEq, false_or]
        omega
    | some ys => simp
  | some ys =>
    have hys := given_eq_some hfields
    have hlength : (ys.length : Int) ≤ o.alus := by
      rcases hchecked with ⟨-, hle⟩ | ⟨_, -, -, hle⟩
      · have hcount := length_le_of_nodup (houtputs ys hys).1 (houtputs ys hys).2
        omega
      · exact hle ys hys
    cases given o.outputGroups <;> simp <;> omega

/-- Every packet field that a sketch reads is read into a container that there is. So it is with the packet fields that
are written, unless the allocation is canonical, the packet fields to read are given, neither the packet fields nor the
state groups to compare are, and there are more packet fields than containers. -/
theorem fields_within_containers_iff (hcreate : create o files = .ok c)
    (houtputs : ∀ xs, o.outputFields = some xs → xs.Nodup ∧ ∀ f ∈ xs, 0 ≤ f ∧ f < c.fields)
    {g g' : Generator} (hg : c.generator.Becomes g) {r : Generator.Request} (hr : r.synthesized = o.synthesized)
    {files' : Files} {p : Sketch.Program} (h : EndsIn (Generator.program r) files' g p g') :
    Text.Codes p.pipelineText (Text.nonblank p.pipelineCode) ∧ p.plan.shape.containers = o.alus ∧
    (∀ f i k, p.plan.ReadsField f i k → i = 0 ∧ (k : Int) < o.alus) ∧
    (∀ f i k, p.plan.WritesField f i k → i = o.stages - 1) ∧
    ((∀ f i k, p.plan.WritesField f i k → (k : Int) < o.alus) ↔
      o.synthesized = true ∨ given o.inputFields = none ∨ given o.outputFields ≠ none ∨ given o.outputGroups ≠ none ∨
        c.fields ≤ o.alus) := by
  obtain ⟨hcheck, hshape, -, harises⟩ := create_checked hcreate
  have hplan : p.plan.shape = shape o c.fields c.groups := by
    rw [Generator.program_shape h, (hg.samePipeline harises).shape, hshape]
  have hcontainers : p.plan.shape.containers = o.alus := by rw [hplan]; rfl
  have hstages : p.plan.shape.stages = o.stages := by rw [hplan]; rfl
  have hinputs : (shape o c.fields c.groups).inputFields.length ≤ o.alus := length_inputFields_le hcheck
  have hsynthesized := (Generator.program_synthesized h).trans hr
  refine ⟨p.pipelineText_codes, hcontainers, fun f i k hreads => ?_, fun f i k hwrites => ?_, ?_⟩
  · refine ⟨(Sketch.Plan.readsField_iff.1 hreads).1, ?_⟩
    rw [← hcontainers]
    refine Sketch.Plan.readsField_within (.inr ?_) hreads
    rw [hplan]
    exact hinputs
  · rw [← hstages]
    exact (Sketch.Plan.writesField_iff.1 hwrites).1
  · rw [← hcontainers, Sketch.Plan.writesField_within_iff, hsynthesized, hplan]
    exact or_congr_right (length_outputFields_le_iff hcheck houtputs)

end Compiler

namespace UncountedFields

/-- A program with two packet fields and a state. -/
def files : Files :=
  .ofList
    [("p.sk", "state_and_packet.pkt_1 = state_and_packet.pkt_0 + state_and_packet.state_group_0_state_0;"),
     ("u.alu", "type:stateful state variables:{s} hole variables:{} packet fields:{x} return C();"),
     ("v.alu", "// Max value of opcode is 1\ntype:stateless state variables:{} " ++
       "hole variables:{opcode} packet fields:{x} return x;")]

/-- One container, into which the first packet field is read. -/
def options : Compiler.Options :=
  { (SmallSwitch.arguments false).options 1 with inputFields := some [0], outputFields := none, outputGroups := none }

def request : Generator.Request where
  specFile := "p.sk"
  mode := .codegen
  synthesized := false

/-- Whether there are two packet fields, and a sketch. -/
def sketches (c : Compiler) : Bool :=
  decide (c.fields = 2) && endsWith (fun _ _ => true) (((Generator.program request).run files).run.run c.generator)

/-- The compiler accepts these options, and the sketch writes the second packet field from a second container, which
there is not. -/
theorem second_field_without_container :
    ∃ c p g, Compiler.create options files = .ok c ∧ EndsIn (Generator.program request) files c.generator p g ∧
      p.plan.shape.containers = 1 ∧ ∃ f i k, p.plan.WritesField f i k ∧ i = 0 ∧ 1 ≤ k := by
  have hcheck : (match Compiler.create options files with
      | .ok c => sketches c
      | .error _ => false) = true := by decide +kernel
  split at hcheck
  · next c hcreate =>
    rw [sketches, Bool.and_eq_true, decide_eq_true_eq] at hcheck
    obtain ⟨hfields, hends⟩ := hcheck
    obtain ⟨p, g, hends, -⟩ := exists_endsIn _ hends
    have houtputs : ∀ xs, options.outputFields = some xs → xs.Nodup ∧ ∀ f ∈ xs, 0 ≤ f ∧ f < c.fields := nofun
    obtain ⟨-, hcontainers, -, hlast, hiff⟩ :=
      Compiler.fields_within_containers_iff hcreate houtputs .same rfl hends
    have hover : ¬ ∀ f i k, p.plan.WritesField f i k → (k : Int) < options.alus := by
      rw [hiff, hfields]
      decide
    simp only [not_forall] at hover
    obtain ⟨f, i, k, hwrites, hk⟩ := hover
    refine ⟨c, p, g, hcreate, hends, hcontainers, f, i, k, hwrites, hlast f i k hwrites, ?_⟩
    have hone : options.alus = 1 := rfl
    omega
  · exact nomatch hcheck

end UncountedFields

end SwitchSynth
