import SwitchSynth.Proofs.Sketch.Bookkeeping
import SwitchSynth.Proofs.Synthesis.Containers
import SwitchSynth.Proofs.Synthesis.Placements

/-!
# Constraints and conditions name declared holes

Holes are named in three places beside their declarations: in the constraints that a sketch asserts, in the conditions
of its pipeline, and in the constraints that a search over the placements of state groups adds. The hole that ties a
state group to a stage has one name with the canonical allocation and another one if holes decide about the
allocation. Not every place goes by that: the constraints and conditions on the writers of a container, and the
constraints of a placement, use the name of the canonical allocation throughout.
-/

namespace SwitchSynth

/-! ### Names in texts -/

namespace Text

/-- Characters that stand between names: neither letters nor underscores. -/
def isSign (c : Char) : Bool :=
  !(Alu.isLetter c || c == '_')

/-- A text is made up of names, in order, and of signs between them. -/
inductive Mentions : String → List String → Prop where
  | signs {s : String} : s.toList.all isSign = true → Mentions s []
  | name (n : String) : Mentions n [n]
  | append {s t : String} {m n : List String} : Mentions s m → Mentions t n → Mentions (s ++ t) (m ++ n)

variable {s t : String} {ns : List String}

theorem Mentions.signs_append (hs : s.toList.all isSign = true) (h : Mentions t ns) : Mentions (s ++ t) ns :=
  (Mentions.signs hs).append h

theorem Mentions.append_signs (h : Mentions s ns) (ht : t.toList.all isSign = true) : Mentions (s ++ t) ns := by
  have happend := h.append (.signs ht)
  rwa [List.append_nil] at happend

theorem Mentions.join {α : Type} {xs : List α} {text : α → String} {names : α → List String}
    (h : ∀ x, Mentions (text x) (names x)) : Mentions (String.join (xs.map text)) (xs.flatMap names) := by
  induction xs with
  | nil => exact .signs rfl
  | cons x xs ih =>
    rw [List.map_cons, String.join_cons, List.flatMap_cons]
    exact (h x).append ih

theorem isSign_of_isDigit {c : Char} (h : c.isDigit = true) : isSign c = true := by
  by_contra hsign
  simp only [Char.isDigit, Bool.and_eq_true, decide_eq_true_eq, UInt32.le_iff_toNat_le] at h
  simp only [isSign, Alu.isLetter, Bool.not_eq_true, Bool.not_eq_false', Bool.or_eq_true, Bool.and_eq_true,
    decide_eq_true_eq, beq_iff_eq, Char.le_def, UInt32.le_iff_toNat_le] at hsign
  rcases hsign with (⟨hletter, -⟩ | ⟨hletter, -⟩) | rfl
  · exact absurd (hletter.trans h.2) (by decide)
  · exact absurd (hletter.trans h.2) (by decide)
  · exact absurd h.2 (by decide)

theorem all_isSign_toString (n : Nat) : (toString n).toList.all isSign = true :=
  List.all_eq_true.2 fun _ hc => isSign_of_isDigit (isDigit_of_mem_toString hc)

theorem all_isSign_int (n : Int) : (toString n).toList.all isSign = true := by
  cases n with
  | ofNat m => exact all_isSign_toString m
  | negSucc m =>
    show ("-" ++ toString (m + 1)).toList.all isSign = true
    rw [String.toList_append, List.all_append, all_isSign_toString, Bool.and_true]
    decide

end Text

namespace Sketch

open Text (Mentions all_isSign_int all_isSign_toString)

/-! ### The holes that are named -/

def Constraint.holes : Constraint → List String
  | given _ => []
  | sum _ holes _ => holes
  | oneWriter own others _ => own :: others.flatMap fun writer => [writer.1, writer.2]

def Condition.holes : Condition → List String
  | equals hole _ => [hole]
  | both a b => a.holes ++ b.holes

def Statement.conditions : Statement → List Condition
  | declare _ | act _ => []
  | guarded hole _ => [.equals hole 1]
  | firstOf _ branches => branches.map Branch.condition

theorem Bound.all_isSign_text (b : Bound) : b.text.toList.all Text.isSign = true := by
  cases b with
  | atMost n =>
    show (" <= " ++ toString n).toList.all Text.isSign = true
    rw [String.toList_append, List.all_append, all_isSign_int, Bool.and_true]
    decide
  | exactly n =>
    show (" == " ++ toString n).toList.all Text.isSign = true
    rw [String.toList_append, List.all_append, all_isSign_int, Bool.and_true]
    decide

theorem Spacing.term_mentions (spacing : Spacing) (hole : String) : Mentions (spacing.term hole) [hole] := by
  cases spacing with
  | leading => exact .append_signs (.signs_append (by decide) (.name hole)) (by decide)
  | tight => exact .append_signs (.name hole) (by decide)
  | wide => exact .append_signs (.name hole) (by decide)

theorem Constraint.writerText_mentions (container : Nat) (writer : String × String) :
    Mentions (writerText container writer) [writer.1, writer.2] := by
  refine .append_signs ?_ (by decide)
  refine .append (m := [writer.1]) (.append_signs (.append_signs (.append_signs ?_ ?_) ?_) ?_) (.name writer.2)
  · exact .signs_append (by decide) (.name writer.1)
  · decide
  · exact all_isSign_toString container
  · decide

theorem Constraint.text_mentions {c : Constraint} (h : ∀ s, c ≠ given s) : Mentions c.text c.holes := by
  cases c with
  | given s => exact absurd rfl (h s)
  | sum spacing holes bound =>
    have hterms : Mentions (String.join (holes.map spacing.term)) (holes.flatMap fun hole => [hole]) :=
      .join spacing.term_mentions
    rw [List.flatMap_singleton'] at hterms
    exact .append_signs (.append_signs (.signs_append (by decide) hterms) (by decide)) bound.all_isSign_text
  | oneWriter own others container =>
    refine .append_signs (.append (m := [own]) ?_ (.join (writerText_mentions container))) (by decide)
    exact .append_signs (.signs_append (by decide) (.name own)) (by decide)

theorem Condition.text_mentions (c : Condition) : Mentions c.text c.holes := by
  induction c with
  | equals hole n => exact .append_signs (.append_signs (.name hole) (by decide)) (all_isSign_int n)
  | both a b iha ihb =>
    refine .append_signs (.append (.append_signs (.signs_append (by decide) iha) (by decide)) ihb) (by decide)

/-- The conditions on the writers of a container name the holes that the constraint on them names. -/
theorem Plan.holes_writers (p : Plan) (i c : Nat) :
    ((p.writers i c).map Branch.condition).flatMap Condition.holes = (p.writerConstraint i c).holes := by
  simp only [writers, writerConstraint, Constraint.holes, List.map_cons, List.map_map, List.flatMap_cons,
    List.flatMap_map]
  rfl

/-! ### The holes that are declared -/

namespace Layout

variable {b : Layout} {i k c : Nat}

theorem active_mem_holeNames :
    .active i k ∈ b.holeNames ↔ b.synthesized = false ∧ i ∈ upTo b.shape.stages ∧ k ∈ upTo b.shape.groups := by
  cases hs : b.synthesized <;> cases ht : b.shape.tofino <;>
    simp [holeNames, stageNames, operandNames, outputNames, allocationNames, hs, ht]

theorem served_mem_holeNames : .served k i c ∈ b.holeNames ↔ b.synthesized = true ∧ k ∈ upTo b.shape.groups ∧
    i ∈ upTo b.shape.stages ∧ c ∈ upTo b.shape.containers := by
  cases hs : b.synthesized <;> cases ht : b.shape.tofino <;>
    simp [holeNames, stageNames, operandNames, outputNames, allocationNames, hs, ht]

theorem field_mem_holeNames :
    .field k c ∈ b.holeNames ↔ b.synthesized = true ∧ k ∈ upTo b.shape.fields ∧ c ∈ upTo b.shape.containers := by
  cases hs : b.synthesized <;> cases ht : b.shape.tofino <;>
    simp [holeNames, stageNames, operandNames, outputNames, allocationNames, hs, ht, and_comm]

theorem demux_mem_holeNames (htofino : b.shape.tofino = true) (hi : i ∈ upTo b.shape.stages) :
    (c ∈ upTo b.shape.containers → .stateless i c demuxRest ∈ b.holeNames) ∧
      (k ∈ upTo b.shape.groups → .stateful i k demuxRest ∈ b.holeNames) := by
  have houtputs {n : HoleName} (h : n ∈ b.outputNames) : n ∈ b.holeNames :=
    List.mem_append_left _ (List.mem_append_right _ h)
  constructor
  · exact fun hc => houtputs (by simp [outputNames, htofino, hi, hc])
  · exact fun hk => houtputs (by simp [outputNames, htofino, hi, hk])

end Layout

namespace Generator

variable {files : Files} {g g' : Generator} {r : Request} {p : Program} {i k c : Nat}

def Declares (g : Generator) (name : String) : Prop :=
  name ∈ g.holes.map Hole.name

instance (g : Generator) (name : String) : Decidable (g.Declares name) :=
  inferInstanceAs (Decidable (_ ∈ _))

theorem declares_text (halus : HasAlus g) (h : EndsIn (program r) files g p g') (n : HoleName) :
    g'.Declares (n.text g.shape.sketchName) ↔ n ∈ (g.layout files).holeNames := by
  rw [Declares, (program_perm halus h).mem_iff]
  exact List.mem_map_of_injective fun _ _ => HoleName.text_inj

theorem declares_activeBit (halus : HasAlus g) (h : EndsIn (program r) files g p g') :
    g'.Declares (Allocation.activeBit g.shape i k) ↔
      g.synthesized = false ∧ i ∈ upTo g.shape.stages ∧ k ∈ upTo g.shape.groups := by
  rw [← HoleName.text_active, declares_text halus h, Layout.active_mem_holeNames]
  rfl

theorem declares_groupBit (halus : HasAlus g) (h : EndsIn (program r) files g p g') :
    g'.Declares (Allocation.groupBit g.shape k i c) ↔ g.synthesized = true ∧ k ∈ upTo g.shape.groups ∧
      i ∈ upTo g.shape.stages ∧ c ∈ upTo g.shape.containers := by
  rw [← HoleName.text_served, declares_text halus h, Layout.served_mem_holeNames]
  rfl

theorem declares_fieldConfig (halus : HasAlus g) (h : EndsIn (program r) files g p g') {f : Int}
    (hf : 0 ≤ f ∧ f < g.shape.fields) (hsynthesized : g.synthesized = true) (hc : c ∈ upTo g.shape.containers) :
    g'.Declares (Plan.fieldConfig f c) := by
  obtain ⟨n, rfl⟩ := Int.eq_ofNat_of_zero_le hf.1
  rw [← HoleName.text_field c n g.shape.sketchName, declares_text halus h, Layout.field_mem_holeNames]
  exact ⟨hsynthesized, List.mem_range.2 (show n < g.shape.fields.toNat by omega), hc⟩

theorem declares_demux (halus : HasAlus g) (h : EndsIn (program r) files g p g') (htofino : g.shape.tofino = true)
    (hi : i ∈ upTo g.shape.stages) :
    (c ∈ upTo g.shape.containers → g'.Declares (p.plan.statelessName i c ++ "_demux_ctrl")) ∧
      (k ∈ upTo g.shape.groups → g'.Declares (p.plan.statefulName i k ++ "_demux_ctrl")) := by
  have hdemux (name : String) : name ++ "_demux_ctrl" = name ++ "_" ++ demuxRest := by
    rw [demuxRest, String.append_assoc]
    rfl
  have hmem := Layout.demux_mem_holeNames (b := g.layout files) (c := c) (k := k) htofino hi
  rw [hdemux, hdemux, ← HoleName.text_stateless, ← HoleName.text_stateful, program_shape h, declares_text halus h,
    declares_text halus h]
  exact hmem

/-- The holes on which the writers of a container depend are declared, but for those that activate stateful ALUs if
holes decide about the allocation. -/
theorem writers_declared_iff (halus : HasAlus g) (h : EndsIn (program r) files g p g') (htofino : g.shape.tofino = true)
    (hi : i ∈ upTo g.shape.stages) (hc : c ∈ upTo g.shape.containers) :
    (∀ n ∈ (p.plan.writerConstraint i c).holes, g'.Declares n) ↔ ¬ (g.synthesized = true ∧ 0 < g.shape.groups) := by
  have hshape := program_shape h
  have hholes : (p.plan.writerConstraint i c).holes = (p.plan.statelessName i c ++ "_demux_ctrl") ::
      (upTo g.shape.groups).flatMap fun k =>
        [p.plan.statefulName i k ++ "_demux_ctrl", Allocation.activeBit g.shape i k] := by
    rw [Plan.writerConstraint, Constraint.holes, List.flatMap_map, hshape]
  rw [hholes, List.forall_mem_cons]
  constructor
  · rintro ⟨-, hall⟩ ⟨hsynthesized, hgroups⟩
    have hzero : 0 ∈ upTo g.shape.groups := List.mem_range.2 (by omega)
    have hactive := hall (Allocation.activeBit g.shape i 0) (List.mem_flatMap.2 ⟨0, hzero, by simp⟩)
    rw [declares_activeBit halus h, hsynthesized] at hactive
    exact nomatch hactive.1
  · intro hnot
    refine ⟨(declares_demux (k := 0) halus h htofino hi).1 hc, fun n hn => ?_⟩
    obtain ⟨k, hk, hn⟩ := List.mem_flatMap.1 hn
    have hlt : k < g.shape.groups.toNat := List.mem_range.1 hk
    have hcanonical : g.synthesized = false := Bool.eq_false_iff.2 fun hs => hnot ⟨hs, by omega⟩
    rcases List.mem_cons.1 hn with rfl | hn
    · exact (declares_demux (c := 0) halus h htofino hi).2 hk
    · rw [List.mem_singleton.1 hn]
      exact (declares_activeBit halus h).2 ⟨hcanonical, hi, hk⟩

theorem allocation_declared (halus : HasAlus g) (h : EndsIn (program r) files g p g')
    (hinputs : ∀ f ∈ g.shape.inputFields, 0 ≤ f ∧ f < g.shape.fields) :
    ∀ a ∈ g.allocationConstraints, ∀ n ∈ a.holes, g'.Declares n := by
  intro a ha n hn
  unfold allocationConstraints at ha
  split at ha
  · next hsynthesized =>
    simp only [Allocation.ofFields, Allocation.ofGroups, List.mem_append, List.mem_map, List.mem_flatMap] at ha
    rcases ha with (⟨j, hj, rfl⟩ | ⟨f, hf, rfl⟩) | ⟨k, hk, rfl⟩ | ⟨i, hi, j, hj, rfl⟩
    · obtain ⟨f, hf, rfl⟩ := List.mem_map.1 hn
      exact declares_fieldConfig halus h (hinputs f hf) hsynthesized hj
    · obtain ⟨j, hj, rfl⟩ := List.mem_map.1 hn
      exact declares_fieldConfig halus h (hinputs f hf) hsynthesized hj
    · obtain ⟨i, hi, hn⟩ := List.mem_flatMap.1 hn
      obtain ⟨j, hj, rfl⟩ := List.mem_map.1 hn
      exact (declares_groupBit halus h).2 ⟨hsynthesized, hk, hi, hj⟩
    · obtain ⟨k, hk, rfl⟩ := List.mem_map.1 hn
      exact (declares_groupBit halus h).2 ⟨hsynthesized, hk, hi, hj⟩
  · next hcanonical =>
    rw [Bool.not_eq_true] at hcanonical
    simp only [Allocation.canonical, List.mem_append, List.mem_map] at ha
    rcases ha with ⟨i, hi, rfl⟩ | ⟨k, hk, rfl⟩
    · obtain ⟨k, hk, rfl⟩ := List.mem_map.1 hn
      exact (declares_activeBit halus h).2 ⟨hcanonical, hi, hk⟩
    · obtain ⟨i, hi, rfl⟩ := List.mem_map.1 hn
      exact (declares_activeBit halus h).2 ⟨hcanonical, hi, hk⟩

theorem asserts_ne_given (h : EndsIn (program r) files g p g') : ∀ a ∈ p.constraints, ∀ s, a ≠ .given s := by
  rintro _ ha s rfl
  rw [program_asserts h, List.mem_append] at ha
  rcases ha with ha | ha
  · split at ha
    · simp [Plan.writerConstraint] at ha
    · exact absurd ha List.not_mem_nil
  · unfold allocationConstraints at ha
    split at ha
    · simp [Allocation.ofFields, Allocation.ofGroups] at ha
    · simp [Allocation.canonical] at ha

/-- What a sketch asserts names holes that it declares, unless every container is to have one writer and holes decide
about the allocation of state groups. -/
theorem asserts_declared_iff (halus : HasAlus g) (h : EndsIn (program r) files g p g')
    (hinputs : ∀ f ∈ g.shape.inputFields, 0 ≤ f ∧ f < g.shape.fields) :
    (∀ a ∈ p.constraints, ∀ n ∈ a.holes, g'.Declares n) ↔
      ¬ (g.synthesized = true ∧ g.shape.tofino = true ∧ 0 < g.shape.groups) := by
  rw [program_asserts h]
  constructor
  · rintro hall ⟨hsynthesized, htofino, hgroups⟩
    obtain ⟨i, hi⟩ := List.exists_mem_of_ne_nil _ halus.stages
    have hc : 0 ∈ upTo g.shape.containers := List.mem_range.2 (containers_pos halus h)
    have hwriter := hall (p.plan.writerConstraint i 0) (by
      rw [if_pos htofino]
      exact List.mem_append_left _ (List.mem_flatMap.2 ⟨i, hi, List.mem_map_of_mem hc⟩))
    exact (writers_declared_iff halus h htofino hi hc).1 hwriter ⟨hsynthesized, hgroups⟩
  · intro hnot a ha
    rcases List.mem_append.1 ha with ha | ha
    · split at ha
      · next htofino =>
        simp only [List.mem_flatMap, List.mem_map] at ha
        obtain ⟨i, hi, c, hc, rfl⟩ := ha
        exact (writers_declared_iff halus h htofino hi hc).2 fun hs => hnot ⟨hs.1, htofino, hs.2⟩
      · exact absurd ha List.not_mem_nil
    · exact allocation_declared halus h hinputs a ha

theorem declares_stateConfig (halus : HasAlus g) (h : EndsIn (program r) files g p g')
    (hr : r.synthesized = g.synthesized) {m : Nat} (hi : i ∈ upTo g.shape.stages) (hm : m ∈ upTo g.shape.groups)
    (hk : if g.synthesized then k ∈ upTo g.shape.containers else k = m) : g'.Declares (p.plan.stateConfig i k m) := by
  rw [Plan.stateConfig, program_shape h, program_synthesized h, hr]
  by_cases hsynthesized : g.synthesized = true
  · rw [if_pos hsynthesized] at hk ⊢
    have hdeclared := (declares_groupBit halus h).2 ⟨hsynthesized, hm, hi, hk⟩
    simpa only [Allocation.groupBit, String.append_assoc] using hdeclared
  · rw [if_neg hsynthesized]
    have hdeclared := (declares_activeBit halus h).2 ⟨Bool.eq_false_iff.2 hsynthesized, hi, hm⟩
    simpa only [Allocation.activeBit, String.append_assoc] using hdeclared

theorem conditions_declared_iff (halus : HasAlus g) (h : EndsIn (program r) files g p g')
    (hr : r.synthesized = g.synthesized) (hinputs : ∀ f ∈ g.shape.inputFields, 0 ≤ f ∧ f < g.shape.fields)
    (houtputs : ∀ f ∈ g.shape.outputFields, 0 ≤ f ∧ f < g.shape.fields) :
    (∀ st ∈ p.plan.code, ∀ a ∈ st.conditions, ∀ n ∈ a.holes, g'.Declares n) ↔
      ¬ (g.synthesized = true ∧ g.shape.tofino = true ∧ 0 < g.shape.groups) := by
  have hshape := program_shape h
  have hsynthesized := (program_synthesized h).trans hr
  constructor
  · rintro hall ⟨hs, htofino, hgroups⟩
    obtain ⟨i, hi⟩ := List.exists_mem_of_ne_nil _ halus.stages
    have hc : 0 ∈ upTo g.shape.containers := List.mem_range.2 (containers_pos halus h)
    have hstep : .demultiplex i 0 ∈ p.plan.steps := by
      rw [Plan.mem_steps_iff, Plan.Has, hshape]
      exact ⟨hi, hc, htofino⟩
    refine (writers_declared_iff halus h htofino hi hc).1 (fun n hn => ?_) ⟨hs, hgroups⟩
    rw [← Plan.holes_writers] at hn
    obtain ⟨a, ha, hn⟩ := List.mem_flatMap.1 hn
    exact hall _ (List.mem_map_of_mem hstep) a ha n hn
  · intro hnot st hst a ha n hn
    obtain ⟨step, hstep, rfl⟩ := List.mem_map.1 hst
    have hhas := Plan.mem_steps_iff.1 hstep
    cases step with
    | readFieldIf f c =>
      simp only [Plan.Has, hshape, hsynthesized] at hhas
      cases List.mem_singleton.1 ha
      cases List.mem_singleton.1 hn
      exact declares_fieldConfig halus h (hinputs f hhas.2.2.1) hhas.2.1 hhas.2.2.2
    | writeFieldIf f c =>
      simp only [Plan.Has, hshape, hsynthesized] at hhas
      cases List.mem_singleton.1 ha
      cases List.mem_singleton.1 hn
      exact declares_fieldConfig halus h (houtputs f hhas.2.1) hhas.1 hhas.2.2
    | loadState i k m =>
      simp only [Plan.Has, hshape, hsynthesized] at hhas
      cases List.mem_singleton.1 ha
      cases List.mem_singleton.1 hn
      exact declares_stateConfig halus h hr hhas.1 hhas.2.1 hhas.2.2
    | storeState i k m =>
      simp only [Plan.Has, hshape, hsynthesized] at hhas
      cases List.mem_singleton.1 ha
      cases List.mem_singleton.1 hn
      exact declares_stateConfig halus h hr hhas.1 hhas.2.1 hhas.2.2
    | demultiplex i c =>
      simp only [Plan.Has, hshape] at hhas
      obtain ⟨hi, hc, htofino⟩ := hhas
      refine (writers_declared_iff halus h htofino hi hc).2 (fun hs => hnot ⟨hs.1, htofino, hs.2⟩) n ?_
      rw [← Plan.holes_writers]
      exact List.mem_flatMap.2 ⟨a, ha, hn⟩
    | _ => exact absurd ha List.not_mem_nil

end Generator

end Sketch

/-! ### Placements -/

namespace Compile

open Sketch (Generator)

variable {c : Compiler} {files : Files} {g' : Generator} {r : Generator.Request} {p : Sketch.Program}

/-- What a search adds to the constraints of its jobs names declared holes, unless holes decide about the allocation of
state groups. -/
theorem placements_declared_iff (hfits : c.Fits) (halus : c.generator.HasAlus)
    (h : EndsIn (Generator.program r) files c.generator p g') (base : List String) (testcases : String) :
    (∀ j ∈ searchJobs c base testcases, ∀ x ∈ j.constraints.drop base.length, ∃ name, ∃ value : Nat,
        x = name ++ " == " ++ toString value ∧ g'.Declares name) ↔
      ¬ (c.generator.synthesized = true ∧ c.groups ≠ 0) := by
  have hjob {j : Job} (hj : j ∈ searchJobs c base testcases) : ∃ placement : List Nat, placement.length = c.groups ∧
      j.constraints.drop base.length = placementConstraints c.generator.shape placement := by
    obtain ⟨n, hn, rfl⟩ := List.getElem_of_mem hj
    have hn' := length_searchJobs ▸ hn
    rw [searchJobs_getElem hn hn', List.drop_left]
    exact ⟨_, (mem_placements.1 (List.getElem_mem hn')).1, rfl⟩
  obtain ⟨i, hi⟩ := List.exists_mem_of_ne_nil _ halus.stages
  constructor
  · rintro hall ⟨hsynthesized, hgroups⟩
    have hstages : 0 < c.options.stages := by
      have hlt := List.mem_range.1 hi
      have hsame := hfits.stages
      omega
    have hjobs : searchJobs c base testcases ≠ [] := searchJobs_ne_nil hstages
    obtain ⟨j, hj⟩ := List.exists_mem_of_ne_nil _ hjobs
    obtain ⟨placement, hlength, hconstraints⟩ := hjob hj
    have hzero : placement[0]? = some (placement.get ⟨0, by omega⟩) := List.getElem?_eq_getElem _
    obtain ⟨name, value, heq, hdeclared⟩ := hall j hj _
      (hconstraints ▸ mem_placementConstraints.2 ⟨0, _, hzero, i, hi, rfl⟩)
    obtain ⟨rfl, -⟩ := equation_inj heq
    rw [Generator.declares_activeBit halus h, hsynthesized] at hdeclared
    exact nomatch hdeclared.1
  · intro hnot j hj x hx
    obtain ⟨placement, hlength, hconstraints⟩ := hjob hj
    rw [hconstraints] at hx
    obtain ⟨group, stage, hstage, i, hi, rfl⟩ := mem_placementConstraints.1 hx
    have hgroup : group < c.groups := hlength ▸ (List.getElem?_eq_some_iff.1 hstage).1
    refine ⟨_, _, rfl, (Generator.declares_activeBit halus h).2 ⟨?_, hi, ?_⟩⟩
    · exact Bool.eq_false_iff.2 fun hs => hnot ⟨hs, by omega⟩
    · rw [hfits.groups]
      exact List.mem_range.2 hgroup

end Compile

namespace Compiler

variable {o : Options} {files : Files} {c : Compiler}

/-- The packet fields of a choice are packet fields of a program. -/
def InRange (choice : Option (List Int)) (n : Nat) : Prop :=
  ∀ xs, choice = some xs → ∀ f ∈ xs, 0 ≤ f ∧ f < n

variable {n groups : Nat}

theorem mem_below {f : Int} (h : f ∈ below n) : 0 ≤ f ∧ f < n := by
  obtain ⟨m, hm, rfl⟩ := List.mem_map.1 h
  exact ⟨Int.natCast_nonneg m, Int.ofNat_lt.2 (List.mem_range.1 hm)⟩

theorem InRange.given {choice : Option (List Int)} (h : InRange choice n) {xs : List Int}
    (hxs : Compiler.given choice = some xs) : ∀ f ∈ xs, 0 ≤ f ∧ f < n :=
  h xs (given_eq_some hxs)

theorem inputFields_inRange (h : InRange o.inputFields n) :
    ∀ f ∈ (shape o n groups).inputFields, 0 ≤ f ∧ f < n := by
  intro f hf
  have hmem : f ∈ (Compiler.given o.inputFields).getD (below n) := hf
  cases hgiven : Compiler.given o.inputFields with
  | none =>
    rw [hgiven] at hmem
    exact mem_below hmem
  | some xs =>
    rw [hgiven] at hmem
    exact h.given hgiven f hmem

theorem outputFields_inRange (h : InRange o.outputFields n) :
    ∀ f ∈ (shape o n groups).outputFields, 0 ≤ f ∧ f < n := by
  intro f hf
  unfold shape at hf
  cases hfields : Compiler.given o.outputFields with
  | none =>
    cases hgroups : Compiler.given o.outputGroups with
    | none =>
      rw [hfields, hgroups] at hf
      exact mem_below hf
    | some ys =>
      rw [hfields, hgroups] at hf
      exact absurd hf List.not_mem_nil
  | some xs =>
    have hmem : f ∈ xs := by
      cases hgroups : Compiler.given o.outputGroups <;> rwa [hfields, hgroups] at hf
    exact h.given hfields f hmem

/-- Whatever the options are, a constraint that a sketch asserts and a condition of its pipeline name holes that the
sketch declares, unless every container is to have one writer and holes decide about the allocation; and so does what
a search over placements adds, unless holes decide about the allocation. -/
theorem named_holes_declared_iff (hcreate : create o files = .ok c) (hinputs : InRange o.inputFields c.fields)
    (houtputs : InRange o.outputFields c.fields) {g g' : Sketch.Generator} (hg : c.generator.Becomes g)
    {r : Sketch.Generator.Request} (hr : r.synthesized = o.synthesized) {files' : Files} {p : Sketch.Program}
    (h : EndsIn (Sketch.Generator.program r) files' g p g') :
    Text.Codes p.pipelineText (Text.nonblank p.pipelineCode) ∧
    (∀ a ∈ p.constraints, Text.Mentions a.text a.holes) ∧
    (∀ st ∈ p.plan.code, ∀ a ∈ st.conditions, Text.Mentions a.text a.holes) ∧
    ((∀ a ∈ p.constraints, ∀ n ∈ a.holes, g'.Declares n) ↔
      ¬ (o.synthesized = true ∧ o.tofino = true ∧ c.groups ≠ 0)) ∧
    ((∀ st ∈ p.plan.code, ∀ a ∈ st.conditions, ∀ n ∈ a.holes, g'.Declares n) ↔
      ¬ (o.synthesized = true ∧ o.tofino = true ∧ c.groups ≠ 0)) ∧
    ∀ base testcases, (∀ j ∈ Compile.searchJobs { c with generator := g } base testcases,
        ∀ x ∈ j.constraints.drop base.length, ∃ name, ∃ value : Nat,
          x = name ++ " == " ++ toString value ∧ g'.Declares name) ↔
      ¬ (o.synthesized = true ∧ c.groups ≠ 0) := by
  obtain ⟨-, hcreated, hsynthesized, harises⟩ := create_checked hcreate
  have hshape : g.shape = shape o c.fields c.groups := (hg.samePipeline harises).shape.trans hcreated
  have hsame : g.synthesized = o.synthesized := (hg.samePipeline harises).synthesized.trans hsynthesized
  have halus := (hg.arises harises).untouched.hasAlus h
  have hinputs' : ∀ f ∈ g.shape.inputFields, 0 ≤ f ∧ f < g.shape.fields := by
    rw [hshape]
    exact inputFields_inRange hinputs
  have houtputs' : ∀ f ∈ g.shape.outputFields, 0 ≤ f ∧ f < g.shape.fields := by
    rw [hshape]
    exact outputFields_inRange houtputs
  have hcondition : (g.synthesized = true ∧ g.shape.tofino = true ∧ 0 < g.shape.groups) ↔
      o.synthesized = true ∧ o.tofino = true ∧ c.groups ≠ 0 := by
    have htofino : g.shape.tofino = o.tofino := by rw [hshape]; rfl
    have hgroups : g.shape.groups = c.groups := by rw [hshape]; rfl
    rw [hsame, htofino, hgroups, Int.natCast_pos, Nat.pos_iff_ne_zero]
  have hfits : Fits { c with generator := g } := by
    obtain ⟨hstages, hgroups⟩ := create_fits hcreate
    exact ⟨by rw [← hstages, ← (hg.samePipeline harises).shape], by rw [← hgroups, ← (hg.samePipeline harises).shape]⟩
  refine ⟨p.pipelineText_codes, fun a ha => ?_, fun _ _ a _ => a.text_mentions, ?_, ?_, fun base testcases => ?_⟩
  · exact Sketch.Constraint.text_mentions (Sketch.Generator.asserts_ne_given h a ha)
  · rw [Sketch.Generator.asserts_declared_iff halus h hinputs', hcondition]
  · rw [Sketch.Generator.conditions_declared_iff halus h (hr.trans hsame.symm) hinputs' houtputs', hcondition]
  · rw [Compile.placements_declared_iff hfits halus h, hsame]

end Compiler

namespace UndeclaredWriter

/-- The small switch with one writer for each container, if holes decide about the allocation. -/
def options : Compiler.Options :=
  { (SmallSwitch.arguments false).options 1 with synthesized := true, tofino := true }

def request : Sketch.Generator.Request where
  specFile := "p.sk"
  mode := .codegen
  synthesized := true

/-- Whether there is a state group, and a sketch. -/
def sketches (c : Compiler) : Bool :=
  decide (c.groups = 1 ∧ c.fields = 1) &&
    endsWith (fun _ _ => true) (((Sketch.Generator.program request).run SmallSwitch.files).run.run c.generator)

/-- A constraint, a condition and what a search adds name a hole that is not declared. -/
theorem active_hole_undeclared :
    ∃ c p g, Compiler.create options SmallSwitch.files = .ok c ∧
      EndsIn (Sketch.Generator.program request) SmallSwitch.files c.generator p g ∧
      (∃ a ∈ p.constraints, ∃ n ∈ a.holes, ¬ g.Declares n) ∧
      (∃ st ∈ p.plan.code, ∃ a ∈ st.conditions, ∃ n ∈ a.holes, ¬ g.Declares n) ∧
      ∃ j ∈ Compile.searchJobs c [] "", ∃ x ∈ j.constraints, ∀ name, ∀ value : Nat,
        x = name ++ " == " ++ toString value → ¬ g.Declares name := by
  have hcheck : (match Compiler.create options SmallSwitch.files with
      | .ok c => sketches c
      | .error _ => false) = true := by decide +kernel
  split at hcheck
  · next c hcreate =>
    rw [sketches, Bool.and_eq_true, decide_eq_true_eq] at hcheck
    obtain ⟨⟨hgroups, hfields⟩, hends⟩ := hcheck
    obtain ⟨p, g, hends, -⟩ := exists_endsIn _ hends
    have hrange : Compiler.InRange none c.fields := nofun
    obtain ⟨-, -, -, hasserts, hconditions, hplacements⟩ :=
      Compiler.named_holes_declared_iff hcreate hrange hrange .same (r := request) rfl hends
    have hgroups : c.groups ≠ 0 := by omega
    refine ⟨c, p, g, hcreate, hends, ?_, ?_, ?_⟩
    · have hnot := hasserts.not.2 (not_not.2 ⟨rfl, rfl, hgroups⟩)
      simpa only [not_forall, exists_prop] using hnot
    · have hnot := hconditions.not.2 (not_not.2 ⟨rfl, rfl, hgroups⟩)
      simpa only [not_forall, exists_prop] using hnot
    · have hnot := (hplacements [] "").not.2 (not_not.2 ⟨rfl, hgroups⟩)
      simpa only [not_forall, exists_prop, not_exists, not_and, List.length_nil, List.drop_zero] using hnot
  · exact nomatch hcheck

end UndeclaredWriter

end SwitchSynth
