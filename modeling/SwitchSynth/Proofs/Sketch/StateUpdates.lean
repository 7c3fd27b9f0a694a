import SwitchSynth.Proofs.P4.Operands
import SwitchSynth.Proofs.Sketch.Constraints

/-!
# Updates of state

With the canonical allocation the stateful ALU of a state group works in every stage, but it takes the state of the
group and gives it back only in a stage in which the group is active. A group is active in one stage at most, so its
state is left alone or replaced once, by what the ALU makes of it there.
-/

namespace SwitchSynth.Sketch

theorem Mux.select_lt {m : Mux} (hinputs : 1 ≤ m.inputs) (v : Int) : m.select v < m.inputs := by
  unfold Mux.select Mux.cases Mux.lastInput
  rw [List.find?_map, Option.map_map]
  cases hfind : (List.range (m.inputs - 1)).find? ((fun c : Nat × Nat => (c.1 : Int) == v) ∘ fun i => (i, i)) with
  | none =>
    show m.inputs - 1 < m.inputs
    omega
  | some i =>
    have hi : i < m.inputs - 1 := List.mem_range.1 (List.mem_of_find?_eq_some hfind)
    show i < m.inputs
    omega

variable {p : Plan} {F : Interpretation p.slots} {σ σ' : Store} {i k o : Nat} {s : Nat}

namespace Plan

/-- The multiplexer of an operand of a stateful ALU. -/
def operandSelector (p : Plan) (i k o : Nat) : Mux :=
  ⟨p.operandMux i k o, p.shape.containers.toNat⟩

/-- The operands of a stateful ALU: what its multiplexers select of the containers before its stage. -/
def selected (p : Plan) (hole : String → Int) (σ : Store) (i k : Nat) : List Int :=
  (List.range p.operands).map fun o =>
    σ (.input i ((p.operandSelector i k o).select (hole (p.operandSelector i k o).control)))

/-- The state that the stateful ALU of a group leaves in a stage when it is executed once. -/
def executed (p : Plan) (F : Interpretation p.slots) (i k : Nat) (state : Fin p.slots → Int) (operands : List Int) :
    Fin p.slots → Int :=
  (F.stateful (p.statefulName i k) state operands
    (p.statefulHoles.map fun h => F.hole (p.statefulName i k ++ "_" ++ h ++ "_global"))).1

/-! ### Operands and states -/

variable {hole : String → Int} {st : Step} {c : Nat}

theorem rank_of_writes_input (h : st.Writes p hole (.input i c)) :
    st.rank p ≤ 8 * i + 2 := by
  cases h <;> simp [Step.rank]

/-- Behind a run, an operand of a stateful ALU is the container that its multiplexer selects. -/
theorem operand_eq (h : p.synthesized = false) (hrun : p.exec F p.steps σ = some σ') (hi : i ∈ upTo p.shape.stages)
    (hk : k ∈ upTo p.shape.groups) (ho : o < p.operands) (hcontainers : 1 ≤ p.shape.containers.toNat) :
    σ' (.operand i k o) =
      σ' (.input i ((p.operandSelector i k o).select (F.hole (p.operandSelector i k o).control))) := by
  obtain ⟨before, after, τ, τ', m⟩ := exists_moment (steps_ordered h) hrun (chooseOperand_mem h hi hk ho)
  have hselect : (p.operandSelector i k o).select (F.hole (p.operandSelector i k o).control) <
      p.shape.containers.toNat := Mux.select_lt hcontainers _
  have hruns : Function.update τ (.operand i k o) (((p.inputVariables i).map τ).getD
      ((p.operandSelector i k o).select (F.hole (p.operandSelector i k o).control)) 0) = τ' := Option.some.inj m.runs
  generalize (p.operandSelector i k o).select (F.hole (p.operandSelector i k o).control) = c at hselect hruns ⊢
  have hpassed : ((p.inputVariables i).map τ).getD c 0 = τ (.input i c) := by
    simp [inputVariables, upTo, List.getD_eq_getElem?_getD, hselect]
  -- Neither the operand nor the container is written again.
  have hoperand : σ' (.operand i k o) = τ' (.operand i k o) := by
    refine m.eq_after fun b _ hwrites => .inl ?_
    cases hwrites
    rfl
  have hinput : σ' (.input i c) = τ' (.input i c) := by
    refine m.eq_after fun b _ hwrites => .inr ?_
    have hrank := rank_of_writes_input hwrites
    show b.rank p < 8 * i + 4
    omega
  rw [hoperand, hinput, ← hruns, Function.update_self, Function.update_of_ne (by simp), hpassed]

theorem map_operand_eq (h : p.synthesized = false) (hrun : p.exec F p.steps σ = some σ')
    (hi : i ∈ upTo p.shape.stages) (hk : k ∈ upTo p.shape.groups)
    (hcontainers : ∀ o < p.operands, 1 ≤ p.shape.containers.toNat) :
    ((List.range p.operands).map fun o => σ' (.operand i k o)) = p.selected F.hole σ' i k := by
  refine List.map_congr_left fun o ho => ?_
  have ho := List.mem_range.1 ho
  exact operand_eq h hrun hi hk ho (hcontainers o ho)

theorem state_of_inactive (h : p.synthesized = false) (hrun : p.exec F p.steps σ = some σ')
    (hinactive : ∀ i ∈ upTo p.shape.stages, F.hole (p.stateConfig i k k) ≠ 1) (s : Nat) :
    σ' (.state k s) = σ (.state k s) := by
  refine exec_of_not_writes (fun st hst hwrites => ?_) hrun
  generalize hv : Variable.state k s = v at hwrites
  cases hwrites with
  | @storeState i k' g s' hguard =>
    obtain ⟨rfl, hi⟩ := canonical_of_mem_steps h hst
    cases hv
    exact hinactive i hi hguard
  | _ => cases hv

/-- The state of a group takes the slots that a stateful ALU has left. -/
theorem foldl_copies {n : Nat} (G : Interpretation n) (σ : Store) (i k : Nat) {s count : Nat} (hs : s < count) :
    ((List.range count).map fun s : Nat => Action.set false (.state k s) (.content (.slot i k s))).foldl
      (Action.run G) σ (.state k s) = σ (.slot i k s) := by
  induction count with
  | zero => omega
  | succ count ih =>
    rw [List.range_succ, List.map_append, List.foldl_append]
    show Function.update _ (Variable.state k count) _ (Variable.state k s) = _
    by_cases hlast : s = count
    · rw [hlast, Function.update_self]
      refine foldl_of_not_writes (fun a ha hwrites => ?_) σ
      obtain ⟨_, -, rfl⟩ := List.mem_map.1 ha
      exact nomatch hwrites
    · rw [Function.update_of_ne (by simp [hlast])]
      exact ih (by omega)

theorem lookup_slotValues (p : Plan) (k : Nat) (hs : s < p.slots) :
    (p.slotValues k).lookup (s : Int) = some (.content (.state k s)) := by
  have hnumbers (xs : List Nat) (hs : s ∈ xs) :
      (xs.map fun x : Nat => ((x : Int), Value.content (.state k x))).lookup (s : Int) =
        some (.content (.state k s)) := by
    induction xs with
    | nil => exact nomatch hs
    | cons x xs ih =>
      rw [List.map_cons, List.lookup_cons]
      by_cases hx : s = x
      · simp [hx]
      · have hne : ((s : Int) == (x : Int)) = false := by
          rw [beq_eq_false_iff_ne]
          omega
        rw [hne]
        exact ih ((List.mem_cons.1 hs).resolve_left hx)
  exact hnumbers _ (List.mem_range.2 hs)

theorem slot_writers {s : Int} (h : p.synthesized = false) (hst : st ∈ p.steps)
    (hwrites : st.Writes p F.hole (.slot i k s)) :
    st = .clearState i k ∨ st = .loadState i k k ∨ st = .stateful i k := by
  cases hwrites with
  | clearState => exact .inl rfl
  | loadState s hguard =>
    obtain ⟨rfl, -⟩ := canonical_of_mem_steps h hst
    exact .inr (.inl rfl)
  | statefulSlot => exact .inr (.inr rfl)

theorem state_writers (h : p.synthesized = false) (hst : st ∈ p.steps)
    (hothers : ∀ j ∈ upTo p.shape.stages, j ≠ i → F.hole (p.stateConfig j k k) ≠ 1)
    (hwrites : st.Writes p F.hole (.state k s)) : st = .storeState i k k := by
  generalize hv : Variable.state k s = v at hwrites
  cases hwrites with
  | @storeState j k' g s' hguard =>
    obtain ⟨rfl, hj⟩ := canonical_of_mem_steps h hst
    cases hv
    by_cases hji : j = i
    · rw [hji]
    · exact absurd hguard (hothers j hj hji)
  | _ => cases hv

/-- A group that is active in one stage takes what its stateful ALU makes of its state there. -/
theorem state_of_active (h : p.synthesized = false) (hrun : p.exec F p.steps σ = some σ')
    (hi : i ∈ upTo p.shape.stages) (hk : k ∈ upTo p.shape.groups) (hactive : F.hole (p.stateConfig i k k) = 1)
    (hothers : ∀ j ∈ upTo p.shape.stages, j ≠ i → F.hole (p.stateConfig j k k) ≠ 1)
    (hcontainers : ∀ o < p.operands, 1 ≤ p.shape.containers.toNat) (s : Fin p.slots) :
    σ' (.state k s) = p.executed F i k (fun s => σ (.state k s)) (p.selected F.hole σ' i k) s := by
  -- The ALU is executed between the step that loads the state and the step that stores it.
  obtain ⟨before, after, τ, τ', hexecute⟩ := exists_moment (steps_ordered h) hrun (stateful_mem h hi hk)
  have hload : .loadState i k k ∈ before := hexecute.mem_before (loadState_mem h hi hk) (Nat.lt_succ_self _)
  have hstore : .storeState i k k ∈ after :=
    hexecute.mem_after (storeState_mem h hi hk) (show 8 * i + 6 < 8 * i + 9 by omega)
  obtain ⟨_, _, ρ, ρ', hload⟩ := exists_moment hexecute.ordered_before hexecute.runs_before hload
  obtain ⟨_, _, ω, ω', hstore⟩ := exists_moment hexecute.ordered_after hexecute.runs_after hstore
  have hloaded (s : Fin p.slots) : τ (.slot i k (s : Nat)) = σ (.state k s) := by
    have hfirst : ρ (.state k s) = σ (.state k s) := by
      refine hload.eq_before fun a ha hwrites => .inr ?_
      rw [state_writers h (hexecute.mem_steps_of_before ha) hothers hwrites]
      show 8 * i + 5 < 8 * i + 9
      omega
    have hruns : (if F.hole (p.stateConfig i k k) = 1 then (Action.fill false i k (p.slotValues k)).run F ρ else ρ) =
        ρ' := Option.some.inj hload.runs
    have hfilled : ρ' (.slot i k (s : Nat)) = ρ (.state k s) := by
      rw [← hruns, if_pos hactive, Action.run_fill, Store.setSlots_slot, lookup_slotValues p k s.isLt]
      rfl
    have hkept : τ (.slot i k (s : Nat)) = ρ' (.slot i k (s : Nat)) := by
      refine hload.eq_after fun a ha hwrites => ?_
      rcases slot_writers h (hexecute.mem_steps_of_before ha) hwrites with rfl | rfl | rfl
      · exact .inr (show 1 < 8 * i + 5 by omega)
      · exact .inl rfl
      · exact absurd rfl (hexecute.earlier _ ha).1
    rw [hkept, hfilled, hfirst]
  have hruns : Function.update (τ.setSlots i k fun s =>
      if hs : 0 ≤ s ∧ s.toNat < p.slots then
        (F.stateful (p.statefulName i k) (fun s => τ (.slot i k (s : Nat)))
          (((List.range p.operands).map (.operand i k)).map τ)
          ((p.statefulHoles.map fun h => p.statefulName i k ++ "_" ++ h ++ "_global").map F.hole)).1 ⟨s.toNat, hs.2⟩
      else τ (.slot i k s)) (.returned i k) _ = τ' := Option.some.inj hexecute.runs
  have hoperands (o : Nat) : τ (.operand i k o) = σ' (.operand i k o) := by
    have hkept : σ' (.operand i k o) = τ' (.operand i k o) := by
      refine hexecute.eq_after fun b _ hwrites => .inr ?_
      cases hwrites
      show 8 * i + 4 < 8 * i + 6
      omega
    rw [hkept, ← hruns, Function.update_of_ne (by simp), Store.setSlots_of_ne _ _ (by simp)]
  have hexecuted : τ' (.slot i k (s : Nat)) = p.executed F i k (fun s => τ (.slot i k (s : Nat)))
      ((List.range p.operands).map fun o => τ (.operand i k o)) s := by
    rw [← hruns, Function.update_of_ne (by simp), Store.setSlots_slot, dif_pos ⟨by omega, s.isLt⟩, List.map_map,
      List.map_map]
    rfl
  have hstored : σ' (.state k s) = τ' (.slot i k (s : Nat)) := by
    have hlast : σ' (.state k s) = ω' (.state k s) := by
      refine hstore.eq_after fun b hb hwrites => .inl ?_
      exact state_writers h (hexecute.mem_steps_of_after hb) hothers hwrites
    have hruns : (if F.hole (p.stateConfig i k k) = 1 then
        ((List.range p.slots).map fun s : Nat => Action.set false (.state k s) (.content (.slot i k s))).foldl
          (Action.run F) ω else ω) = ω' := Option.some.inj hstore.runs
    have hkept : ω (.slot i k (s : Nat)) = τ' (.slot i k (s : Nat)) := by
      -- Behind the ALU nothing writes its state.
      refine hstore.eq_before fun b hb hwrites => ?_
      obtain ⟨hne, hle⟩ := hexecute.later b hb
      rcases slot_writers h (hexecute.mem_steps_of_after hb) hwrites with rfl | rfl | rfl
      · exact absurd hle (show ¬ 8 * i + 6 ≤ 1 by omega)
      · exact absurd hle (show ¬ 8 * i + 6 ≤ 8 * i + 5 by omega)
      · exact absurd rfl hne
    rw [hlast, ← hruns, if_pos hactive, foldl_copies F ω i k s.isLt, hkept]
  rw [hstored, hexecuted, funext hloaded]
  simp only [hoperands, map_operand_eq h hrun hi hk hcontainers]

/-! ### Containers -/

/-- The containers before the first stage hold the packet fields of their numbers and zero where there is none, and
those before a later stage hold what the stage before it left. -/
structure Fed (p : Plan) (σ σ' : Store) : Prop where
  first : 0 ∈ upTo p.shape.stages → ∀ c ∈ upTo p.shape.containers,
    σ' (.input 0 c) = (p.shape.inputFields[c]?.map fun f => σ (.field f)).getD 0
  later : ∀ i, i + 1 ∈ upTo p.shape.stages → ∀ c ∈ upTo p.shape.containers,
    σ' (.input (i + 1) c) = σ' (.output i c)

theorem input_writers (h : p.synthesized = false) (hst : st ∈ p.steps)
    (hwrites : st.Writes p hole (.input 0 c)) :
    st = .clearContainer c ∨ ∃ f, st = .readField f c ∧ p.shape.inputFields[c]? = some f := by
  have hcanonical := canonical_of_mem_steps h hst
  cases hwrites with
  | clearContainer => exact .inl rfl
  | readField f => exact .inr ⟨f, rfl, List.mem_zipIdx_iff_getElem?.1 hcanonical⟩
  | readFieldIf => exact hcanonical.elim
  | passOn => exact absurd rfl hcanonical

theorem input_first (h : p.synthesized = false) (hrun : p.exec F p.steps σ = some σ')
    (hstage : 0 ∈ upTo p.shape.stages) (hc : c ∈ upTo p.shape.containers) :
    σ' (.input 0 c) = (p.shape.inputFields[c]?.map fun f => σ (.field f)).getD 0 := by
  cases hfield : p.shape.inputFields[c]? with
  | none =>
    have hmem : .clearContainer c ∈ p.steps := by
      rw [steps_eq h]
      simp [hc]
    obtain ⟨before, after, τ, τ', m⟩ := exists_moment (steps_ordered h) hrun hmem
    have hruns : Function.update τ (.input 0 c) 0 = τ' := Option.some.inj m.runs
    have hkept : σ' (.input 0 c) = τ' (.input 0 c) := by
      refine m.eq_after fun b hb hwrites => .inl ?_
      rcases input_writers h hb hwrites with heq | ⟨f, -, hf⟩
      · exact heq
      · exact nomatch hfield.symm.trans hf
    rw [hkept, ← hruns, Function.update_self]
    rfl
  | some f =>
    have hmem : .readField f c ∈ p.steps := by
      refine mem_steps_of_mem_stageSteps h hstage ?_
      have hzip : (f, c) ∈ p.shape.inputFields.zipIdx := List.mem_zipIdx_iff_getElem?.2 hfield
      simp only [stageSteps, inputSteps, if_pos, List.mem_append]
      exact .inl (List.mem_map.2 ⟨(f, c), hzip, rfl⟩)
    obtain ⟨before, after, τ, τ', m⟩ := exists_moment (steps_ordered h) hrun hmem
    have hruns : Function.update τ (.input 0 c) (τ (.field f)) = τ' := Option.some.inj m.runs
    have hkept : σ' (.input 0 c) = τ' (.input 0 c) := by
      refine m.eq_after fun b hb hwrites => ?_
      rcases input_writers h hb hwrites with rfl | ⟨f', rfl, hf'⟩
      · exact .inr (show 0 < 2 by omega)
      · rw [Option.some.inj (hfield.symm.trans hf')]
        exact .inl rfl
    -- Packet fields are written behind all stages.
    have hfirst : τ (.field f) = σ (.field f) := by
      refine m.eq_before fun a ha hwrites => .inr ?_
      have hstages : 0 < p.shape.stages.toNat := List.mem_range.1 hstage
      cases hwrites <;> exact (show 2 < 8 * p.shape.stages.toNat + 2 by omega)
    rw [hkept, ← hruns, Function.update_self, hfirst]
    rfl

theorem input_later (h : p.synthesized = false) (hrun : p.exec F p.steps σ = some σ')
    (hi : i + 1 ∈ upTo p.shape.stages) (hc : c ∈ upTo p.shape.containers) :
    σ' (.input (i + 1) c) = σ' (.output i c) := by
  have hmem : .passOn (i + 1) c ∈ p.steps := by
    refine mem_steps_of_mem_stageSteps h hi ?_
    simp [stageSteps, inputSteps, hc]
  obtain ⟨before, after, τ, τ', m⟩ := exists_moment (steps_ordered h) hrun hmem
  have hbehind : (((i + 1 : Nat) : Int) - 1) = i := by omega
  have hruns : Function.update τ (.input (i + 1) c) (τ (.output (((i + 1 : Nat) : Int) - 1) c)) = τ' :=
    Option.some.inj m.runs
  have hinput : σ' (.input (i + 1) c) = τ' (.input (i + 1) c) := by
    refine m.eq_after fun b _ hwrites => .inl ?_
    cases hwrites
    rfl
  have houtput : σ' (.output i c) = τ' (.output i c) := by
    refine m.eq_after fun b _ hwrites => .inr ?_
    generalize hv : Variable.output i c = v at hwrites
    cases hwrites <;> cases hv <;> simp [Step.rank] <;> omega
  rw [hinput, houtput, ← hruns, hbehind, Function.update_self, Function.update_of_ne (by simp)]

theorem fed (h : p.synthesized = false) (hrun : p.exec F p.steps σ = some σ') : p.Fed σ σ' :=
  ⟨fun hstage _ hc => input_first h hrun hstage hc, fun _ hi _ hc => input_later h hrun hi hc⟩

end Plan

/-! ### Active groups -/

theorem Plan.stateConfig_eq (h : p.synthesized = false) (i k g : Nat) :
    p.stateConfig i k g = Allocation.activeBit p.shape i g := by
  simp [stateConfig, h, Allocation.activeBit, String.append_assoc]

namespace Generator

variable {files : Files} {g g' : Generator} {r : Request} {p : Program} {hole : String → Int}

theorem activeBit_eq (hg : g.synthesized = false) (h : EndsIn (program r) files g p g')
    (hvalues : ∀ h ∈ g'.holes, h.Admits (hole h.name)) {i k : Nat} (hi : i ∈ upTo g.shape.stages)
    (hk : k ∈ upTo g.shape.groups) :
    hole (Allocation.activeBit g.shape i k) = 0 ∨ hole (Allocation.activeBit g.shape i k) = 1 := by
  have hbit : Allocation.activeBit g.shape i k ∈ (Allocation.canonical g.shape).bits :=
    List.mem_flatMap.2 ⟨i, hi, List.mem_map_of_mem hk⟩
  obtain ⟨hlow, hhigh⟩ := hvalues _ ((program_constraints hg h).2 _ hbit)
  have hgreatest : (Hole.mk (Allocation.activeBit g.shape i k) 1).greatest = 1 := rfl
  rw [hgreatest] at hhigh
  dsimp only at hlow hhigh
  omega

theorem active_at_most_once (hg : g.synthesized = false) (h : EndsIn (program r) files g p g')
    (hvalues : ∀ h ∈ g'.holes, h.Admits (hole h.name)) (hconstraints : ∀ c ∈ p.constraints, c.Holds hole) {k : Nat}
    (hk : k ∈ upTo g.shape.groups) :
    (∀ i ∈ upTo g.shape.stages, hole (Allocation.activeBit g.shape i k) = 0) ∨
    ∃ i ∈ upTo g.shape.stages, hole (Allocation.activeBit g.shape i k) = 1 ∧
      ∀ j ∈ upTo g.shape.stages, j ≠ i → hole (Allocation.activeBit g.shape j k) = 0 := by
  by_cases hsome : ∃ i ∈ upTo g.shape.stages, hole (Allocation.activeBit g.shape i k) = 1
  · obtain ⟨i, hi, hone⟩ := hsome
    have hmem : .sum .wide ((upTo g.shape.stages).map fun i => Allocation.activeBit g.shape i k) (.atMost 1) ∈
        p.constraints := by
      rw [(program_constraints hg h).1]
      exact List.mem_append_right _ (List.mem_append_right _ (List.mem_map_of_mem hk))
    have hsum : (((upTo g.shape.stages).map fun i => Allocation.activeBit g.shape i k).map hole).sum ≤ 1 :=
      hconstraints _ hmem
    rw [List.map_map] at hsum
    refine .inr ⟨i, hi, hone, fun j hj hne => eq_zero_of_sum_le_one (fun j hj => ?_) hsum hi hone hj hne⟩
    have hbit := activeBit_eq hg h hvalues hj hk
    show 0 ≤ hole (Allocation.activeBit g.shape j k)
    omega
  · refine .inl fun i hi => (activeBit_eq hg h hvalues hi hk).resolve_right fun hone => hsome ⟨i, hi, hone⟩

/-- With the canonical allocation the pipeline of a sketch runs to the end for all values of the holes that satisfy its
assertions, whatever its ALUs compute and whatever packet and state it is given. Each state group is active in no stage
and keeps its state, or is active in exactly one stage and has the state that the stateful ALU of the group leaves
there when it is executed once, on the state that the group had and on the containers that are selected before the
stage. -/
theorem state_groups_updated_at_most_once (hg : g.synthesized = false) (hr : r.synthesized = false)
    (h : EndsIn (program r) files g p g') :
    Text.Codes p.pipelineText (Text.nonblank p.pipelineCode) ∧ Function.Injective Variable.name ∧
    ∀ F : Interpretation p.plan.slots, (∀ h ∈ g'.holes, h.Admits (F.hole h.name)) →
      (∀ c ∈ p.constraints, c.Holds F.hole) → ∀ σ, ∃ σ', run F p.plan.code σ = some σ' ∧ p.plan.Fed σ σ' ∧
        ∀ k ∈ upTo g.shape.groups,
          ((∀ i ∈ upTo g.shape.stages, F.hole (Allocation.activeBit g.shape i k) = 0) ∧
            ∀ s : Fin p.plan.slots, σ' (.state k s) = σ (.state k s)) ∨
          ∃ i ∈ upTo g.shape.stages, F.hole (Allocation.activeBit g.shape i k) = 1 ∧
            (∀ j ∈ upTo g.shape.stages, j ≠ i → F.hole (Allocation.activeBit g.shape j k) = 0) ∧
            ∀ s : Fin p.plan.slots, σ' (.state k s) =
              p.plan.executed F i k (fun s => σ (.state k s)) (p.plan.selected F.hole σ' i k) s := by
  refine ⟨p.pipelineText_codes, fun _ _ => Variable.name_inj, fun F hvalues hconstraints σ => ?_⟩
  have hcanonical : p.plan.synthesized = false := (program_synthesized h).trans hr
  have hshape := program_shape h
  obtain ⟨σ', hrun⟩ := exists_run (fun s hs => (program_decided hg hr h hconstraints s hs).defined) σ
  refine ⟨σ', hrun, Plan.fed hcanonical hrun, fun k hk => ?_⟩
  have hconfig (i : Nat) : p.plan.stateConfig i k k = Allocation.activeBit g.shape i k := by
    rw [Plan.stateConfig_eq hcanonical, hshape]
  rcases active_at_most_once hg h hvalues hconstraints hk with hnone | ⟨i, hi, hone, hothers⟩
  · refine .inl ⟨hnone, fun s => Plan.state_of_inactive hcanonical hrun (fun i hi => ?_) s⟩
    rw [hconfig, hnone i (hshape ▸ hi)]
    exact Int.zero_ne_one
  · refine .inr ⟨i, hi, hone, hothers, ?_⟩
    have hcontainers : ∀ o < p.plan.operands, 1 ≤ p.plan.shape.containers.toNat := by
      intro o ho
      have hunit : k ∈ g.units := by
        rw [units, namingPlan, Plan.units, hg]
        exact hk
      rw [hshape]
      exact ((program_hasMux h).2 i (List.mem_range.1 hi) k hunit o ho).inputs_pos
    refine Plan.state_of_active hcanonical hrun (hshape ▸ hi) (hshape ▸ hk) ((congrArg F.hole (hconfig i)).trans hone)
      (fun j hj hne => ?_) hcontainers
    rw [hconfig, hothers j (hshape ▸ hj) hne]
    exact Int.zero_ne_one

end Generator

namespace SecondStageActive

/-- A stateful and a stateless ALU with one packet field each, and a program. -/
def files : Files :=
  .ofList
    [("keep", "type:stateful state variables:\x7bs\x7d hole variables:\x7b\x7d packet fields:\x7bx\x7d return s;"),
     ("pass", "// Max value of opcode is 1\ntype:stateless state variables:\x7b\x7d " ++
       "hole variables:\x7bopcode\x7d packet fields:\x7bx\x7d return x;"),
     ("program", "")]

/-- Two stages with one container and one state group, in which the container has one writer. -/
def generator : Generator :=
  { shape := ⟨"net", 1, 1, 1, 2, 1, [0], [0], [0], 1, true⟩
    synthesized := false
    statefulFile := "keep"
    statelessFile := "pass"
    constants := ⟨["0", "1"], true⟩
    constantBits := 1 }

def request : Generator.Request :=
  { specFile := "program", mode := .codegen, synthesized := false }

/-- The container is written by its stateless ALU in the first stage and by the active stateful ALU in the second. -/
def value (hole : String) : Int :=
  if hole = "net_stateless_alu_0_0_demux_ctrl" ∨ hole = "net_salu_config_1_0" then 1 else 0

/-- A stateful ALU adds its operands to every slot. -/
def adding (n : Nat) : Interpretation n where
  hole := value
  stateless _ inputs _ := inputs.sum
  stateful _ state operands _ := (fun s => state s + operands.sum, 0)

/-- Whether the values satisfy a sketch that has one operand and one slot. -/
def satisfied (p : Program) (g : Generator) : Bool :=
  g.holes.all (fun h => decide (h.Admits (value h.name))) && p.constraints.all (fun c => decide (c.Holds value)) &&
    decide (p.plan.operands = 1) && decide (p.plan.slots = 1)

/-- A group that is active in the second stage takes its state with the container before that stage added. -/
theorem second_stage_adds_container :
    ∃ p g, EndsIn (Generator.program request) files generator p g ∧
      (∀ h ∈ g.holes, h.Admits (value h.name)) ∧ (∀ c ∈ p.constraints, c.Holds value) ∧ p.plan.slots = 1 ∧
      ∀ σ, ∃ σ', run (adding p.plan.slots) p.plan.code σ = some σ' ∧
        σ' (.state 0 0) = σ (.state 0 0) + σ' (.output 0 0) := by
  obtain ⟨p, g, hends, hsatisfied⟩ := exists_endsIn (m := Generator.program request) (r := files) (s := generator)
    satisfied (by decide +kernel)
  simp only [satisfied, Bool.and_eq_true, List.all_eq_true, decide_eq_true_eq] at hsatisfied
  obtain ⟨⟨⟨hvalues, hconstraints⟩, hoperands⟩, hslots⟩ := hsatisfied
  refine ⟨p, g, hends, hvalues, hconstraints, hslots, fun σ => ?_⟩
  obtain ⟨-, -, hupdates⟩ := Generator.state_groups_updated_at_most_once rfl rfl hends
  obtain ⟨σ', hrun, hfed, hgroups⟩ := hupdates (adding p.plan.slots) hvalues hconstraints σ
  have hactive : value (Allocation.activeBit generator.shape 1 0) = 1 := by decide +kernel
  have hinactive : value (Allocation.activeBit generator.shape 0 0) = 0 := by decide +kernel
  refine ⟨σ', hrun, ?_⟩
  rcases hgroups 0 (by decide) with ⟨hnone, -⟩ | ⟨i, hi, hone, -, hstate⟩
  · exact absurd (hactive.symm.trans (hnone 1 (by decide))) Int.one_ne_zero
  · have hi : i = 1 := by
      have hlt : i < 2 := List.mem_range.1 hi
      have hne : i ≠ 0 := by
        rintro rfl
        exact absurd (hinactive.symm.trans hone) Int.zero_ne_one
      omega
    subst hi
    have hshape : p.plan.shape = generator.shape := Generator.program_shape hends
    have hinput : σ' (.input 1 0) = σ' (.output 0 0) := hfed.later 0 (by rw [hshape]; decide) 0 (by rw [hshape]; decide)
    -- There is only one container to select.
    have hselect : (p.plan.operandSelector 1 0 0).select (value (p.plan.operandSelector 1 0 0).control) = 0 := by
      have hone : (p.plan.operandSelector 1 0 0).inputs = 1 := by
        show p.plan.shape.containers.toNat = 1
        rw [hshape]
        rfl
      have hlt := Mux.select_lt (Nat.le_of_eq hone.symm) (value (p.plan.operandSelector 1 0 0).control)
      omega
    have hselected : (p.plan.selected value σ' 1 0).sum = σ' (.output 0 0) := by
      rw [Plan.selected, hoperands]
      simp [hselect, hinput]
    rw [← hselected]
    exact hstate ⟨0, by omega⟩

end SecondStageActive

end SwitchSynth.Sketch
