import SwitchSynth.Proofs.Sketch.Constraints

/-!
# The steps of a data path

A data path is put together stage by stage, with lists that differ between the two allocations and between the two
kinds of switch. Here it is said once which steps it has (`Plan.mem_steps_iff`), and then which packet fields and
containers its statements connect.
-/

namespace SwitchSynth.Sketch

namespace Plan

variable {p : Plan} {i : Nat} {s : Step}

/-- What the steps of a data path are: the stages and the places in them that they stand for, and, for the steps that
move packet fields, which of these go with which containers. -/
def Has (p : Plan) : Step → Prop
  | .clearContainer c => c ∈ upTo p.shape.containers
  | .clearState i k => i ∈ upTo p.shape.stages ∧ k ∈ p.units
  | .readField f c => 0 ∈ upTo p.shape.stages ∧ p.synthesized = false ∧ (f, c) ∈ p.shape.inputFields.zipIdx
  | .readFieldIf f c => 0 ∈ upTo p.shape.stages ∧ p.synthesized = true ∧ f ∈ p.shape.inputFields ∧
      c ∈ upTo p.shape.containers
  | .passOn i c => i ∈ upTo p.shape.stages ∧ i ≠ 0 ∧ c ∈ upTo p.shape.containers
  | .stateless i j => i ∈ upTo p.shape.stages ∧ j ∈ upTo p.shape.alus
  | .chooseOperand i k o => i ∈ upTo p.shape.stages ∧ k ∈ p.units ∧ o < p.operands
  | .stateful i k => i ∈ upTo p.shape.stages ∧ k ∈ p.units
  | .loadState i k g | .storeState i k g => i ∈ upTo p.shape.stages ∧ g ∈ upTo p.shape.groups ∧
      if p.synthesized then k ∈ upTo p.shape.containers else k = g
  | .declareOutput i c | .demultiplex i c =>
      i ∈ upTo p.shape.stages ∧ c ∈ upTo p.shape.containers ∧ p.shape.tofino = true
  | .chooseOutput i c => i ∈ upTo p.shape.stages ∧ c ∈ upTo p.shape.containers ∧ p.shape.tofino = false
  | .writeField f c => p.synthesized = false ∧ (f, c) ∈ p.shape.outputFields.zipIdx
  | .writeFieldIf f c => p.synthesized = true ∧ f ∈ p.shape.outputFields ∧ c ∈ upTo p.shape.containers

theorem exists_mem_zipIdx {xs : List Int} {f : Int} : (∃ c, (f, c) ∈ xs.zipIdx) ↔ f ∈ xs := by
  simp [List.mem_iff_getElem?]

theorem mem_readItems : .step s ∈ p.readItems ↔
    (p.synthesized = false ∧ ∃ f c, (f, c) ∈ p.shape.inputFields.zipIdx ∧ s = .readField f c) ∨
    p.synthesized = true ∧ ∃ f ∈ p.shape.inputFields, ∃ c ∈ upTo p.shape.containers, s = .readFieldIf f c := by
  cases h : p.synthesized with
  | false => simp [readItems, h]
  | true =>
    simp only [readItems, h, if_true, List.mem_cons, reduceCtorEq, false_or, List.mem_flatMap, Prod.exists,
      List.mem_map, Item.step.injEq, ← exists_mem_zipIdx, false_and, true_and]
    grind

theorem mem_passItems : .step s ∈ p.passItems i ↔ ∃ c ∈ upTo p.shape.containers, s = .passOn i c := by
  simp [passItems, eq_comm]

theorem mem_loadItems : .step s ∈ p.loadItems i ↔ ∃ g ∈ upTo p.shape.groups, ∃ k,
    (if p.synthesized then k ∈ upTo p.shape.containers else k = g) ∧ s = .loadState i k g := by
  cases h : p.synthesized <;> simp [loadItems, h, eq_comm]

theorem mem_storeItems : .step s ∈ p.storeItems i ↔ ∃ g ∈ upTo p.shape.groups, ∃ k,
    (if p.synthesized then k ∈ upTo p.shape.containers else k = g) ∧ s = .storeState i k g := by
  cases h : p.synthesized <;> simp [storeItems, h, eq_comm]

theorem mem_outputItems : .step s ∈ p.outputItems i ↔ ∃ c ∈ upTo p.shape.containers,
    if p.shape.tofino then s = .declareOutput i c ∨ s = .demultiplex i c else s = .chooseOutput i c := by
  cases h : p.shape.tofino with
  | false => simp [outputItems, h, eq_comm]
  | true =>
    simp only [outputItems, h, if_true, List.cons_append, List.mem_cons, reduceCtorEq, false_or, List.mem_append,
      List.mem_map, Item.step.injEq]
    grind

theorem mem_writeItems : .step s ∈ p.writeItems ↔
    (p.synthesized = false ∧ ∃ f c, (f, c) ∈ p.shape.outputFields.zipIdx ∧ s = .writeField f c) ∨
    p.synthesized = true ∧ ∃ f ∈ p.shape.outputFields, ∃ c ∈ upTo p.shape.containers, s = .writeFieldIf f c := by
  cases h : p.synthesized with
  | false => simp [writeItems, h]
  | true =>
    simp only [writeItems, h, if_true, List.mem_cons, reduceCtorEq, false_or, List.mem_flatMap, Prod.exists,
      List.mem_map, Item.step.injEq, ← exists_mem_zipIdx, false_and, true_and]
    grind

theorem mem_stageItems : .step s ∈ p.stageItems i ↔
    (i = 0 ∧ .step s ∈ p.readItems) ∨ (i ≠ 0 ∧ .step s ∈ p.passItems i) ∨
    (∃ j ∈ upTo p.shape.alus, s = .stateless i j) ∨ (∃ k ∈ p.units, ∃ o < p.operands, s = .chooseOperand i k o) ∨
    .step s ∈ p.loadItems i ∨ (∃ k ∈ p.units, s = .stateful i k) ∨
    .step s ∈ p.outputItems i ∨ .step s ∈ p.storeItems i := by
  have hinputs : .step s ∈ (if i = 0 then p.readItems else p.passItems i) ↔
      (i = 0 ∧ .step s ∈ p.readItems) ∨ (i ≠ 0 ∧ .step s ∈ p.passItems i) := by
    by_cases h : i = 0 <;> simp [h]
  simp only [stageItems, List.cons_append, List.mem_cons, List.mem_append, List.mem_map, List.mem_flatMap,
    List.mem_range, reduceCtorEq, false_or, Item.step.injEq, or_assoc, eq_comm, hinputs]

theorem mem_items : .step s ∈ p.items ↔
    (∃ c ∈ upTo p.shape.containers, s = .clearContainer c) ∨
    (∃ i ∈ upTo p.shape.stages, ∃ k ∈ p.units, s = .clearState i k) ∨
    (∃ i ∈ upTo p.shape.stages, .step s ∈ p.stageItems i) ∨ .step s ∈ p.writeItems := by
  simp only [items, List.cons_append, List.mem_cons, List.mem_append, List.mem_map, List.mem_flatMap, reduceCtorEq,
    false_or, Item.step.injEq, or_assoc, eq_comm]

/-- The steps of a data path, for both allocations and both kinds of switch. -/
theorem mem_steps_iff : s ∈ p.steps ↔ p.Has s := by
  simp only [mem_steps, mem_items, mem_stageItems, mem_readItems, mem_passItems, mem_loadItems, mem_outputItems,
    mem_storeItems, mem_writeItems]
  cases s <;> simp [Has]

end Plan

/-! ### Packet fields and containers -/

def Statement.actions : Statement → List Action
  | declare _ => []
  | act a => [a]
  | guarded _ actions => actions
  | firstOf target branches => branches.map fun b => .set false target (.content b.source)

namespace Plan

variable {p : Plan} {f : Int} {i c : Nat}

/-- A container before a stage takes a packet field. -/
def ReadsField (p : Plan) (f : Int) (i c : Nat) : Prop :=
  ∃ st ∈ p.code, .set false (.input i c) (.content (.field f)) ∈ st.actions

/-- A packet field takes a container behind a stage. -/
def WritesField (p : Plan) (f i : Int) (c : Nat) : Prop :=
  ∃ st ∈ p.code, .set false (.field f) (.content (.output i c)) ∈ st.actions

theorem readsField_iff : p.ReadsField f i c ↔ i = 0 ∧ (.readField f c ∈ p.steps ∨ .readFieldIf f c ∈ p.steps) := by
  simp only [ReadsField, code, List.mem_map, exists_exists_and_eq_and]
  constructor
  · rintro ⟨st, hst, haction⟩
    cases st <;> simp [Step.statement, Statement.actions] at haction <;> grind
  · rintro ⟨rfl, hst | hst⟩
    · exact ⟨_, hst, List.mem_singleton.2 rfl⟩
    · exact ⟨_, hst, List.mem_singleton.2 rfl⟩

theorem writesField_iff {i : Int} :
    p.WritesField f i c ↔ i = p.shape.stages - 1 ∧ (.writeField f c ∈ p.steps ∨ .writeFieldIf f c ∈ p.steps) := by
  simp only [WritesField, code, List.mem_map, exists_exists_and_eq_and]
  constructor
  · rintro ⟨st, hst, haction⟩
    cases st <;> simp [Step.statement, Statement.actions] at haction <;> grind
  · rintro ⟨rfl, hst | hst⟩
    · exact ⟨_, hst, List.mem_singleton.2 rfl⟩
    · exact ⟨_, hst, List.mem_singleton.2 rfl⟩

/-- With the canonical allocation each packet field that is read has the container of its place in the list. -/
theorem readsField_within (h : p.synthesized = true ∨ p.shape.inputFields.length ≤ p.shape.containers)
    (hreads : p.ReadsField f i c) : (c : Int) < p.shape.containers := by
  obtain ⟨-, hst | hst⟩ := readsField_iff.1 hreads
  · obtain ⟨-, hcanonical, hmem⟩ := mem_steps_iff.1 hst
    have hlength := List.snd_lt_of_mem_zipIdx hmem
    rw [hcanonical] at h
    simp only [Bool.false_eq_true, false_or] at h
    omega
  · obtain ⟨-, -, -, hc⟩ := mem_steps_iff.1 hst
    have hlt := List.mem_range.1 hc
    omega

/-- The packet fields that are written fit into the containers unless there are more of them than containers and the
allocation is canonical. -/
theorem writesField_within_iff : (∀ f i c, p.WritesField f i c → (c : Int) < p.shape.containers) ↔
    p.synthesized = true ∨ p.shape.outputFields.length ≤ p.shape.containers.toNat := by
  simp only [writesField_iff, mem_steps_iff, Has]
  constructor
  · intro hall
    by_contra hover
    simp only [not_or, Bool.not_eq_true, Nat.not_le] at hover
    obtain ⟨hcanonical, hlt⟩ := hover
    have hmem : (p.shape.outputFields.get ⟨_, hlt⟩, p.shape.containers.toNat) ∈ p.shape.outputFields.zipIdx :=
      List.mk_mem_zipIdx_iff_getElem?.2 (List.getElem?_eq_getElem hlt)
    have hwithin := hall _ _ _ ⟨rfl, .inl ⟨hcanonical, hmem⟩⟩
    omega
  · rintro hfits f i c ⟨-, ⟨hcanonical, hmem⟩ | ⟨-, -, hc⟩⟩
    · have hlength := List.snd_lt_of_mem_zipIdx hmem
      rw [hcanonical] at hfits
      simp only [Bool.false_eq_true, false_or] at hfits
      omega
    · have hlt := List.mem_range.1 hc
      omega

end Plan

end SwitchSynth.Sketch
