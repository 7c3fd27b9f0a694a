import Mathlib.Logic.Function.Basic
import SwitchSynth.Proofs.Sketch.Statements

/-!
# Running a pipeline

The statements of a pipeline change the values of its variables. What the holes are and what the ALUs compute is left
open. A run stops only where no branch of a chain holds. A variable keeps its value as long as no statement writes it
(`run_of_not_writes`), and the steps of a pipeline are in an order in which every container, operand and state is
written before it is used (`Plan.steps_ordered`), so its value can be followed from the step that writes it to the end
of the run.
-/

namespace SwitchSynth.Sketch

/-- What the holes and the ALUs of a pipeline stand for, where the state of a stateful ALU has `n` slots. -/
structure Interpretation (n : Nat) where
  hole : String → Int
  /-- What a stateless ALU returns, by its name, for some inputs and holes. -/
  stateless : String → List Int → List Int → Int
  /-- The state that a stateful ALU leaves and what it returns, by its name, for a state, some operands and holes. -/
  stateful : String → (Fin n → Int) → List Int → List Int → (Fin n → Int) × Int

abbrev Store := Variable → Int

def Store.setSlots (σ : Store) (stage unit : Nat) (state : Int → Int) : Store
  | .slot i k s => if i = stage ∧ k = unit then state s else σ (.slot i k s)
  | v => σ v

@[simp] theorem Store.setSlots_slot (σ : Store) (i k : Nat) (state : Int → Int) (s : Int) :
    σ.setSlots i k state (.slot i k s) = state s :=
  if_pos ⟨rfl, rfl⟩

theorem Store.setSlots_of_ne (σ : Store) {i k : Nat} (state : Int → Int) {v : Variable} (h : ∀ s, v ≠ .slot i k s) :
    σ.setSlots i k state v = σ v := by
  cases v with
  | slot i' k' s =>
    refine if_neg ?_
    rintro ⟨rfl, rfl⟩
    exact h s rfl
  | _ => rfl

variable {n : Nat} {F : Interpretation n} {hole : String → Int} {σ σ' τ : Store} {v : Variable}

/-! ### What statements do -/

def Value.eval (F : Interpretation n) (σ : Store) : Value → Int
  | zero => 0
  | content v => σ v
  | passed m inputs => (inputs.map σ).getD (m.select (F.hole m.control)) 0
  | computed f inputs holes => F.stateless f (inputs.map σ) (holes.map F.hole)

/-- What an action does. A slot that is not filled is zero. -/
def Action.run (F : Interpretation n) (σ : Store) : Action → Store
  | set _ v value => Function.update σ v (value.eval F σ)
  | fill _ i k values => σ.setSlots i k fun s => ((values.lookup s).map (Value.eval F σ)).getD 0
  | update v f i k operands holes =>
    let result := F.stateful f (fun s => σ (.slot i k (s : Nat))) (operands.map σ) (holes.map F.hole)
    Function.update (σ.setSlots i k fun s =>
      if h : 0 ≤ s ∧ s.toNat < n then result.1 ⟨s.toNat, h.2⟩ else σ (.slot i k s)) v result.2

theorem Action.run_fill (declared : Bool) (i k : Nat) (values : List (Int × Value)) (σ : Store) :
    (Action.fill declared i k values).run F σ =
      σ.setSlots i k fun s => ((values.lookup s).map (Value.eval F σ)).getD 0 := rfl

def Condition.holds (hole : String → Int) : Condition → Bool
  | equals name n => hole name == n
  | both a b => a.holds hole && b.holds hole

def taken (hole : String → Int) (branches : List Branch) : Option Branch :=
  branches.find? fun b => b.condition.holds hole

/-- What a statement does; it fails if it is a chain without a branch that holds. -/
def Statement.run (F : Interpretation n) (σ : Store) : Statement → Option Store
  | declare v => some (Function.update σ v 0)
  | act a => some (a.run F σ)
  | guarded name actions => some (if F.hole name = 1 then actions.foldl (Action.run F) σ else σ)
  | firstOf target branches => (taken F.hole branches).map fun b => Function.update σ target (σ b.source)

def run (F : Interpretation n) : List Statement → Store → Option Store
  | [], σ => some σ
  | s :: code, σ => (s.run F σ).bind (run F code)

theorem run_append (code rest : List Statement) (σ : Store) :
    run F (code ++ rest) σ = (run F code σ).bind (run F rest) := by
  induction code generalizing σ with
  | nil => rfl
  | cons s code ih =>
    show (s.run F σ).bind (run F (code ++ rest)) = ((s.run F σ).bind (run F code)).bind (run F rest)
    rw [Option.bind_assoc]
    exact congrArg _ (funext ih)

variable {code : List Statement}

theorem run_append_eq_some {rest : List Statement} (h : run F (code ++ rest) σ = some σ') :
    ∃ τ, run F code σ = some τ ∧ run F rest τ = some σ' := by
  rw [run_append] at h
  exact Option.bind_eq_some_iff.1 h

theorem run_cons_eq_some {s : Statement} (h : run F (s :: code) σ = some σ') :
    ∃ τ, s.run F σ = some τ ∧ run F code τ = some σ' :=
  Option.bind_eq_some_iff.1 h

/-! ### When a run ends -/

/-- A statement that does not fail: a chain has a branch that holds. -/
def Statement.Defined (hole : String → Int) : Statement → Prop
  | firstOf _ branches => ∃ b ∈ branches, b.condition.holds hole = true
  | _ => True

theorem Statement.exists_run {s : Statement} (h : s.Defined F.hole) (σ : Store) : ∃ σ', s.run F σ = some σ' := by
  cases s with
  | declare v => exact ⟨_, rfl⟩
  | act a => exact ⟨_, rfl⟩
  | guarded name actions => exact ⟨_, rfl⟩
  | firstOf target branches =>
    have hsome : (taken F.hole branches).isSome = true := List.find?_isSome.2 h
    obtain ⟨b, hb⟩ := Option.isSome_iff_exists.1 hsome
    exact ⟨_, congrArg (Option.map _) hb⟩

theorem exists_run (h : ∀ s ∈ code, s.Defined F.hole) (σ : Store) :
    ∃ σ', run F code σ = some σ' := by
  induction code generalizing σ with
  | nil => exact ⟨σ, rfl⟩
  | cons s code ih =>
    obtain ⟨τ, hτ⟩ := Statement.exists_run (h s List.mem_cons_self) σ
    obtain ⟨σ', hσ'⟩ := ih (fun s hs => h s (List.mem_cons_of_mem _ hs)) τ
    exact ⟨σ', Option.bind_eq_some_iff.2 ⟨τ, hτ, hσ'⟩⟩

/-! ### Chains in another order -/

/-- A statement that leaves nothing to the order of branches: a chain has exactly one branch that holds. -/
def Statement.Decided (hole : String → Int) : Statement → Prop
  | firstOf _ branches => branches.countP (fun b => b.condition.holds hole) = 1
  | _ => True

theorem Statement.Decided.defined {s : Statement} (h : s.Decided hole) : s.Defined hole := by
  cases s with
  | firstOf target branches =>
    have hpos : 0 < branches.countP (fun b => b.condition.holds hole) := Nat.lt_of_lt_of_eq Nat.one_pos h.symm
    exact List.countP_pos_iff.1 hpos
  | _ => trivial

/-- A statement that differs from another at most in the order of the branches of a chain. -/
inductive Statement.Reorders : Statement → Statement → Prop
  | same (s : Statement) : Reorders s s
  | branches (target : Variable) {branches branches' : List Branch} (h : branches.Perm branches') :
    Reorders (.firstOf target branches) (.firstOf target branches')

theorem taken_perm {branches branches' : List Branch} (h : branches.Perm branches')
    (hone : branches.countP (fun b => b.condition.holds hole) = 1) : taken hole branches' = taken hole branches := by
  rw [List.countP_eq_length_filter] at hone
  obtain ⟨b, hb⟩ := List.length_eq_one_iff.1 hone
  have hfilter := (h.filter fun b => b.condition.holds hole).symm
  rw [hb, List.perm_singleton] at hfilter
  unfold taken
  rw [← List.head?_filter, ← List.head?_filter, hb, hfilter]

theorem Statement.run_reorders {s s' : Statement} (hs : s.Decided F.hole) (h : s.Reorders s') (σ : Store) :
    s'.run F σ = s.run F σ := by
  cases h with
  | same => rfl
  | branches target hperm => exact congrArg (Option.map _) (taken_perm hperm hs)

/-- Statements with their chains in another order do the same if every chain is decided. -/
theorem run_reorders {code' : List Statement} (h : List.Forall₂ Statement.Reorders code code')
    (hcode : ∀ s ∈ code, s.Decided F.hole) (σ : Store) : run F code' σ = run F code σ := by
  induction h generalizing σ with
  | nil => rfl
  | @cons s s' code code' hfirst _ ih =>
    show (s'.run F σ).bind (run F code') = (s.run F σ).bind (run F code)
    rw [Statement.run_reorders (hcode s List.mem_cons_self) hfirst]
    exact congrArg _ (funext fun τ => ih (fun s hs => hcode s (List.mem_cons_of_mem _ hs)) τ)

/-! ### What is left as it was -/

def Action.Writes (v : Variable) : Action → Prop
  | set _ t _ => t = v
  | fill _ i k _ => ∃ s, v = .slot i k s
  | update t _ i k _ _ => t = v ∨ ∃ s, v = .slot i k s

/-- A statement changes a variable, for some values of the holes. -/
def Statement.Writes (hole : String → Int) (v : Variable) : Statement → Prop
  | declare t => t = v
  | act a => a.Writes v
  | guarded name actions => hole name = 1 ∧ ∃ a ∈ actions, a.Writes v
  | firstOf t _ => t = v

theorem Action.run_of_not_writes {a : Action} (h : ¬ a.Writes v) (σ : Store) : a.run F σ v = σ v := by
  cases a with
  | set declared t value => exact Function.update_of_ne (fun heq => h heq.symm) _ _
  | fill declared i k values => exact σ.setSlots_of_ne _ fun s heq => h ⟨s, heq⟩
  | update t f i k operands holes =>
    have htarget : v ≠ t := fun heq => h (.inl heq.symm)
    have hslots : ∀ s, v ≠ .slot i k s := fun s heq => h (.inr ⟨s, heq⟩)
    exact (Function.update_of_ne htarget _ _).trans (σ.setSlots_of_ne _ hslots)

theorem foldl_of_not_writes {actions : List Action} (h : ∀ a ∈ actions, ¬ a.Writes v) (σ : Store) :
    actions.foldl (Action.run F) σ v = σ v := by
  induction actions generalizing σ with
  | nil => rfl
  | cons a actions ih =>
    rw [List.foldl_cons, ih (fun a ha => h a (List.mem_cons_of_mem _ ha))]
    exact Action.run_of_not_writes (h a List.mem_cons_self) σ

theorem Statement.run_of_not_writes {s : Statement} (h : ¬ s.Writes F.hole v) (hrun : s.run F σ = some σ') :
    σ' v = σ v := by
  cases s with
  | declare t =>
    cases hrun
    exact Function.update_of_ne (fun heq => h heq.symm) _ _
  | act a =>
    cases hrun
    exact Action.run_of_not_writes h σ
  | guarded name actions =>
    cases hrun
    by_cases hname : F.hole name = 1
    · rw [if_pos hname]
      exact foldl_of_not_writes (fun a ha hwrites => h ⟨hname, a, ha, hwrites⟩) σ
    · rw [if_neg hname]
  | firstOf t branches =>
    obtain ⟨b, -, rfl⟩ := Option.map_eq_some_iff.1 hrun
    exact Function.update_of_ne (fun heq => h heq.symm) _ _

/-- What no statement writes has the same value before and behind a run. -/
theorem run_of_not_writes (h : ∀ s ∈ code, ¬ s.Writes F.hole v)
    (hrun : run F code σ = some σ') : σ' v = σ v := by
  induction code generalizing σ with
  | nil =>
    cases hrun
    rfl
  | cons s code ih =>
    obtain ⟨τ, hfirst, hrest⟩ := run_cons_eq_some hrun
    rw [ih (fun s hs => h s (List.mem_cons_of_mem _ hs)) hrest]
    exact Statement.run_of_not_writes (h s List.mem_cons_self) hfirst

/-! ### What steps write -/

variable {p : Plan} {st : Step} {i j k c o : Nat} {s : Int}

/-- The variables that a step of a pipeline writes, for some values of the holes. -/
inductive Step.Writes (p : Plan) (hole : String → Int) : Step → Variable → Prop where
  | clearContainer (c : Nat) : Writes p hole (.clearContainer c) (.input 0 c)
  | clearState (i k : Nat) (s : Int) : Writes p hole (.clearState i k) (.slot i k s)
  | readField (f : Int) (c : Nat) : Writes p hole (.readField f c) (.input 0 c)
  | readFieldIf (f : Int) (c : Nat) : Writes p hole (.readFieldIf f c) (.input 0 c)
  | passOn (i c : Nat) : Writes p hole (.passOn i c) (.input i c)
  | stateless (i j : Nat) : Writes p hole (.stateless i j) (.destination i j)
  | chooseOperand (i k o : Nat) : Writes p hole (.chooseOperand i k o) (.operand i k o)
  | loadState {i k g : Nat} (s : Int) (h : hole (p.stateConfig i k g) = 1) :
    Writes p hole (.loadState i k g) (.slot i k s)
  | statefulReturn (i k : Nat) : Writes p hole (.stateful i k) (.returned i k)
  | statefulSlot (i k : Nat) (s : Int) : Writes p hole (.stateful i k) (.slot i k s)
  | declareOutput (i c : Nat) : Writes p hole (.declareOutput i c) (.output i c)
  | demultiplex (i c : Nat) : Writes p hole (.demultiplex i c) (.output i c)
  | chooseOutput (i c : Nat) : Writes p hole (.chooseOutput i c) (.output i c)
  | storeState {i k g : Nat} (s : Nat) (h : hole (p.stateConfig i k g) = 1) :
    Writes p hole (.storeState i k g) (.state g s)
  | writeField (f : Int) (c : Nat) : Writes p hole (.writeField f c) (.field f)
  | writeFieldIf (f : Int) (c : Nat) : Writes p hole (.writeFieldIf f c) (.field f)

theorem Step.writes_of_statement (h : (st.statement p).Writes hole v) : st.Writes p hole v := by
  cases st with
  | clearContainer c =>
    cases h
    exact .clearContainer c
  | clearState i k =>
    obtain ⟨s, rfl⟩ := h
    exact .clearState i k s
  | readField f c =>
    cases h
    exact .readField f c
  | readFieldIf f c =>
    obtain ⟨-, a, ha, h⟩ := h
    cases List.mem_singleton.1 ha
    cases h
    exact .readFieldIf f c
  | passOn i c =>
    cases h
    exact .passOn i c
  | stateless i j =>
    cases h
    exact .stateless i j
  | chooseOperand i k o =>
    cases h
    exact .chooseOperand i k o
  | loadState i k g =>
    obtain ⟨hguard, a, ha, h⟩ := h
    cases List.mem_singleton.1 ha
    obtain ⟨s, rfl⟩ := h
    exact .loadState s hguard
  | stateful i k =>
    rcases h with rfl | ⟨s, rfl⟩
    · exact .statefulReturn i k
    · exact .statefulSlot i k s
  | declareOutput i c =>
    cases h
    exact .declareOutput i c
  | demultiplex i c =>
    cases h
    exact .demultiplex i c
  | chooseOutput i c =>
    cases h
    exact .chooseOutput i c
  | storeState i k g =>
    obtain ⟨hguard, a, ha, h⟩ := h
    obtain ⟨s, -, rfl⟩ := List.mem_map.1 ha
    cases h
    exact .storeState s hguard
  | writeField f c =>
    cases h
    exact .writeField f c
  | writeFieldIf f c =>
    obtain ⟨-, a, ha, h⟩ := h
    cases List.mem_singleton.1 ha
    cases h
    exact .writeFieldIf f c

/-! ### The steps of a pipeline with the canonical allocation -/

/-- The steps among some parts of a data path. -/
def stepsOf (items : List Item) : List Step :=
  items.filterMap fun
    | .step s => some s
    | .note _ => none

section StepsOf

variable {α : Type} (items rest : List Item)

@[simp] theorem stepsOf_append : stepsOf (items ++ rest) = stepsOf items ++ stepsOf rest :=
  List.filterMap_append

@[simp] theorem stepsOf_nil : stepsOf [] = [] := rfl

@[simp] theorem stepsOf_note (t : String) : stepsOf (.note t :: items) = stepsOf items := rfl

@[simp] theorem stepsOf_step (st : Step) : stepsOf (.step st :: items) = st :: stepsOf items := rfl

@[simp] theorem stepsOf_map (f : α → Step) (xs : List α) : stepsOf (xs.map fun x => .step (f x)) = xs.map f := by
  induction xs with
  | nil => rfl
  | cons x xs ih => rw [List.map_cons, stepsOf_step, ih, List.map_cons]

@[simp] theorem stepsOf_flatMap (f : α → List Item) (xs : List α) :
    stepsOf (xs.flatMap f) = xs.flatMap fun x => stepsOf (f x) := by
  induction xs with
  | nil => rfl
  | cons x xs ih => rw [List.flatMap_cons, stepsOf_append, ih, List.flatMap_cons]

end StepsOf

namespace Plan

/-- How the containers before a stage come about. -/
def inputSteps (p : Plan) (i : Nat) : List Step :=
  if i = 0 then p.shape.inputFields.zipIdx.map fun (f, c) => .readField f c
  else (upTo p.shape.containers).map (.passOn i)

/-- How the operands of the stateful ALUs of a stage are chosen. -/
def operandSteps (p : Plan) (i : Nat) : List Step :=
  (upTo p.shape.groups).flatMap fun k => (List.range p.operands).map (.chooseOperand i k)

/-- How the containers behind a stage are declared before each takes what its writer left. -/
def declarationSteps (p : Plan) (i : Nat) : List Step :=
  if p.shape.tofino then (upTo p.shape.containers).map (.declareOutput i) else []

/-- How the containers behind a stage come about. -/
def outputSteps (p : Plan) (i : Nat) : List Step :=
  (upTo p.shape.containers).map (if p.shape.tofino then .demultiplex i else .chooseOutput i)

def stageSteps (p : Plan) (i : Nat) : List Step :=
  p.inputSteps i ++ ((upTo p.shape.alus).map (.stateless i) ++ (p.operandSteps i ++
    ((upTo p.shape.groups).map (fun k => .loadState i k k) ++ ((upTo p.shape.groups).map (.stateful i) ++
      (p.declarationSteps i ++ (p.outputSteps i ++ (upTo p.shape.groups).map (fun k => .storeState i k k)))))))

theorem stepsOf_stageItems (h : p.synthesized = false) (i : Nat) : stepsOf (p.stageItems i) = p.stageSteps i := by
  have hunits : p.units = upTo p.shape.groups := by simp [units, h]
  have hinputs : stepsOf (if i = 0 then p.readItems else p.passItems i) = p.inputSteps i := by
    unfold inputSteps readItems passItems
    split
    · simp [h, List.map_eq_flatMap]
    · simp
  have houtputs : stepsOf (p.outputItems i) = p.declarationSteps i ++ p.outputSteps i := by
    unfold outputItems declarationSteps outputSteps
    split <;> simp
  have hloads : stepsOf (p.loadItems i) = (upTo p.shape.groups).map fun k => .loadState i k k := by
    simp [loadItems, h, List.map_eq_flatMap]
  have hstores : stepsOf (p.storeItems i) = (upTo p.shape.groups).map fun k => .storeState i k k := by
    simp [storeItems, h, List.map_eq_flatMap]
  simp only [stageItems, List.cons_append, stepsOf_note, stepsOf_append, stepsOf_map, stepsOf_flatMap, hunits, hinputs,
    houtputs, hloads, hstores, stageSteps, operandSteps, List.append_assoc]

theorem steps_eq (h : p.synthesized = false) : p.steps =
    (upTo p.shape.containers).map .clearContainer ++
    (((upTo p.shape.stages).flatMap fun i => (upTo p.shape.groups).map (.clearState i)) ++
    ((upTo p.shape.stages).flatMap p.stageSteps ++
    p.shape.outputFields.zipIdx.map fun (f, c) => .writeField f c)) := by
  have hunits : p.units = upTo p.shape.groups := by simp [units, h]
  have hwrites : stepsOf p.writeItems = p.shape.outputFields.zipIdx.map fun (f, c) => .writeField f c := by
    simp [writeItems, h, List.map_eq_flatMap]
  show stepsOf p.items = _
  simp only [items, List.cons_append, stepsOf_note, stepsOf_append, stepsOf_map, stepsOf_flatMap, hunits,
    stepsOf_stageItems h, hwrites, List.append_assoc]

theorem mem_steps_of_mem_stageSteps {st : Step} (h : p.synthesized = false) (hi : i ∈ upTo p.shape.stages)
    (hst : st ∈ p.stageSteps i) : st ∈ p.steps := by
  rw [steps_eq h]
  simp only [List.mem_append, List.mem_flatMap]
  exact .inr (.inr (.inl ⟨i, hi, hst⟩))

theorem chooseOperand_mem (h : p.synthesized = false) (hi : i ∈ upTo p.shape.stages) (hk : k ∈ upTo p.shape.groups)
    (ho : o < p.operands) : .chooseOperand i k o ∈ p.steps := by
  refine mem_steps_of_mem_stageSteps h hi ?_
  simp [stageSteps, operandSteps, hk, ho]

theorem loadState_mem (h : p.synthesized = false) (hi : i ∈ upTo p.shape.stages) (hk : k ∈ upTo p.shape.groups) :
    .loadState i k k ∈ p.steps := by
  refine mem_steps_of_mem_stageSteps h hi ?_
  simp [stageSteps, hk]

theorem stateful_mem (h : p.synthesized = false) (hi : i ∈ upTo p.shape.stages) (hk : k ∈ upTo p.shape.groups) :
    .stateful i k ∈ p.steps := by
  refine mem_steps_of_mem_stageSteps h hi ?_
  simp [stageSteps, hk]

theorem storeState_mem (h : p.synthesized = false) (hi : i ∈ upTo p.shape.stages) (hk : k ∈ upTo p.shape.groups) :
    .storeState i k k ∈ p.steps := by
  refine mem_steps_of_mem_stageSteps h hi ?_
  simp [stageSteps, hk]

theorem demultiplex_mem (h : p.synthesized = false) (htofino : p.shape.tofino = true) (hi : i ∈ upTo p.shape.stages)
    (hc : c ∈ upTo p.shape.containers) : .demultiplex i c ∈ p.steps := by
  refine mem_steps_of_mem_stageSteps h hi ?_
  simp [stageSteps, outputSteps, htofino, hc]

theorem chooseOutput_mem (h : p.synthesized = false) (htofino : p.shape.tofino = false) (hi : i ∈ upTo p.shape.stages)
    (hc : c ∈ upTo p.shape.containers) : .chooseOutput i c ∈ p.steps := by
  refine mem_steps_of_mem_stageSteps h hi ?_
  simp [stageSteps, outputSteps, htofino, hc]

/-- What the steps of a pipeline with the canonical allocation are: a group is served by its own stateful ALU, a
container takes the field of its number, and later stages take what the stage before them left. -/
def Canonical (p : Plan) : Step → Prop
  | .loadState i k g => k = g ∧ i ∈ upTo p.shape.stages
  | .storeState i k g => k = g ∧ i ∈ upTo p.shape.stages
  | .demultiplex i c => p.shape.tofino = true ∧ i ∈ upTo p.shape.stages ∧ c ∈ upTo p.shape.containers
  | .readField f c => (f, c) ∈ p.shape.inputFields.zipIdx
  | .readFieldIf _ _ => False
  | .passOn i _ => i ≠ 0
  | .writeFieldIf _ _ => False
  | _ => True

theorem canonical_of_mem_stageSteps {st : Step} (hi : i ∈ upTo p.shape.stages) (hst : st ∈ p.stageSteps i) :
    p.Canonical st := by
  simp only [stageSteps, List.mem_append] at hst
  rcases hst with hst | hst | hst | hst | hst | hst | hst | hst
  · unfold inputSteps at hst
    split at hst
    · obtain ⟨_, hfield, rfl⟩ := List.mem_map.1 hst
      exact hfield
    · next hne =>
      obtain ⟨_, -, rfl⟩ := List.mem_map.1 hst
      exact hne
  · obtain ⟨_, -, rfl⟩ := List.mem_map.1 hst
    trivial
  · obtain ⟨_, -, hst⟩ := List.mem_flatMap.1 hst
    obtain ⟨_, -, rfl⟩ := List.mem_map.1 hst
    trivial
  · obtain ⟨_, -, rfl⟩ := List.mem_map.1 hst
    exact ⟨rfl, hi⟩
  · obtain ⟨_, -, rfl⟩ := List.mem_map.1 hst
    trivial
  · unfold declarationSteps at hst
    split at hst
    · obtain ⟨_, -, rfl⟩ := List.mem_map.1 hst
      trivial
    · cases hst
  · unfold outputSteps at hst
    obtain ⟨c, hc, rfl⟩ := List.mem_map.1 hst
    split
    · next htofino => exact ⟨htofino, hi, hc⟩
    · trivial
  · obtain ⟨_, -, rfl⟩ := List.mem_map.1 hst
    exact ⟨rfl, hi⟩

theorem canonical_of_mem_steps {st : Step} (h : p.synthesized = false) (hst : st ∈ p.steps) : p.Canonical st := by
  rw [steps_eq h] at hst
  simp only [List.mem_append, List.mem_flatMap] at hst
  rcases hst with hst | ⟨_, -, hst⟩ | ⟨i, hi, hst⟩ | hst
  · obtain ⟨_, -, rfl⟩ := List.mem_map.1 hst
    trivial
  · obtain ⟨_, -, rfl⟩ := List.mem_map.1 hst
    trivial
  · exact canonical_of_mem_stageSteps hi hst
  · obtain ⟨_, -, rfl⟩ := List.mem_map.1 hst
    trivial

end Plan

/-! ### The order of the steps -/

/-- The place of a step in the order of a pipeline: clearing, the phases of one stage after the other, writing. -/
def Step.rank (p : Plan) : Step → Nat
  | clearContainer _ => 0
  | clearState _ _ => 1
  | readField _ _ => 2
  | readFieldIf _ _ => 2
  | passOn i _ => 8 * i + 2
  | stateless i _ => 8 * i + 3
  | chooseOperand i _ _ => 8 * i + 4
  | loadState i _ _ => 8 * i + 5
  | stateful i _ => 8 * i + 6
  | declareOutput i _ => 8 * i + 7
  | demultiplex i _ => 8 * i + 8
  | chooseOutput i _ => 8 * i + 8
  | storeState i _ _ => 8 * i + 9
  | writeField _ _ => 8 * p.shape.stages.toNat + 2
  | writeFieldIf _ _ => 8 * p.shape.stages.toNat + 2

namespace Plan

/-- Steps are in order if none is done twice and none before one of a lower rank. -/
def Ordered (p : Plan) (steps : List Step) : Prop :=
  steps.Pairwise fun a b => a ≠ b ∧ a.rank p ≤ b.rank p

variable {xs ys : List Step} {blocks : List (List Step)} {r : Nat}

theorem Ordered.append (hxs : p.Ordered xs) (hys : p.Ordered ys) (h : ∀ a ∈ xs, ∀ b ∈ ys, a.rank p < b.rank p) :
    p.Ordered (xs ++ ys) := by
  refine List.pairwise_append.2 ⟨hxs, hys, fun a ha b hb => ?_⟩
  have hlt := h a ha b hb
  refine ⟨fun heq => ?_, Nat.le_of_lt hlt⟩
  rw [heq] at hlt
  exact Nat.lt_irrefl _ hlt

theorem ordered_of_rank (hxs : xs.Nodup) (hrank : ∀ st ∈ xs, st.rank p = r) : p.Ordered xs :=
  hxs.imp_of_mem fun ha hb hne => ⟨hne, Nat.le_of_eq ((hrank _ ha).trans (hrank _ hb).symm)⟩

/-- Blocks of steps, each of the rank that follows the one before. -/
def Blocks (p : Plan) : Nat → List (List Step) → Prop
  | _, [] => True
  | r, xs :: blocks => xs.Nodup ∧ (∀ st ∈ xs, st.rank p = r) ∧ Blocks p (r + 1) blocks

theorem Blocks.rank (h : p.Blocks r blocks) {st : Step} (hst : st ∈ blocks.flatten) :
    r ≤ st.rank p ∧ st.rank p < r + blocks.length := by
  induction blocks generalizing r with
  | nil => exact nomatch hst
  | cons xs blocks ih =>
    obtain ⟨-, hrank, hrest⟩ := h
    rw [List.flatten_cons, List.mem_append] at hst
    rw [List.length_cons]
    rcases hst with hst | hst
    · have heq := hrank st hst
      omega
    · have hbounds := ih hrest hst
      omega

theorem Blocks.ordered (h : p.Blocks r blocks) : p.Ordered blocks.flatten := by
  induction blocks generalizing r with
  | nil => exact List.Pairwise.nil
  | cons xs blocks ih =>
    obtain ⟨hxs, hrank, hrest⟩ := h
    refine (ordered_of_rank hxs hrank).append (ih hrest) fun a ha b hb => ?_
    have hbounds := hrest.rank hb
    rw [hrank a ha]
    omega

theorem Blocks.cons_map {f : Nat → Step} {numbers : List Nat} (hnumbers : numbers.Nodup)
    (hf : ∀ a b, f a = f b → a = b) (hrank : ∀ a, (f a).rank p = r) (hrest : p.Blocks (r + 1) blocks) :
    p.Blocks r (numbers.map f :: blocks) := by
  refine ⟨hnumbers.map fun a b => hf a b, fun st hst => ?_, hrest⟩
  obtain ⟨a, -, rfl⟩ := List.mem_map.1 hst
  exact hrank a

theorem nodup_zipIdx_map {f : Int × Nat → Step} (hf : ∀ a b, f a = f b → a = b) (fields : List Int) :
    (fields.zipIdx.map f).Nodup := by
  have hnumbers : (fields.zipIdx.map Prod.snd).Nodup := by
    rw [List.zipIdx_map_snd]
    exact List.nodup_range'
  exact (List.Nodup.of_map _ hnumbers).map fun a b => hf a b

theorem stageSteps_eq (p : Plan) (i : Nat) : p.stageSteps i =
    [p.inputSteps i, (upTo p.shape.alus).map (.stateless i), p.operandSteps i,
      (upTo p.shape.groups).map (fun k => .loadState i k k), (upTo p.shape.groups).map (.stateful i),
      p.declarationSteps i, p.outputSteps i, (upTo p.shape.groups).map (fun k => .storeState i k k)].flatten := by
  simp only [List.flatten_cons, List.flatten_nil, List.append_nil, stageSteps]

theorem stageSteps_blocks (p : Plan) (i : Nat) : p.Blocks (8 * i + 2)
    [p.inputSteps i, (upTo p.shape.alus).map (.stateless i), p.operandSteps i,
      (upTo p.shape.groups).map (fun k => .loadState i k k), (upTo p.shape.groups).map (.stateful i),
      p.declarationSteps i, p.outputSteps i, (upTo p.shape.groups).map (fun k => .storeState i k k)] := by
  have hstores : p.Blocks (8 * i + 9) [(upTo p.shape.groups).map fun k => .storeState i k k] :=
    .cons_map (nodup_upTo _) (fun _ _ h => by cases h; rfl) (fun _ => rfl) trivial
  have houtputs : p.Blocks (8 * i + 8) [p.outputSteps i, (upTo p.shape.groups).map fun k => .storeState i k k] := by
    unfold outputSteps
    split <;> exact .cons_map (nodup_upTo _) (fun _ _ h => by cases h; rfl) (fun _ => rfl) hstores
  have hdeclarations : p.Blocks (8 * i + 7)
      [p.declarationSteps i, p.outputSteps i, (upTo p.shape.groups).map fun k => .storeState i k k] := by
    unfold declarationSteps
    split
    · exact .cons_map (nodup_upTo _) (fun _ _ h => by cases h; rfl) (fun _ => rfl) houtputs
    · exact ⟨List.nodup_nil, fun _ h => absurd h List.not_mem_nil, houtputs⟩
  have hloads := Blocks.cons_map (f := fun k => .loadState i k k) (nodup_upTo p.shape.groups)
    (fun _ _ h => by cases h; rfl) (fun _ => rfl)
    (.cons_map (f := .stateful i) (nodup_upTo p.shape.groups) (fun _ _ h => by cases h; rfl) (fun _ => rfl)
      hdeclarations)
  have hoperands : (p.operandSteps i).Nodup :=
    nodup_pairs (fun _ _ _ _ h => by cases h; exact ⟨rfl, rfl⟩) (nodup_upTo _) List.nodup_range
  refine ⟨?_, ?_, .cons_map (nodup_upTo _) (fun _ _ h => by cases h; rfl) (fun _ => rfl)
    ⟨hoperands, fun st hst => ?_, hloads⟩⟩
  · unfold inputSteps
    split
    · exact nodup_zipIdx_map (fun (_, _) (_, _) h => by cases h; rfl) _
    · exact (nodup_upTo _).map fun _ _ h => by cases h; rfl
  · intro st hst
    unfold inputSteps at hst
    split at hst
    · next hi =>
      obtain ⟨_, -, rfl⟩ := List.mem_map.1 hst
      rw [hi]
      rfl
    · obtain ⟨_, -, rfl⟩ := List.mem_map.1 hst
      rfl
  · obtain ⟨_, -, hst⟩ := List.mem_flatMap.1 hst
    obtain ⟨_, -, rfl⟩ := List.mem_map.1 hst
    rfl

theorem rank_of_mem_stageSteps (h : st ∈ p.stageSteps i) : 8 * i + 2 ≤ st.rank p ∧ st.rank p < 8 * i + 10 := by
  rw [stageSteps_eq] at h
  exact (p.stageSteps_blocks i).rank h

theorem stages_ordered (p : Plan) : p.Ordered ((upTo p.shape.stages).flatMap p.stageSteps) := by
  refine List.pairwise_flatMap.2 ⟨fun i _ => ?_, ?_⟩
  · rw [stageSteps_eq]
    exact (p.stageSteps_blocks i).ordered
  · refine List.pairwise_lt_range.imp fun {i j} hij a ha b hb => ?_
    have hfirst := rank_of_mem_stageSteps ha
    have hsecond := rank_of_mem_stageSteps hb
    refine ⟨fun heq => ?_, by omega⟩
    rw [heq] at hfirst
    omega

theorem steps_ordered (h : p.synthesized = false) : p.Ordered p.steps := by
  have hrankWrites : ∀ st ∈ p.shape.outputFields.zipIdx.map fun (f, c) => Step.writeField f c,
      st.rank p = 8 * p.shape.stages.toNat + 2 := by
    intro st hst
    obtain ⟨_, -, rfl⟩ := List.mem_map.1 hst
    rfl
  have hrankStages : ∀ st ∈ (upTo p.shape.stages).flatMap p.stageSteps,
      2 ≤ st.rank p ∧ st.rank p < 8 * p.shape.stages.toNat + 2 := by
    intro st hst
    obtain ⟨i, hi, hst⟩ := List.mem_flatMap.1 hst
    have hi : i < p.shape.stages.toNat := List.mem_range.1 hi
    have hrank := rank_of_mem_stageSteps hst
    omega
  have hstages := p.stages_ordered.append
    (ordered_of_rank (nodup_zipIdx_map (fun (_, _) (_, _) h => by cases h; rfl) _) hrankWrites)
    fun a ha b hb => by rw [hrankWrites b hb]; exact (hrankStages a ha).2
  have hclear : p.Blocks 0 [(upTo p.shape.containers).map .clearContainer,
      (upTo p.shape.stages).flatMap fun i => (upTo p.shape.groups).map (.clearState i)] := by
    refine .cons_map (nodup_upTo _) (fun _ _ h => by cases h; rfl) (fun _ => rfl)
      ⟨nodup_pairs (fun _ _ _ _ h => by cases h; exact ⟨rfl, rfl⟩) (nodup_upTo _) (nodup_upTo _), ?_, trivial⟩
    intro st hst
    obtain ⟨i, -, hst⟩ := List.mem_flatMap.1 hst
    obtain ⟨k, -, rfl⟩ := List.mem_map.1 hst
    rfl
  have hall := hclear.ordered.append hstages fun a ha b hb => by
    have hrank := hclear.rank ha
    rcases List.mem_append.1 hb with hb | hb
    · have hrank' := hrankStages b hb
      simp only [List.length_cons, List.length_nil] at hrank
      omega
    · have hrank' := hrankWrites b hb
      simp only [List.length_cons, List.length_nil] at hrank
      omega
  rw [steps_eq h]
  simpa only [List.flatten_cons, List.flatten_nil, List.append_nil, List.append_assoc] using hall

/-- Steps are done one after the other. -/
def exec (p : Plan) (F : Interpretation n) (steps : List Step) : Store → Option Store :=
  run F (steps.map (Step.statement p))

theorem exec_of_not_writes {steps : List Step} (h : ∀ st ∈ steps, ¬ st.Writes p F.hole v)
    (hrun : p.exec F steps σ = some σ') : σ' v = σ v := by
  refine run_of_not_writes (fun s hs hwrites => ?_) hrun
  obtain ⟨st, hst, rfl⟩ := List.mem_map.1 hs
  exact h st hst (Step.writes_of_statement hwrites)

/-- The moment at which a step of a run is done: the steps before and behind it with the variables in between. -/
structure Moment (p : Plan) (F : Interpretation n) (steps : List Step) (σ σ' : Store) (st : Step)
    (before after : List Step) (τ τ' : Store) : Prop where
  steps_eq : steps = before ++ st :: after
  runs_before : p.exec F before σ = some τ
  runs : (st.statement p).run F τ = some τ'
  runs_after : p.exec F after τ' = some σ'
  ordered_before : p.Ordered before
  ordered_after : p.Ordered after
  earlier : ∀ a ∈ before, a ≠ st ∧ a.rank p ≤ st.rank p
  later : ∀ b ∈ after, b ≠ st ∧ st.rank p ≤ b.rank p

theorem exists_moment {steps : List Step} (hordered : p.Ordered steps) (hrun : p.exec F steps σ = some σ')
    (hst : st ∈ steps) : ∃ before after τ τ', Moment p F steps σ σ' st before after τ τ' := by
  obtain ⟨before, after, rfl⟩ := List.append_of_mem hst
  unfold exec at hrun
  rw [List.map_append, List.map_cons] at hrun
  obtain ⟨τ, hbefore, hrest⟩ := run_append_eq_some hrun
  obtain ⟨τ', hruns, hafter⟩ := run_cons_eq_some hrest
  obtain ⟨hfirst, hsecond, hcross⟩ := List.pairwise_append.1 hordered
  obtain ⟨hlater, hsecond⟩ := List.pairwise_cons.1 hsecond
  exact ⟨before, after, τ, τ', rfl, hbefore, hruns, hafter, hfirst, hsecond,
    fun a ha => hcross a ha st List.mem_cons_self, fun b hb => ⟨(hlater b hb).1.symm, (hlater b hb).2⟩⟩

namespace Moment

variable {steps before after : List Step} {τ' : Store} {st' : Step}

theorem mem_before (h : Moment p F steps σ σ' st before after τ τ') (hmem : st' ∈ steps)
    (hlt : st'.rank p < st.rank p) : st' ∈ before := by
  rw [h.steps_eq, List.mem_append, List.mem_cons] at hmem
  rcases hmem with hmem | rfl | hmem
  · exact hmem
  · exact absurd hlt (Nat.lt_irrefl _)
  · exact absurd (h.later st' hmem).2 (Nat.not_le.2 hlt)

theorem mem_after (h : Moment p F steps σ σ' st before after τ τ') (hmem : st' ∈ steps)
    (hlt : st.rank p < st'.rank p) : st' ∈ after := by
  rw [h.steps_eq, List.mem_append, List.mem_cons] at hmem
  rcases hmem with hmem | rfl | hmem
  · exact absurd (h.earlier st' hmem).2 (Nat.not_le.2 hlt)
  · exact absurd hlt (Nat.lt_irrefl _)
  · exact hmem

theorem mem_steps_of_before (h : Moment p F steps σ σ' st before after τ τ') (hmem : st' ∈ before) : st' ∈ steps := by
  rw [h.steps_eq]
  exact List.mem_append_left _ hmem

theorem mem_steps_of_after (h : Moment p F steps σ σ' st before after τ τ') (hmem : st' ∈ after) : st' ∈ steps := by
  rw [h.steps_eq]
  exact List.mem_append_right _ (List.mem_cons_of_mem _ hmem)

/-- What only earlier steps and the step itself write keeps its value behind the step. -/
theorem eq_after (h : Moment p F steps σ σ' st before after τ τ')
    (hv : ∀ b ∈ steps, b.Writes p F.hole v → b = st ∨ b.rank p < st.rank p) : σ' v = τ' v := by
  refine exec_of_not_writes (fun b hb hwrites => ?_) h.runs_after
  obtain ⟨hne, hle⟩ := h.later b hb
  rcases hv b (h.mem_steps_of_after hb) hwrites with heq | hlt
  · exact hne heq
  · exact absurd hle (Nat.not_le.2 hlt)

/-- What only later steps and the step itself write has its first value before the step. -/
theorem eq_before (h : Moment p F steps σ σ' st before after τ τ')
    (hv : ∀ a ∈ steps, a.Writes p F.hole v → a = st ∨ st.rank p < a.rank p) : τ v = σ v := by
  refine exec_of_not_writes (fun a ha hwrites => ?_) h.runs_before
  obtain ⟨hne, hle⟩ := h.earlier a ha
  rcases hv a (h.mem_steps_of_before ha) hwrites with heq | hlt
  · exact hne heq
  · exact absurd hle (Nat.not_le.2 hlt)

end Moment

end Plan

end SwitchSynth.Sketch
