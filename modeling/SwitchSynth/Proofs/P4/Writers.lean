import SwitchSynth.Proofs.CommandLine
import SwitchSynth.Proofs.P4.Operands
import SwitchSynth.Proofs.Paths
import SwitchSynth.Proofs.Sketch.Constraints
import SwitchSynth.Proofs.Synthesis.Success

/-!
# One writer for each container

In a pipeline in which every container has one writer behind each stage, a container is written by its own stateless
ALU or by a stateful ALU that is active and sends its output there. The constraints of a sketch let exactly one of these
conditions hold, so the chain that chooses among them never fails and its order does not matter. A switch program has a
table for each ALU that is enabled, and the tables that write a container are those of the conditions that hold.
-/

namespace SwitchSynth.P4

open CommandLine (bind_eq_ok)
open Sketch (Plan Generator Interpretation Statement upTo)

/-! ### What the tables of a program write -/

/-- Where an instruction leaves its result. -/
def Instruction.target : Instruction → String
  | modify r _ => r
  | add r _ _ => r
  | subtract r _ _ => r
  | max r _ _ => r
  | min r _ _ => r

theorem Instruction.target_ofOpcode (r a b immediate : String) (opcode : Int) :
    (ofOpcode r a b immediate opcode).target = r := by
  unfold ofOpcode
  split <;> rfl

theorem mem_taken {α : Type} {places : List (Option α)} {n : Nat} :
    n ∈ taken places ↔ (places[n]?.join).isSome = true := by
  simp only [taken, List.mem_map, List.mem_filter, Prod.exists, List.mem_zipIdx_iff_getElem?, exists_eq_right]
  cases places[n]? with
  | none => simp
  | some x => simp

namespace Program

/-- What the table at a place writes; a place without a table writes nothing. -/
def target (p : Program) (place : Place) : Option String :=
  p.stages[place.stage]?.bind fun s =>
    match place.kind with
    | .stateless => s.stateless[place.number]?.join.map Instruction.target
    | .stateful => s.stateful[place.number]?.join.map Blackbox.output

theorem mem_tables {p : Program} {place : Place} : place ∈ p.tables ↔ (p.target place).isSome = true := by
  obtain ⟨kind, i, n⟩ := place
  simp only [tables, target, List.mem_flatMap, List.mem_append, List.mem_map, Prod.exists, List.mem_zipIdx_iff_getElem?,
    mem_taken, Place.mk.injEq]
  cases hs : p.stages[i]? with
  | none => cases kind <;> simp [hs]
  | some s => cases kind <;> simp [hs]

end Program

theorem containerText_inj {m n : Int} : containerText m = containerText n ↔ m = n := by
  refine ⟨fun h => ?_, fun h => by rw [h]⟩
  unfold containerText at h
  exact Text.toString_int_inj (String.append_right_inj _ |>.1 h)

/-! ### The program of an assembly -/

namespace Assembly

theorem map_target_statelessPlace (c : StatelessConfig) :
    (statelessPlace c).map Instruction.target = if c.enable = 1 then some (containerText c.result) else none := by
  unfold statelessPlace
  split
  · exact congrArg some (Instruction.target_ofOpcode _ _ _ _ _)
  · rfl

theorem output_ofExpressions {expressions : Table String} {output : String} {b : Blackbox}
    (h : Blackbox.ofExpressions expressions output = .ok b) : b.output = output := by
  obtain ⟨found, -, hb⟩ := bind_eq_ok.1 h
  cases hb
  rfl

theorem map_output_statefulPlace {c : StatefulConfig × Int} {b : Option Blackbox} (h : statefulPlace c = .ok b) :
    b.map Blackbox.output = if c.2 = 1 then some (containerText c.1.output) else none := by
  unfold statefulPlace at h
  by_cases hactive : c.2 = 1
  · rw [if_pos hactive] at h ⊢
    cases hbox : Blackbox.ofExpressions c.1.expressions (containerText c.1.output) with
    | error e =>
      rw [hbox] at h
      exact nomatch h
    | ok box =>
      rw [hbox] at h
      cases h
      exact congrArg some (output_ofExpressions hbox)
  · rw [if_neg hactive] at h ⊢
    cases h
    rfl

theorem forall₂_of_mapM_ok {α β : Type} {f : α → Except Error β} {xs : List α} {ys : List β} (h : xs.mapM f = .ok ys) :
    List.Forall₂ (fun x y => f x = .ok y) xs ys := by
  induction xs generalizing ys with
  | nil =>
    cases h
    exact .nil
  | cons x xs ih =>
    rw [List.mapM_cons] at h
    obtain ⟨y, hy, h⟩ := bind_eq_ok.1 h
    obtain ⟨ys, hys, h⟩ := bind_eq_ok.1 h
    cases h
    exact .cons hy (ih hys)

/-- A stage of the program has the stateless ALUs of a row, and the stateful ones of a row that are active. -/
theorem program_stage {a : Assembly} {name : String} {groups i : Nat} {program : Program}
    (h : a.program name groups = .ok program) {stateless : List StatelessConfig} {stateful : List StatefulConfig}
    {active : List Int} (hstateless : a.stateless[i]? = some stateless) (hstateful : a.stateful[i]? = some stateful)
    (hactive : a.configurations[i]? = some active) :
    ∃ boxes, program.stages[i]? = some ⟨stateless.map statelessPlace, boxes⟩ ∧
      List.Forall₂ (fun c b => statefulPlace c = .ok b) (stateful.zip active) boxes := by
  obtain ⟨rows, hrows, hprogram⟩ := bind_eq_ok.1 h
  cases hprogram
  have hzip : (a.stateful.zip a.configurations)[i]? = some (stateful, active) := by
    simp [List.getElem?_zip_eq_some, hstateful, hactive]
  obtain ⟨boxes, hboxes, hrow⟩ := getElem?_of_forall₂ (forall₂_of_mapM_ok hrows) hzip
  have hstages : (a.stateless.zip rows)[i]? = some (stateless, boxes) := by
    simp [List.getElem?_zip_eq_some, hstateless, hboxes]
  refine ⟨boxes, ?_, forall₂_of_mapM_ok hrow⟩
  simp only [List.getElem?_map, hstages, Option.map_some]

end Assembly

/-! ### What the values of the holes make the tables write -/

open Assemble Assembly

/-- A table of values has no other values than those that are given. -/
def Agrees (holes : Table Int) (hole : String → Int) : Prop :=
  ∀ name v, holes.get? name = some v → v = hole name

/-- The hole that says where the output of an ALU goes. -/
def demuxHole (alu : String) : String :=
  alu ++ "_demux_ctrl"

section Targets

variable {t : Target} {files : Files} {holes left : Table Int} {a : Assembly} {hole : String → Int}
  {name : String} {groups i : Nat} {program : Program}

variable {r : Target × Files} {j : Nat} {p : Plan}

theorem statelessAlu_enable {c : StatelessConfig}
    (h : EndsIn (statelessAlu i j) r holes c left) :
    c.result = j ∧ holes.get? (demuxHole (aluName r.1.sketchName "stateless" i j)) = some c.enable := by
  unfold statelessAlu at h
  simp only [endsIn_bind, endsIn_read, endsIn_pure, endsIn_take, endsIn_ofExcept] at h
  obtain ⟨_, _, ⟨rfl, rfl⟩, enable, _, ⟨henable, -⟩, opcode, _, -, first, _, -, second, _, -, place, _, -,
    immediate, _, -, rfl, -⟩ := h
  exact ⟨rfl, henable⟩

theorem statefulConfig_output {k : Nat} {c : StatefulConfig}
    (h : EndsIn (statefulConfig i k) r holes c left) :
    holes.get? (demuxHole (aluName r.1.sketchName "stateful" i k)) = some c.output := by
  unfold statefulConfig at h
  simp only [endsIn_bind, endsIn_read, endsIn_pure, endsIn_take] at h
  obtain ⟨expressions, s, halu, _, _, ⟨rfl, rfl⟩, output, _, ⟨houtput, -⟩, rfl, -⟩ := h
  exact (statefulAlu_usesUp _).related halu _ _ houtput

/-- The rows of an assembly that make a stage, with what their values are taken from. -/
structure StageRows (t : Target) (a : Assembly) (hole : String → Int) (i : Nat) (stateless : List StatelessConfig)
    (stateful : List StatefulConfig) (active : List Int) : Prop where
  stateless_eq : a.stateless[i]? = some stateless
  stateful_eq : a.stateful[i]? = some stateful
  active_eq : a.configurations[i]? = some active
  stateless_length : stateless.length = t.alus.toNat
  stateful_length : stateful.length = t.groups.toNat
  active_length : active.length = t.groups.toNat
  enable : ∀ j c, stateless[j]? = some c →
    c.result = j ∧ c.enable = hole (demuxHole (aluName t.sketchName "stateless" i j))
  output : ∀ k c, stateful[k]? = some c → c.output = hole (demuxHole (aluName t.sketchName "stateful" i k))
  active : ∀ k v, active[k]? = some v → v = hole (configurationHole t i k)

theorem assemble_stageRows (h : EndsIn assemble (t, files) holes a left) (hholes : Agrees holes hole)
    (hi : i < t.stages.toNat) : ∃ stateless stateful active, StageRows t a hole i stateless stateful active := by
  obtain ⟨s₁, s₂, hs₁, hstateful, hstateless, hs₂, hactive⟩ := assemble_parts h
  obtain ⟨srow, hsrow, hslength, hsplaces⟩ := grid_row statefulConfig_usesUp hstateful hi
  obtain ⟨row, hrow, hlength, hplaces⟩ := grid_row statelessAlu_usesUp hstateless hi
  obtain ⟨crow, hcrow, hclength, hcplaces⟩ := grid_row (fun _ _ => take_usesUp _) hactive hi
  refine ⟨row, srow, crow, hrow, hsrow, hcrow, hlength, hslength, hclength, ?_, ?_, ?_⟩
  · intro j c hc
    obtain ⟨s, s', hs, hend⟩ := hplaces j c hc
    obtain ⟨hresult, henable⟩ := statelessAlu_enable hend
    exact ⟨hresult, hholes _ _ (hs₁ _ _ (hs _ _ henable))⟩
  · intro k c hc
    obtain ⟨s, s', hs, hend⟩ := hsplaces k c hc
    have houtput := statefulConfig_output hend
    exact hholes _ _ (hs _ _ houtput)
  · intro k v hv
    obtain ⟨s, s', hs, hend⟩ := hcplaces k v hv
    have hvalue := (endsIn_take.1 hend).1
    exact hholes _ _ (hs₂ _ _ (hs _ _ hvalue))

/-- A stateless ALU that is enabled writes the container of its number. -/
theorem target_stateless (h : EndsIn assemble (t, files) holes a left) (hholes : Agrees holes hole)
    (hprogram : a.program name groups = .ok program) (hi : i < t.stages.toNat) (j : Nat) :
    program.target ⟨.stateless, i, j⟩ =
      if j < t.alus.toNat ∧ hole (demuxHole (aluName t.sketchName "stateless" i j)) = 1 then some (containerText j)
      else none := by
  obtain ⟨stateless, stateful, active, hrows⟩ := assemble_stageRows h hholes hi
  obtain ⟨boxes, hstage, -⟩ := program_stage hprogram hrows.stateless_eq hrows.stateful_eq hrows.active_eq
  show program.stages[i]?.bind _ = _
  rw [hstage, Option.bind_some, List.getElem?_map]
  by_cases hj : j < t.alus.toNat
  · have hlt : j < stateless.length := hrows.stateless_length ▸ hj
    have hc := List.getElem?_eq_getElem hlt
    obtain ⟨hresult, henable⟩ := hrows.enable j _ hc
    rw [hc, Option.map_some, Option.join_some, map_target_statelessPlace, hresult, henable]
    simp only [hj, true_and]
  · have hnone : stateless[j]? = none := List.getElem?_eq_none (by rw [hrows.stateless_length]; omega)
    rw [hnone, if_neg fun h => hj h.1]
    rfl

/-- A stateful ALU that is active writes the container that its output is sent to. -/
theorem target_stateful (h : EndsIn assemble (t, files) holes a left) (hholes : Agrees holes hole)
    (hprogram : a.program name groups = .ok program) (hi : i < t.stages.toNat) (k : Nat) :
    program.target ⟨.stateful, i, k⟩ =
      if k < t.groups.toNat ∧ hole (configurationHole t i k) = 1 then
        some (containerText (hole (demuxHole (aluName t.sketchName "stateful" i k))))
      else none := by
  obtain ⟨stateless, stateful, active, hrows⟩ := assemble_stageRows h hholes hi
  obtain ⟨boxes, hstage, hboxes⟩ := program_stage hprogram hrows.stateless_eq hrows.stateful_eq hrows.active_eq
  have hlength : boxes.length = t.groups.toNat := by
    rw [← hboxes.length_eq, List.length_zip, hrows.stateful_length, hrows.active_length, Nat.min_self]
  show program.stages[i]?.bind _ = _
  rw [hstage, Option.bind_some]
  by_cases hk : k < t.groups.toNat
  · have hlt : k < stateful.length := hrows.stateful_length ▸ hk
    have hlt' : k < active.length := hrows.active_length ▸ hk
    have hc := List.getElem?_eq_getElem hlt
    have hv := List.getElem?_eq_getElem hlt'
    have hzip : (stateful.zip active)[k]? = some (stateful[k], active[k]) := List.getElem?_zip_eq_some.2 ⟨hc, hv⟩
    obtain ⟨b, hb, hplace⟩ := getElem?_of_forall₂ hboxes hzip
    show boxes[k]?.join.map Blackbox.output = _
    rw [hb, Option.join_some, map_output_statefulPlace hplace]
    simp only [hrows.output k _ hc, hrows.active k _ hv, hk, true_and]
  · have hnone : boxes[k]? = none := List.getElem?_eq_none (by omega)
    show boxes[k]?.join.map Blackbox.output = _
    rw [hnone, if_neg fun h => hk h.1]
    rfl

/-- A switch program is made for the pipeline of a sketch: every container has a stateless ALU, and every state group
has its own stateful ALU. -/
structure Target.Covers (t : Target) (p : Plan) : Prop where
  sketchName : t.sketchName = p.shape.sketchName
  stages : t.stages = p.shape.stages
  groups : t.groups = p.shape.groups
  containers : p.shape.containers ≤ t.alus

theorem holds_ownWriter (hcovers : t.Covers p) (i j : Nat) :
    (p.ownWriter i j).condition.holds hole = true ↔
      hole (demuxHole (aluName t.sketchName "stateless" i j)) = 1 := by
  rw [hcovers.sketchName, aluName_statelessName]
  exact beq_iff_eq

theorem holds_groupWriter (hcovers : t.Covers p) (i j k : Nat) :
    (p.groupWriter i j k).condition.holds hole = true ↔
      hole (demuxHole (aluName t.sketchName "stateful" i k)) = j ∧ hole (configurationHole t i k) = 1 := by
  rw [configurationHole, hcovers.sketchName, aluName_statefulName]
  show (_ && _) = true ↔ _
  rw [Bool.and_eq_true]
  exact and_congr beq_iff_eq beq_iff_eq

/-- The stateless table that writes a container is that of its number, if the container takes its own ALU. -/
theorem target_stateless_eq (hcovers : t.Covers p) (h : EndsIn assemble (t, files) holes a left)
    (hholes : Agrees holes hole) (hprogram : a.program name groups = .ok program) {n : Nat}
    (hi : i ∈ upTo p.shape.stages) (hj : j ∈ upTo p.shape.containers) :
    program.target ⟨.stateless, i, n⟩ = some (containerText j) ↔
      n = j ∧ (p.ownWriter i j).condition.holds hole = true := by
  have hi : i < t.stages.toNat := by rw [hcovers.stages]; exact List.mem_range.1 hi
  have hj : j < t.alus.toNat := by
    have hlt : j < p.shape.containers.toNat := List.mem_range.1 hj
    have hle := hcovers.containers
    omega
  rw [target_stateless h hholes hprogram hi, holds_ownWriter hcovers]
  simp only [Option.ite_none_right_eq_some, Option.some.injEq, containerText_natCast_inj]
  constructor
  · rintro ⟨⟨-, henable⟩, rfl⟩
    exact ⟨rfl, henable⟩
  · rintro ⟨rfl, henable⟩
    exact ⟨⟨hj, henable⟩, rfl⟩

/-- The stateful tables that write a container are those of the groups that it may take. -/
theorem target_stateful_eq (hcovers : t.Covers p) (h : EndsIn assemble (t, files) holes a left)
    (hholes : Agrees holes hole) (hprogram : a.program name groups = .ok program) {k : Nat}
    (hi : i ∈ upTo p.shape.stages) :
    program.target ⟨.stateful, i, k⟩ = some (containerText j) ↔
      k ∈ upTo p.shape.groups ∧ (p.groupWriter i j k).condition.holds hole = true := by
  have hi : i < t.stages.toNat := by rw [hcovers.stages]; exact List.mem_range.1 hi
  have hk : k ∈ upTo p.shape.groups ↔ k < t.groups.toNat := by rw [hcovers.groups]; exact List.mem_range
  rw [target_stateful h hholes hprogram hi, holds_groupWriter hcovers, hk]
  simp only [Option.ite_none_right_eq_some, Option.some.injEq, containerText_inj]
  constructor
  · rintro ⟨⟨hlt, hactive⟩, hdemux⟩
    exact ⟨hlt, hdemux, hactive⟩
  · rintro ⟨hlt, hdemux, hactive⟩
    exact ⟨⟨hlt, hactive⟩, hdemux⟩

theorem exists_only_of_countP {xs : List Nat} {P : Nat → Bool} (h : xs.countP P = 1) :
    ∃ x ∈ xs, P x = true ∧ ∀ y ∈ xs, P y = true → y = x := by
  rw [List.countP_eq_length_filter] at h
  obtain ⟨x, hx⟩ := List.length_eq_one_iff.1 h
  have hmem (y : Nat) : y ∈ xs ∧ P y = true ↔ y = x := by
    rw [← List.mem_filter, hx, List.mem_singleton]
  obtain ⟨hx, hP⟩ := (hmem x).2 rfl
  exact ⟨x, hx, hP, fun y hy hPy => (hmem y).1 ⟨hy, hPy⟩⟩

/-- Where exactly one condition for a container holds, exactly one table of the stage writes it. -/
theorem existsUnique_writer (hcovers : t.Covers p) (h : EndsIn assemble (t, files) holes a left)
    (hholes : Agrees holes hole) (hprogram : a.program name groups = .ok program)
    (hi : i ∈ upTo p.shape.stages) (hj : j ∈ upTo p.shape.containers)
    (hone : (p.writers i j).countP (fun b => b.condition.holds hole) = 1) :
    ∃! place, place ∈ program.tables ∧ place.stage = i ∧ program.target place = some (containerText j) := by
  have hstateless (n : Nat) := target_stateless_eq (n := n) hcovers h hholes hprogram hi hj
  have hstateful (k : Nat) := target_stateful_eq (j := j) (k := k) hcovers h hholes hprogram hi
  have htable {place : Place} (hplace : program.target place = some (containerText j)) : place ∈ program.tables := by
    rw [Program.mem_tables, hplace]
    rfl
  rw [Plan.writers, List.countP_cons, List.countP_map] at hone
  -- Either the container takes its own ALU and no group, or it takes exactly one group.
  by_cases hown : (p.ownWriter i j).condition.holds hole = true
  · have hnone : (upTo p.shape.groups).countP
        ((fun b => b.condition.holds hole) ∘ p.groupWriter i j) = 0 := by
      rw [if_pos hown] at hone
      omega
    have htarget := (hstateless j).2 ⟨rfl, hown⟩
    refine ⟨⟨.stateless, i, j⟩, ⟨htable htarget, rfl, htarget⟩, ?_⟩
    rintro ⟨kind, _, n⟩ ⟨-, rfl, hplace⟩
    cases kind with
    | stateless => rw [((hstateless n).1 hplace).1]
    | stateful =>
      obtain ⟨hn, hholds⟩ := (hstateful n).1 hplace
      exact absurd hholds (List.countP_eq_zero.1 hnone n hn)
  · rw [if_neg hown] at hone
    obtain ⟨k, hk, hholds, honly⟩ := exists_only_of_countP hone
    have htarget := (hstateful k).2 ⟨hk, hholds⟩
    refine ⟨⟨.stateful, i, k⟩, ⟨htable htarget, rfl, htarget⟩, ?_⟩
    rintro ⟨kind, _, n⟩ ⟨-, rfl, hplace⟩
    cases kind with
    | stateless => exact absurd ((hstateless n).1 hplace).2 hown
    | stateful =>
      obtain ⟨hn, hholds'⟩ := (hstateful n).1 hplace
      rw [honly n hn hholds']

end Targets

/-! ### The file of a switch program -/

/-- Work that prints something and does nothing else. -/
def Prints (m : Work Unit) : Prop :=
  ∀ w, ∃ printed, Ends m w () { w with printed := printed }

theorem prints_say (line : String) : Prints (Work.say line) :=
  fun _ => ⟨_, ends_modify.2 rfl⟩

theorem prints_pure : Prints (pure ()) :=
  fun w => ⟨w.printed, ends_pure.2 ⟨rfl, rfl⟩⟩

theorem prints_forM (lines : List String) : Prints (lines.forM Work.say) := by
  induction lines with
  | nil => exact prints_pure
  | cons line lines ih =>
    intro w
    obtain ⟨printed, hfirst⟩ := prints_say line w
    obtain ⟨printed', hrest⟩ := ih { w with printed := printed }
    exact ⟨printed', ends_bind.2 ⟨(), _, hfirst, hrest⟩⟩

theorem prints_ite (c : Prop) [Decidable c] (line : String) :
    Prints (if c then Work.say line else pure ()) := by
  split
  · exact prints_say line
  · exact prints_pure

/-- What is done after a line that may not be printed is done in either case. -/
theorem ite_say_bind (c : Prop) [Decidable c] (line : String) (rest : Work Unit) :
    (if c then Work.say line >>= fun _ => rest else rest) =
      (if c then Work.say line else pure ()) >>= fun _ => rest := by
  split
  · rfl
  · rw [pure_bind]

theorem Prints.files_eq {m : Work Unit} (hm : Prints m) {w w' : Workspace} (h : Ends m w () w') :
    w'.files = w.files := by
  obtain ⟨printed, hends⟩ := hm w
  rw [(hends.unique h).2]

theorem write_ends {path text : String} {w : Workspace} {written : Files}
    (h : w.files.write path text = .ok written) : Ends (Work.write path text) w () { w with files := written } := by
  simp only [Work.write, ends_bind, ends_get, Work.ends_ofExcept]
  exact ⟨w, w, ⟨rfl, rfl⟩, written, w, ⟨h, rfl⟩, ends_modify.2 rfl⟩

variable {t : Target} {a : Assembly} {left : Table Int} {w : Workspace} {written : Files}

/-- A switch program is written if its tables can be named, all its stateful ALUs have their expressions and its file
can be written; nothing else is written. -/
theorem emit_files_iff : (∃ w', Ends (emit t a left) w () w' ∧ w'.files = written) ↔
    ∃ name program, tableName t.sketchName = .ok name ∧ a.program name t.groups.toNat = .ok program ∧
      w.files.write (plainPath (t.sketchName ++ ".p4")) (withoutCopies program.render) = .ok written := by
  simp only [emit, ite_say_bind, ends_bind, Work.ends_ofExcept]
  constructor
  · rintro ⟨w', ⟨name, _, ⟨hname, rfl⟩, _, w₁, hnotice, _, w₂, hlines, program, _, ⟨hprogram, rfl⟩, _, w₃, hsubstituted,
      _, w₄, hwrite, hdone⟩, rfl⟩
    obtain ⟨files, hfiles, rfl⟩ := Work.write_inv hwrite
    refine ⟨name, program, hname, hprogram, ?_⟩
    rw [(prints_say _).files_eq hdone, ← (prints_ite _ _).files_eq hnotice, ← (prints_forM _).files_eq hlines,
      ← (prints_ite _ _).files_eq hsubstituted]
    exact hfiles
  · rintro ⟨name, program, hname, hprogram, hwrite⟩
    obtain ⟨_, hnotice⟩ := prints_ite (0 < left.size) "List of holes that we haven't used to generate p4 code" w
    obtain ⟨_, hlines⟩ := prints_forM (leftOver left) _
    obtain ⟨_, hsubstituted⟩ := prints_ite (withoutCopies program.render ≠ program.render)
      "Need to substitute original_hi/original_lo with register_hi/register_lo" _
    obtain ⟨_, hdone⟩ := prints_say ("Compilation to p4 done. Output left at " ++ (t.sketchName ++ ".p4")) _
    exact ⟨_, ⟨name, _, ⟨hname, rfl⟩, _, _, hnotice, _, _, hlines, program, _, ⟨hprogram, rfl⟩, _, _, hsubstituted,
      _, _, write_ends hwrite, hdone⟩, rfl⟩

/-- Generation ends with what the hole values are assembled to, written to a file. -/
theorem generate_eq_ok {holes : Table Int} {w' : Workspace} : generate t holes w = (.ok (), left, w') ↔
    ∃ a, EndsIn assemble (t, w.files) holes a left ∧ Ends (emit t a left) w () w' := by
  unfold generate EndsIn Ends
  generalize (assemble.run (t, w.files)).run.run holes = assembled
  obtain ⟨result, left'⟩ := assembled
  cases result with
  | error e =>
    constructor
    · intro h
      exact nomatch (congrArg Prod.fst h : Except.error e = .ok ())
    · rintro ⟨a, h, -⟩
      exact nomatch (congrArg Prod.fst h : Except.error e = .ok a)
  | ok a =>
    show ((((emit t a left').run.run w).1, left', ((emit t a left').run.run w).2) :
      Except Error Unit × Table Int × Workspace) = (.ok (), left, w') ↔ _
    constructor
    · intro h
      obtain rfl : left' = left := congrArg (fun r => r.2.1) h
      have hresult : ((emit t a left').run.run w).1 = .ok () := congrArg Prod.fst h
      have hworkspace : ((emit t a left').run.run w).2 = w' := congrArg (fun r => r.2.2) h
      exact ⟨a, rfl, Prod.ext hresult hworkspace⟩
    · rintro ⟨a', h, hemit⟩
      cases h
      rw [hemit]

namespace InactiveGroup

open ThreeContainers (files generator request target statelessValues sketch_ends)

/-- The stateful ALU is sent to the first container but is not active, so that all containers take their own ALUs. -/
def values : Table Int :=
  .ofList (statelessValues "n_stateless_alu_0_0" 0 ++ statelessValues "n_stateless_alu_0_1" 0 ++
    statelessValues "n_stateless_alu_0_2" 0 ++
    [("n_stateful_alu_0_0_operand_mux_0_ctrl", 0), ("n_stateful_alu_0_0_operand_mux_1_ctrl", 0),
     ("n_stateful_alu_0_0_demux_ctrl", 0), ("n_salu_config_0_0", 0)])

def value (hole : String) : Int :=
  (values.get? hole).getD 0

theorem agrees : Agrees values value := by
  intro name v h
  rw [value, h]
  rfl

/-- The switch program of an assembly, if there is one. -/
def assembled (a : Assembly) (_ : Table Int) : Bool :=
  (tableName target.sketchName >>= fun name => a.program name target.groups.toNat).toOption.isSome

theorem generates : ∃ left w', generate target values { files := files } = (.ok (), left, w') := by
  obtain ⟨a, left, hassemble, hassembled⟩ := exists_endsIn (m := assemble) (r := (target, files)) (s := values)
    assembled (by decide +kernel)
  cases hresult : tableName target.sketchName >>= fun name => a.program name target.groups.toNat with
  | error e =>
    rw [assembled, hresult] at hassembled
    exact nomatch hassembled
  | ok program =>
    obtain ⟨name, hname, hprogram⟩ := bind_eq_ok.1 hresult
    have hwrite : files.write (plainPath (target.sketchName ++ ".p4")) (withoutCopies program.render) =
        .ok (files.insert (pathName (plainPath (target.sketchName ++ ".p4"))) (withoutCopies program.render)) := by
      unfold Files.write
      dsimp only
      rw [if_neg (by decide +kernel), if_neg (by decide +kernel), if_neg (by decide +kernel),
        if_pos (by decide +kernel)]
    obtain ⟨w', hemit, -⟩ := (emit_files_iff (w := { files := files })).2 ⟨name, program, hname, hprogram, hwrite⟩
    exact ⟨left, w', generate_eq_ok.2 ⟨a, hassemble, hemit⟩⟩

end InactiveGroup

end SwitchSynth.P4
