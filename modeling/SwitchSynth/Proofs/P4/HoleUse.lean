import SwitchSynth.Proofs.P4.Operands
import SwitchSynth.Proofs.P4.Progress
import SwitchSynth.Proofs.Sketch.ReadBack
import SwitchSynth.Proofs.Synthesis.Constants

/-!
# The holes of a sketch are those of a switch program

A sketch and the switch program made of it name the holes on their own: for the operands, the operators and the outputs
of the ALUs, for the primitives of stateful ALUs, and for what is active. Assembling a switch program takes the values
of holes from a table, one after the other. Which holes these are does not depend on the table, only how far it gets:
it takes all of them or stops at the first one that is not there. They are those of the sketch, each of them once.
-/

namespace SwitchSynth

open Sketch (Generator Layout HoleName Hole Primitive Family upTo operandRest demuxRest sourceWalk holeKeys ownNumber)

theorem Table.mem_keys_erase {α : Type} {t : Table α} {k k' : String} :
    k' ∈ (t.erase k).keys ↔ k ≠ k' ∧ k' ∈ t.keys := by
  rw [← not_iff_not, ← get?_eq_none_iff, get?_erase, not_and, ← get?_eq_none_iff]
  by_cases h : k = k' <;> simp [h]

namespace P4

/-- The values that choose constants, in calls of stateful ALUs or as immediate operands of stateless ones, are below
the number of constants. -/
structure Target.InRange (t : Target) (holes : Table Int) : Prop where
  constant : ∀ (i l n : Nat) v,
    holes.get? ((HoleName.stateful i l (Family.constant.rest n)).text t.sketchName) = some v →
      0 ≤ v ∧ v < t.constants.length
  immediate : ∀ (i j : Nat) v,
    holes.get? ((HoleName.stateless i j "immediate_operand").text t.sketchName) = some v →
      0 ≤ v ∧ v < t.constants.length

theorem Target.InRange.within {t : Target} {holes left : Table Int} (h : t.InRange holes)
    (hwithin : left.Within holes) : t.InRange left :=
  ⟨fun i l n v hv => h.constant i l n v (hwithin _ _ hv), fun i j v hv => h.immediate i j v (hwithin _ _ hv)⟩

namespace Assemble

/-! ### Taking holes part by part -/

/-- A computation takes the values of holes, one after the other. It takes all of them, or it stops at the first one
that is not there. -/
def Draws {α : Type} (r : Target × Files) (keys : List String) (m : Assemble α) : Prop :=
  ∀ s, r.1.InRange s →
    (∃ a s', EndsIn m r s a s' ∧ Table.Taken s keys s') ∨
    ∃ done k rest s', keys = done ++ k :: rest ∧ Table.Taken s done s' ∧ s'.get? k = none ∧
      StopsIn m r s (.missingKey k) s'

section Draws

variable {α β : Type} {r : Target × Files} {keys keys' : List String}

theorem Draws.bind {m : Assemble α} {f : α → Assemble β} (hm : Draws r keys m) (hf : ∀ a, Draws r keys' (f a)) :
    Draws r (keys ++ keys') (m >>= f) := by
  intro s hs
  rcases hm s hs with ⟨a, s₁, hfirst, htaken⟩ | ⟨done, k, rest, s₁, hsplit, htaken, hnone, hstop⟩
  · rcases hf a s₁ (hs.within htaken.within) with ⟨b, s₂, hrest, htaken'⟩ |
      ⟨done, k, rest, s₂, hsplit, htaken', hnone, hstop⟩
    · exact .inl ⟨b, s₂, endsIn_bind.2 ⟨a, s₁, hfirst, hrest⟩, htaken.trans htaken'⟩
    · refine .inr ⟨keys ++ done, k, rest, s₂, ?_, htaken.trans htaken', hnone, ?_⟩
      · rw [hsplit, List.append_assoc]
      · exact stopsIn_bind.2 (.inr ⟨a, s₁, hfirst, hstop⟩)
  · refine .inr ⟨done, k, rest ++ keys', s₁, ?_, htaken, hnone, stopsIn_bind.2 (.inl hstop)⟩
    rw [hsplit, List.append_assoc, List.cons_append]

theorem draws_of_untouched {m : Assemble α} {a : α} (h : ∀ s, EndsIn m r s a s) : Draws r [] m :=
  fun s _ => .inl ⟨a, s, h s, .nil s⟩

theorem draws_pure (a : α) : Draws r [] (pure a) :=
  draws_of_untouched fun _ => endsIn_pure.2 ⟨rfl, rfl⟩

theorem Draws.reading {f : Target × Files → Assemble α} (h : Draws r keys (f r)) : Draws r keys (read >>= f) :=
  h

theorem draws_take (hole : String) : Draws r [hole] (take hole) := by
  intro s _
  cases hget : s.get? hole with
  | some v => exact .inl ⟨v, s.erase hole, endsIn_take.2 ⟨hget, rfl⟩, .cons hget (.nil _)⟩
  | none =>
    refine .inr ⟨[], hole, [], s, rfl, .nil s, hget, ?_⟩
    show ((take hole).run r).run.run s = _
    rw [take_run, hget]

variable {hole : String} {s : Table Int}

theorem Draws.taking {f : Int → Assemble α} (hf : ∀ v, Draws r keys (f v)) :
    Draws r (hole :: keys) (take hole >>= f) :=
  (draws_take hole).bind hf

theorem draws_constant
    (hrange : ∀ s : Table Int, r.1.InRange s → ∀ v, s.get? hole = some v → 0 ≤ v ∧ v < r.1.constants.length) :
    Draws r [hole] (take hole >>= fun v => ofExcept (atPlace r.1.constants v)) := by
  intro s hs
  rcases draws_take hole s hs with ⟨v, s', hend, htaken⟩ | ⟨done, k, rest, s', hsplit, htaken, hnone, hstop⟩
  · obtain ⟨hpos, hlt⟩ := hrange s hs v (endsIn_take.1 hend).1
    obtain ⟨x, hx⟩ := atPlace_of_lt hpos hlt
    exact .inl ⟨x, s', endsIn_bind.2 ⟨v, s', hend, endsIn_ofExcept.2 ⟨hx, rfl⟩⟩, htaken⟩
  · exact .inr ⟨done, k, rest, s', hsplit, htaken, hnone, stopsIn_bind.2 (.inl hstop)⟩

theorem draws_mapM {γ : Type} {places : γ → List String} {f : γ → Assemble α} (hf : ∀ x, Draws r (places x) (f x))
    (xs : List γ) : Draws r (xs.flatMap places) (xs.mapM f) := by
  induction xs with
  | nil => exact draws_pure []
  | cons x xs ih =>
    rw [List.mapM_cons, List.flatMap_cons, ← List.append_nil (xs.flatMap places)]
    exact (hf x).bind fun y => ih.bind fun ys => draws_pure (y :: ys)

theorem draws_grid {width : Int} {places : Nat → Nat → List String} {f : Nat → Nat → Assemble α}
    (hf : ∀ i j, Draws r (places i j) (f i j)) :
    Draws r ((upTo r.1.stages).flatMap fun i => (upTo width).flatMap (places i)) (grid width f) :=
  .reading (draws_mapM (fun i => draws_mapM (hf i) (upTo width)) (upTo r.1.stages))

theorem Draws.ends {m : Assemble α} (h : Draws r keys m) (hs : r.1.InRange s) (hnodup : keys.Nodup)
    (hkeys : ∀ k ∈ keys, k ∈ s.keys) : ∃ a s', EndsIn m r s a s' ∧ Table.Taken s keys s' := by
  refine (h s hs).resolve_right ?_
  rintro ⟨done, k, rest, s', rfl, htaken, hnone, -⟩
  have hnew : k ∉ done := fun hmem => (List.nodup_append.1 hnodup).2.2 k hmem k List.mem_cons_self rfl
  rw [htaken.get?_eq, if_neg hnew, Table.get?_eq_none_iff] at hnone
  exact hnone (hkeys k (List.mem_append_right done List.mem_cons_self))

theorem Draws.stops {m : Assemble α} {k : String} (h : Draws r keys m) (hs : r.1.InRange s)
    (hnodup : keys.Nodup) (hk : k ∈ keys) (hnone : k ∉ s.keys) (hkeys : ∀ k' ∈ keys, k' ≠ k → k' ∈ s.keys) :
    ∃ s', StopsIn m r s (.missingKey k) s' := by
  rcases h s hs with ⟨a, s', -, htaken⟩ | ⟨done, k', rest, s', rfl, htaken, hnone', hstop⟩
  · exact absurd (htaken.mem_keys hk) hnone
  · have hnew : k' ∉ done := fun hmem => (List.nodup_append.1 hnodup).2.2 k' hmem k' List.mem_cons_self rfl
    rw [htaken.get?_eq, if_neg hnew, Table.get?_eq_none_iff] at hnone'
    by_cases heq : k' = k
    · exact ⟨s', heq ▸ hstop⟩
    · exact absurd (hkeys k' (List.mem_append_right done List.mem_cons_self) heq) hnone'

end Draws

/-! ### The holes of an ALU -/

section Alus

open Text (path)

variable {r : Target × Files} (sketch : String) (i j : Nat) (rest : String)

theorem aluName_eq (kind : String) :
    aluName sketch kind i j = sketch ++ path [kind, "alu", toString i, toString j] := by
  simp [aluName, path, ← String.toList_inj]

theorem text_stateless :
    (HoleName.stateless i j rest).text sketch = aluName sketch "stateless" i j ++ ("_" ++ rest) := by
  rw [HoleName.text_of_inSketch rfl, aluName_eq, String.append_assoc]
  rfl

theorem text_stateful :
    (HoleName.stateful i j rest).text sketch = aluName sketch "stateful" i j ++ ("_" ++ rest) := by
  rw [HoleName.text_of_inSketch rfl, aluName_eq, String.append_assoc]
  rfl

/-- What the holes of a stateless ALU are for, in the order in which they are taken. -/
def statelessRests : List String :=
  [demuxRest, "opcode", operandRest 0, operandRest 1, "immediate_operand"]

theorem draws_statelessAlu : Draws r (statelessRests.map fun rest => (HoleName.stateless i j rest).text r.1.sketchName)
    (statelessAlu i j) := by
  have hrest (s : Table Int) (hs : r.1.InRange s) (v : Int)
      (hv : s.get? (aluName r.1.sketchName "stateless" i j ++ "_immediate_operand") = some v) :
      0 ≤ v ∧ v < r.1.constants.length := by
    refine hs.immediate i j v ?_
    rw [text_stateless]
    exact hv
  simp only [text_stateless, statelessRests, List.map_cons, List.map_nil]
  unfold statelessAlu
  refine .reading (.taking fun enable => .taking fun opcode => .taking fun first => .taking fun second => ?_)
  have himmediate := (draws_constant hrest).bind fun immediate =>
    draws_pure (⟨enable, opcode, j, first, second, immediate⟩ : StatelessConfig)
  rw [bind_assoc] at himmediate
  exact himmediate

/-- What the holes of a stateful ALU are for, in the order in which they are taken. -/
def statefulRests (d : Alu.Description) : List String :=
  [operandRest 0, operandRest 1] ++ (Sketch.helperKeys d).map (fun h => h.1.rest h.2) ++ [demuxRest]

/-- The holes of the primitives of a stateful ALU, as the sketch names them. -/
theorem ownKeys_eq (d : Alu.Description) :
    holeKeys (aluName sketch "stateful" i j) ownNumber [] ((sourceWalk (.whole d)).primitives.map Primitive.family) =
      (Sketch.helperKeys d).map fun h => (HoleName.stateful i j (h.1.rest h.2)).text sketch := by
  have hnumbered := Sketch.globalHoles_numbered (aluName sketch "stateful" i j) [] (sourceWalk (.whole d)).primitives
  rw [List.map_nil, List.nil_append, List.map_nil] at hnumbered
  rw [← hnumbered, Sketch.helperKeys, List.map_map]
  refine List.map_congr_left fun h _ => ?_
  show h.globalHole _ = (HoleName.stateful i j (h.primitive.family.rest h.number)).text sketch
  rw [text_stateful, Sketch.Helper.globalHole, Family.globalHole, Family.rest]
  simp only [String.append_assoc]

theorem inRange_setting {s : Table Int} (hs : r.1.InRange s) (low high : String) :
    StatefulAlu.InRange ⟨aluName r.1.sketchName "stateful" i j, r.1.constants, low, high⟩ s := by
  intro n v hv
  refine hs.constant i j n v ?_
  rw [text_stateful, Family.rest]
  simpa only [Family.globalHole, String.append_assoc] using hv

section Stateful

variable {text : String} {d : Alu.Description}

theorem draws_lower (hregular : Alu.Regular d.body.parts) (hwalk : (sourceWalk (.whole d)).outcome = .ok ())
    (low high : String) :
    Draws r ((Sketch.helperKeys d).map fun h => (HoleName.stateful i j (h.1.rest h.2)).text r.1.sketchName) (do
      let lowered := StatefulAlu.lower ⟨aluName r.1.sketchName "stateful" i j, r.1.constants, low, high⟩ (← get)
        (.whole d)
      set lowered.2.holes
      ofExcept lowered.1
      return lowered.2.expressions) := by
  intro s hs
  rcases StatefulAlu.lower_takes hregular hwalk (inRange_setting i j hs low high) (ownKeys_eq r.1.sketchName i j d).symm
    with ⟨hok, htaken⟩ | ⟨done, k, rest, hsplit, htaken, hnone, herror⟩
  · exact .inl ⟨_, _, endsIn_bind.2 ⟨s, s, endsIn_get.2 ⟨rfl, rfl⟩, endsIn_bind.2 ⟨⟨⟩, _, endsIn_set.2 rfl,
      endsIn_bind.2 ⟨(), _, endsIn_ofExcept.2 ⟨hok, rfl⟩, endsIn_pure.2 ⟨rfl, rfl⟩⟩⟩⟩, htaken⟩
  · refine .inr ⟨done, k, rest, _, hsplit, htaken, hnone, stopsIn_bind.2 (.inr ⟨s, s, endsIn_get.2 ⟨rfl, rfl⟩, ?_⟩)⟩
    refine stopsIn_bind.2 (.inr ⟨⟨⟩, _, endsIn_set.2 rfl, stopsIn_bind.2 (.inl ?_)⟩)
    rw [herror]
    exact stopsIn_throw.2 ⟨rfl, rfl⟩

variable (htext : r.2.readAscii r.1.statefulFile = .ok text) (hd : Alu.Source.read (Alu.lex text) = .whole d)
  (hregular : Alu.Regular d.body.parts) (hwalk : (sourceWalk (.whole d)).outcome = .ok ())

include htext hd hregular hwalk

/-- A stateful ALU takes the holes of its operands and those of its primitives. -/
theorem draws_statefulAlu :
    Draws r (([operandRest 0, operandRest 1] ++ (Sketch.helperKeys d).map fun h => h.1.rest h.2).map fun rest =>
        (HoleName.stateful i j rest).text r.1.sketchName)
      (statefulAlu ("stateful_alu_" ++ toString i ++ "_" ++ toString j)) := by
  have hname : r.1.sketchName ++ "_" ++ ("stateful_alu_" ++ toString i ++ "_" ++ toString j) =
      aluName r.1.sketchName "stateful" i j := by
    simp [aluName, ← String.toList_inj]
  rw [List.map_append, List.map_map, List.map_cons, List.map_cons, List.map_nil, text_stateful, text_stateful]
  unfold statefulAlu
  refine .reading ?_
  dsimp only
  rw [hname, htext, show ofExcept (.ok text) = pure text from rfl, pure_bind, hd]
  exact .taking fun low => .taking fun high => draws_lower i j hregular hwalk (containerText low) (containerText high)

theorem draws_statefulConfig :
    Draws r ((statefulRests d).map fun rest => (HoleName.stateful i j rest).text r.1.sketchName)
      (statefulConfig i j) := by
  have hdemux : aluName r.1.sketchName "stateful" i j ++ "_demux_ctrl" =
      (HoleName.stateful i j demuxRest).text r.1.sketchName := by
    rw [text_stateful]
    rfl
  rw [statefulRests, List.map_append]
  unfold statefulConfig
  refine (draws_statefulAlu i j htext hd hregular hwalk).bind fun expressions => .reading ?_
  rw [hdemux]
  exact .taking fun output => draws_pure _

end Stateful

theorem draws_configurations : Draws r ((upTo r.1.stages).flatMap fun i => (upTo r.1.groups).map fun k =>
    (HoleName.active i k).text r.1.sketchName) configurations := by
  simp only [List.map_eq_flatMap]
  unfold configurations
  refine .reading (draws_grid fun i k => ?_)
  have hname : (HoleName.active i k).text r.1.sketchName =
      r.1.sketchName ++ "_salu_config_" ++ toString i ++ "_" ++ toString k := by
    simp [HoleName.text, HoleName.heading, HoleName.ending, path, ← String.toList_inj]
  rw [hname]
  exact draws_take _

end Alus

end Assemble

/-! ### All holes -/

/-- The holes for some purposes at all places of a pipeline. -/
def placeNames (stages width : Int) (name : Nat → Nat → String → HoleName) (rests : List String) : List HoleName :=
  (upTo stages).flatMap fun i => (upTo width).flatMap fun j => rests.map (name i j)

/-- The holes that are taken for a pipeline, in order. -/
def takenNames (stages alus groups : Int) (d : Alu.Description) : List HoleName :=
  placeNames stages groups .stateful (Assemble.statefulRests d) ++
    placeNames stages alus .stateless Assemble.statelessRests ++
    (upTo stages).flatMap fun i => (upTo groups).map (.active i)

theorem draws_assemble {r : Target × Files} {text : String} {d : Alu.Description}
    (htext : r.2.readAscii r.1.statefulFile = .ok text) (hd : Alu.Source.read (Alu.lex text) = .whole d)
    (hregular : Alu.Regular d.body.parts) (hwalk : (sourceWalk (.whole d)).outcome = .ok ()) :
    Assemble.Draws r ((takenNames r.1.stages r.1.alus r.1.groups d).map (HoleName.text r.1.sketchName)) assemble := by
  simp only [takenNames, placeNames, List.map_append, List.map_flatMap, List.map_map]
  unfold assemble Assemble.statefulAlus Assemble.statelessAlus
  rw [List.append_assoc]
  refine .bind (.reading (Assemble.draws_grid fun i l => Assemble.draws_statefulConfig i l htext hd hregular hwalk))
    fun stateful => ?_
  refine .bind (.reading (Assemble.draws_grid fun i j => Assemble.draws_statelessAlu i j)) fun stateless => ?_
  rw [← List.append_nil (List.flatMap _ _)]
  exact .bind Assemble.draws_configurations fun configurations => Assemble.draws_pure _

section Permutation

variable (stages width : Int) (name : Nat → Nat → String → HoleName) {rests rests' : List String}

theorem placeNames_perm (h : rests.Perm rests') :
    (placeNames stages width name rests).Perm (placeNames stages width name rests') :=
  .flatMap_left _ fun i _ => .flatMap_left _ fun j _ => h.map (name i j)

theorem placeNames_append_perm (rests rests' : List String) : (placeNames stages width name (rests ++ rests')).Perm
    (placeNames stages width name rests ++ placeNames stages width name rests') := by
  simp only [placeNames, List.map_append]
  refine .trans (.flatMap_left _ fun i _ => (List.flatMap_append_perm (upTo width) _ _).symm) ?_
  exact (List.flatMap_append_perm (upTo stages) _ _).symm

variable {b : Layout} {d : Alu.Description}

/-- The holes of a stateless ALU are what it brings along and what tells whether it writes its container. -/
theorem statelessRests_perm (hd : Sketch.describedBy b.stateless = some d) (hfields : d.packetFields.length = 2)
    (hvars : d.holeVars.Perm ["opcode", "immediate_operand"]) :
    Assemble.statelessRests.Perm (b.statelessRests ++ [demuxRest]) := by
  rw [Layout.statelessRests, hd]
  dsimp only
  rw [hfields]
  refine .trans ?_ ((hvars.symm.append_left _).append_right _)
  decide

theorem statefulRests_eq (hd : Sketch.describedBy b.stateful = some d) (hfields : d.packetFields.length = 2) :
    Assemble.statefulRests d = b.operandRests ++ b.helperRests ++ [demuxRest] := by
  rw [Layout.operandRests, Layout.helperRests, hd, Option.elim_some, hfields]
  rfl

/-- Where each state group has its own ALU, the holes of the sketch are those at all places. -/
theorem holeNames_perm (htofino : b.shape.tofino = true) (hcanonical : b.synthesized = false) :
    b.holeNames.Perm (placeNames b.shape.stages b.shape.alus .stateless b.statelessRests ++
      placeNames b.shape.stages b.shape.groups .stateful b.helperRests ++
      placeNames b.shape.stages b.shape.groups .stateful b.operandRests ++
      (placeNames b.shape.stages b.shape.containers .stateless [demuxRest] ++
        placeNames b.shape.stages b.shape.groups .stateful [demuxRest]) ++
      (upTo b.shape.stages).flatMap fun i => (upTo b.shape.groups).map (.active i)) := by
  have hunits : b.plan.units = upTo b.shape.groups := by
    simp [Sketch.Plan.units, Layout.plan, hcanonical]
  have hstageNames : b.stageNames = fun i =>
      (upTo b.shape.alus).flatMap (fun j => b.statelessRests.map (.stateless i j)) ++
        (upTo b.shape.groups).flatMap fun l => b.helperRests.map (.stateful i l) := by
    funext i
    rw [Layout.stageNames, hunits]
  have houtput : b.outputNames = placeNames b.shape.stages b.shape.containers .stateless [demuxRest] ++
      placeNames b.shape.stages b.shape.groups .stateful [demuxRest] := by
    simp [Layout.outputNames, htofino, placeNames, List.map_eq_flatMap]
  have hallocation : b.allocationNames =
      (upTo b.shape.stages).flatMap fun i => (upTo b.shape.groups).map (.active i) := by
    simp [Layout.allocationNames, hcanonical]
  have hstages := (List.flatMap_append_perm (upTo b.shape.stages)
    (fun i => (upTo b.shape.alus).flatMap fun j => b.statelessRests.map (HoleName.stateless i j))
    (fun i => (upTo b.shape.groups).flatMap fun l => b.helperRests.map (HoleName.stateful i l))).symm
  rw [Layout.holeNames, houtput, hallocation, Layout.operandNames, hstageNames, hunits]
  exact ((hstages.append_right _).append_right _).append_right _

theorem perm_takenNames {ds : Alu.Description} (htofino : b.shape.tofino = true) (hcanonical : b.synthesized = false)
    (hcontainers : b.shape.containers = b.shape.alus) (hd : Sketch.describedBy b.stateful = some d)
    (hfields : d.packetFields.length = 2) (hds : Sketch.describedBy b.stateless = some ds)
    (hfields' : ds.packetFields.length = 2) (hvars : ds.holeVars.Perm ["opcode", "immediate_operand"]) :
    (takenNames b.shape.stages b.shape.alus b.shape.groups d).Perm b.holeNames := by
  have hstateless := (placeNames_perm b.shape.stages b.shape.alus .stateless
    (statelessRests_perm hds hfields' hvars)).trans (placeNames_append_perm ..)
  have hstateful := (placeNames_append_perm b.shape.stages b.shape.groups .stateful _ [demuxRest]).trans
    ((placeNames_append_perm b.shape.stages b.shape.groups .stateful b.operandRests b.helperRests).append_right _)
  rw [← statefulRests_eq hd hfields] at hstateful
  refine ((hstateful.append hstateless).append_right _).trans (.trans ?_ (holeNames_perm htofino hcanonical).symm)
  rw [hcontainers]
  refine List.perm_iff_count.2 fun n => ?_
  simp only [List.count_append]
  omega

end Permutation

end P4

/-! ### The sketch of a compiler -/

namespace Sketch

theorem StatefulAlu.outcome_of_ofSource {name : String} {bits : Int} {source : Alu.Source} {alu : StatefulAlu}
    (h : ofSource name bits source = .ok alu) : (sourceWalk source).outcome = .ok () := by
  obtain ⟨draft, hrun, -⟩ := run_putSource source
  unfold ofSource at h
  rw [hrun] at h
  cases houtcome : (sourceWalk source).outcome with
  | error e =>
    rw [houtcome] at h
    exact nomatch h
  | ok u => rfl

namespace Generator

variable {files : Files} {g g' : Generator} {r : Request} {p : Program}

theorem exists_of_described {file : String} {d : Alu.Description} (h : described files file = some d) :
    ∃ text, files.readAscii file = .ok text ∧ Alu.Source.read (Alu.lex text) = .whole d := by
  unfold described at h
  split at h
  · exact nomatch h
  · next text htext =>
    split at h
    · exact nomatch h
    · next hread =>
      cases h
      exact ⟨text, htext, hread⟩

/-- Where a sketch is written, the file of the stateful ALU is read and written down to its end. -/
theorem program_stateful (halus : HasAlus g) (h : EndsIn (program r) files g p g') :
    ∃ d, described files g.statefulFile = some d ∧ (sourceWalk (.whole d)).outcome = .ok () := by
  obtain ⟨g₁, _, _, hends, -⟩ := program_inv h
  obtain ⟨d, hd, -, _, _, -, ⟨bits, alu, halu, -⟩, -⟩ := alus_sizes (g := g.emptied) halus.stages halus.units hends
  exact ⟨d, hd, StatefulAlu.outcome_of_ofSource halu⟩

end Generator

end Sketch

/-- The generator of a compiler for a switch writes for the pipeline that its switch programs are made for. -/
theorem Compiler.target_fits {o : Compiler.Options} {files : Files} {c : Compiler} {g : Generator}
    (hc : Compiler.create o files = .ok c) (htofino : o.tofino = true) (hcanonical : o.synthesized = false)
    (hg : c.generator.Becomes g) (constants : List String) :
    g.Arises ∧ (c.target constants).Fits g ∧ g.statefulFile = o.statefulFile ∧ g.statelessFile = o.statelessFile := by
  obtain ⟨-, fields, bits, hbits, hoptions, -, hgenerator⟩ := Compiler.create_ok hc
  have hcreated : Generator.create (Compiler.shape o fields c.groups) o.synthesized o.statefulFile o.statelessFile
      o.constants = .ok c.generator := by
    unfold Generator.create
    rw [hbits, hgenerator]
    rfl
  obtain ⟨hshape, hsynthesized, hstateful, hstateless⟩ := hg.samePipeline (.created hcreated)
  rw [hgenerator] at hshape hsynthesized hstateful hstateless
  refine ⟨hg.arises (.created hcreated), ?_, hstateful, hstateless⟩
  rw [Compiler.target, hoptions]
  constructor <;> simp [hshape, Compiler.shape, hsynthesized, hcanonical, htofino]

namespace P4

/-- Making a switch program of a sketch takes its holes, each of them once. -/
theorem exists_draws {t : Target} {files : Files} {g g' : Generator} {r : Generator.Request} {text : String}
    (hg : g.Arises) (hfits : t.Fits g) (hfile : t.statefulFile = g.statefulFile)
    (hstateful : ∀ d, Generator.described files g.statefulFile = some d →
      d.packetFields.length = 2 ∧ Alu.Regular d.body.parts)
    (hstateless : ∀ d, Generator.described files g.statelessFile = some d →
      d.packetFields.length = 2 ∧ d.holeVars.Perm ["opcode", "immediate_operand"])
    (h : EndsIn (Generator.sketch r) files g text g') :
    ∃ taken, taken.Perm (g'.holes.map Hole.name) ∧ taken.Nodup ∧ Assemble.Draws (t, files) taken assemble := by
  obtain ⟨p, hprogram⟩ := Generator.sketch_program h
  have halus := hg.untouched.hasAlus hprogram
  obtain ⟨d, hd, hwalk⟩ := Generator.program_stateful halus hprogram
  obtain ⟨content, hcontent, hread⟩ := Generator.exists_of_described hd
  obtain ⟨ds, hds, -, -⟩ := Generator.program_holeVars halus hprogram
  obtain ⟨hfields, hregular⟩ := hstateful d hd
  obtain ⟨hfields', hvars⟩ := hstateless ds hds
  have hperm := perm_takenNames (b := g.layout files) hfits.tofino hfits.canonical hfits.containers hd hfields hds
    hfields' hvars
  have hnames := (hperm.map (HoleName.text g.shape.sketchName)).trans (Generator.program_perm halus hprogram).symm
  have hnodup : (g'.holes.map Hole.name).Nodup := by
    refine Generator.program_nodup halus (fun d hd v hv => ?_) hprogram
    have hmem := (hstateless d hd).2.subset hv
    exact (Generator.holeVar_inWords (by simpa using hmem)).2
  have hdraws := draws_assemble (r := (t, files)) (hfile ▸ hcontent) hread hregular hwalk
  rw [hfits.stages, hfits.alus, hfits.groups, hfits.sketchName] at hdraws
  exact ⟨_, hnames, hnames.nodup_iff.2 hnodup, hdraws⟩

/-- For every compiler for a switch that gives each state group its own stateful ALU, whatever its generator was asked
for before: the stateful ALU has two packet fields and uses neither an optional part nor a condition that always holds,
and the stateless one has two packet fields, an opcode and an immediate operand. Then all values of the holes of a
sketch, with choices of constants below their number, are made into a switch program. This takes each hole once and
leaves none, and it misses every hole that is not there. -/
theorem holes_of_sketch_are_used_up_once {o : Compiler.Options} {files : Files} {c : Compiler} {g g' : Generator}
    {r : Generator.Request} {text : String}
    (hc : Compiler.create o files = .ok c) (htofino : o.tofino = true) (hcanonical : o.synthesized = false)
    (hstateful : ∀ d, Generator.described files o.statefulFile = some d →
      d.packetFields.length = 2 ∧ Alu.Regular d.body.parts)
    (hstateless : ∀ d, Generator.described files o.statelessFile = some d →
      d.packetFields.length = 2 ∧ d.holeVars.Perm ["opcode", "immediate_operand"])
    (hg : c.generator.Becomes g) (h : EndsIn (Generator.sketch r) files g text g') (constants : List String) :
    ∃ taken, taken.Perm (g'.holes.map Hole.name) ∧ taken.Nodup ∧
      ∀ values : Table Int, (∀ k, k ∈ values.keys ↔ k ∈ g'.holes.map Hole.name) →
        (c.target constants).InRange values →
        (∃ a left, EndsIn assemble (c.target constants, files) values a left ∧
          Table.Taken values taken left ∧ left.keys = []) ∧
        ∀ k ∈ taken, ∃ left, StopsIn assemble (c.target constants, files) (values.erase k) (.missingKey k) left := by
  obtain ⟨harises, hfits, hfile, hfile'⟩ := Compiler.target_fits hc htofino hcanonical hg constants
  have hown : (c.target constants).statefulFile = g.statefulFile := by
    obtain ⟨-, _, _, -, hoptions, -⟩ := Compiler.create_ok hc
    rw [hfile, Compiler.target, hoptions]
  obtain ⟨taken, hperm, hnodup, hdraws⟩ := exists_draws harises hfits hown (hfile ▸ hstateful) (hfile' ▸ hstateless) h
  refine ⟨taken, hperm, hnodup, fun values hkeys hrange => ⟨?_, fun k hk => ?_⟩⟩
  · obtain ⟨a, left, hends, htaken⟩ :=
      hdraws.ends hrange hnodup fun k hk => (hkeys k).2 (hperm.subset hk)
    exact ⟨a, left, hends, htaken, htaken.keys_eq_nil fun k hk => hperm.symm.subset ((hkeys k).1 hk)⟩
  · refine hdraws.stops (hrange.within (Table.within_erase values k)) hnodup hk (fun hmem => ?_) fun k' hk' hne => ?_
    · exact (Table.mem_keys_erase.1 hmem).1 rfl
    · exact Table.mem_keys_erase.2 ⟨hne.symm, (hkeys k').2 (hperm.subset hk')⟩

namespace TwoFields

open Sketch.TwoFields (files generator names sketch_ends pass_fits)

def options : Compiler.Options :=
  { specFile := "program"
    statefulFile := "constant"
    statelessFile := "pass"
    stages := 1
    alus := 1
    sketchName := "net"
    constants := ["0", "1"]
    groupSize := 1
    tofino := true }

def compiler : Compiler :=
  ⟨options, ["0", "1"], 1, 1, generator⟩

def values : Table Int :=
  .ofList (names.map fun name => (name, 1))

theorem get?_values {name : String} {v : Int} (h : values.get? name = some v) : v = 1 := by
  rw [Table.get?_eq_some_iff, values, Table.toList_ofList (by decide +kernel)] at h
  obtain ⟨_, -, heq⟩ := List.mem_map.1 h
  exact (Prod.mk.inj heq).2.symm

theorem values_inRange : (compiler.target ["0", "1"]).InRange values := by
  constructor
  · intro i l n v hv
    rw [get?_values hv]
    decide
  · intro i j v hv
    rw [get?_values hv]
    decide

theorem constant_fits {d : Alu.Description} (hd : Generator.described files "constant" = some d) :
    d.packetFields.length = 2 ∧ Alu.Regular d.body.parts := by
  have hcheck : (Generator.described files "constant").map (fun d => (d.packetFields.length, d.body.parts)) =
      some (2, [.const]) := by
    decide +kernel
  rw [hd] at hcheck
  obtain ⟨hfields, hparts⟩ := Prod.mk.inj (Option.some.inj hcheck)
  rw [hparts]
  exact ⟨hfields, by decide, by simp⟩

/-- All holes of a sketch are used up, and one that is not there is missed. -/
theorem ten_holes_are_used_up : ∃ text g a left left',
    Compiler.create options files = .ok compiler ∧
      EndsIn (Generator.sketch (.find "program" false)) files compiler.generator text g ∧
      g.holes.map Hole.name = names ∧
      EndsIn assemble (compiler.target ["0", "1"], files) values a left ∧ left.keys = [] ∧
      StopsIn assemble (compiler.target ["0", "1"], files) (values.erase "net_salu_config_0_0")
        (.missingKey "net_salu_config_0_0") left' := by
  obtain ⟨text, g, hends, hnames⟩ := sketch_ends
  have hcreate : Compiler.create options files = .ok compiler := rfl
  obtain ⟨taken, hperm, -, huses⟩ := holes_of_sketch_are_used_up_once hcreate rfl rfl (fun _ => constant_fits)
    (fun _ hd => ⟨(pass_fits hd).1, .of_eq (pass_fits hd).2⟩) .same hends ["0", "1"]
  have hkeys : values.keys = names := by decide +kernel
  rw [hnames] at hperm huses
  obtain ⟨⟨a, left, hassemble, -, hleft⟩, hmissing⟩ := huses values (fun k => by rw [hkeys]) values_inRange
  obtain ⟨left', hstops⟩ := hmissing "net_salu_config_0_0" (hperm.symm.subset (by decide))
  exact ⟨text, g, a, left, left', hcreate, hends, hnames, hassemble, hleft, hstops⟩

end TwoFields

end P4

end SwitchSynth
