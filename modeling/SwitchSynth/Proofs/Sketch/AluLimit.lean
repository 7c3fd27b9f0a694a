import Mathlib.Data.List.Perm.Subperm
import SwitchSynth.Proofs.Sketch.StateUpdates

/-!
# The limit on stateful ALUs

With the canonical allocation every state group has a stateful ALU of its own in every stage, and the constraints of a
sketch let no more of them be active in a stage than there are ALUs. What a container takes is another matter: its
multiplexer has an input for every stateful ALU, whether it is active or not, and no constraint binds the two. So a
stage may use more stateful ALUs than it has, as soon as there are more state groups than ALUs.
-/

namespace SwitchSynth.Sketch

/-! ### Stateful ALUs in use -/

namespace Plan

/-- The multiplexer of a container behind a stage. -/
def outputSelector (p : Plan) (i c : Nat) : Mux :=
  ⟨p.outputMux i c, p.units.length * p.slots + 1⟩

/-- The variable that a container behind a stage takes. -/
def chosen (p : Plan) (hole : String → Int) (i c : Nat) : Option Variable :=
  (p.outputVariables i c)[(p.outputSelector i c).select (hole (p.outputSelector i c).control)]?

/-- The state groups whose stateful ALU is active in a stage. -/
def activeGroups (p : Plan) (hole : String → Int) (i : Nat) : List Nat :=
  (upTo p.shape.groups).filter fun k => hole (Allocation.activeBit p.shape i k) = 1

/-- The state groups whose stateful ALU is in use in a stage: it is active, or a container takes what it returns. -/
def usedGroups (p : Plan) (hole : String → Int) (i : Nat) : List Nat :=
  (upTo p.shape.groups).filter fun k => hole (Allocation.activeBit p.shape i k) = 1 ∨
    ∃ c ∈ upTo p.shape.containers, p.chosen hole i c = some (.returned i k)

variable {p : Plan} {hole : String → Int} {i : Nat}

/-- The state group that a variable belongs to, if a stateful ALU returned it. -/
def returnedBy : Variable → Option Nat
  | .returned _ k => some k
  | _ => none

/-- A container takes one variable only, so that each adds at most one stateful ALU to those that are active. -/
theorem length_usedGroups_le :
    (p.usedGroups hole i).length ≤ (p.activeGroups hole i).length + p.shape.containers.toNat := by
  have hnodup : (p.usedGroups hole i).Nodup := (nodup_upTo _).filter _
  have hsubset : p.usedGroups hole i ⊆ p.activeGroups hole i ++
      (upTo p.shape.containers).filterMap fun c => (p.chosen hole i c).bind returnedBy := by
    intro k hk
    simp only [usedGroups, List.mem_filter, decide_eq_true_eq] at hk
    obtain ⟨hk, hactive | ⟨c, hc, hchosen⟩⟩ := hk
    · apply List.mem_append_left
      simp only [activeGroups, List.mem_filter, decide_eq_true_eq]
      exact ⟨hk, hactive⟩
    · apply List.mem_append_right
      refine List.mem_filterMap.2 ⟨c, hc, ?_⟩
      rw [hchosen]
      rfl
  have hcontainers : ((upTo p.shape.containers).filterMap fun c => (p.chosen hole i c).bind returnedBy).length ≤
      p.shape.containers.toNat := (List.length_filterMap_le _ _).trans_eq List.length_range
  calc (p.usedGroups hole i).length
    _ ≤ (p.activeGroups hole i ++
        (upTo p.shape.containers).filterMap fun c => (p.chosen hole i c).bind returnedBy).length :=
      (List.subperm_of_subset hnodup hsubset).length_le
    _ ≤ (p.activeGroups hole i).length + p.shape.containers.toNat := by
      rw [List.length_append]
      omega

/-- The first input of a multiplexer comes from the first state group, if a state group has a slot. -/
theorem chosen_zero {c : Nat} (h : p.synthesized = false) (hgroups : 0 < p.shape.groups.toNat) (hslots : 0 < p.slots)
    (hzero : hole (p.outputSelector i c).control = 0) : p.chosen hole i c = some (.returned i 0) := by
  have hselect : (p.outputSelector i c).select 0 = 0 := by
    have hmin := Mux.select_natCast (p.outputSelector i c) 0
    rw [Nat.zero_min] at hmin
    exact hmin
  have hunits : p.units = upTo p.shape.groups := by simp [units, h]
  obtain ⟨n, hn⟩ := Nat.exists_eq_succ_of_ne_zero hgroups.ne'
  obtain ⟨m, hm⟩ := Nat.exists_eq_succ_of_ne_zero hslots.ne'
  rw [chosen, hzero, hselect, outputVariables, hunits, upTo, hn, hm, List.range_succ_eq_map, List.flatMap_cons,
    List.replicate_succ]
  rfl

end Plan

/-! ### Sums of bits -/

theorem sum_eq_countP {α : Type} {bit : α → Int} {xs : List α} (h : ∀ x ∈ xs, bit x = 0 ∨ bit x = 1) :
    (xs.map bit).sum = (xs.countP fun x => bit x = 1 : Nat) := by
  induction xs with
  | nil => rfl
  | cons x xs ih =>
    rw [List.map_cons, List.sum_cons, ih fun y hy => h y (List.mem_cons_of_mem _ hy), List.countP_cons]
    rcases h x List.mem_cons_self with hx | hx
    · simp [hx]
    · simp [hx, Int.add_comm]

/-- Bits of which only some are set sum up to the number of these at most. -/
theorem sum_le_length {bit : Nat → Int} {xs : List Nat} (ys : List Nat) (hxs : xs.Nodup)
    (h : ∀ x ∈ xs, bit x = 0 ∨ bit x = 1) (hset : ∀ x ∈ xs, bit x = 1 → x ∈ ys) : (xs.map bit).sum ≤ ys.length := by
  have hsubset : (xs.filter fun x => bit x = 1) ⊆ ys := by
    intro x hx
    rw [List.mem_filter, decide_eq_true_eq] at hx
    exact hset x hx.1 hx.2
  have hlength := (List.subperm_of_subset (hxs.filter _) hsubset).length_le
  rw [sum_eq_countP h, List.countP_eq_length_filter]
  exact Int.ofNat_le.2 hlength

namespace StatefulAlu

theorem stateVars_ne_nil {name : String} {bits : Int} {d : Alu.Description} {alu : StatefulAlu}
    (h : ofSource name bits (.whole d) = .ok alu) : d.stateVars ≠ [] := by
  intro hnil
  unfold ofSource at h
  obtain ⟨main, _, -, -, hrun⟩ := run_putDescription d
  have houtcome : (sourceWalk (.whole d)).outcome = .error (.check .noStateVariable) := by
    rw [sourceWalk, hnil]
    rfl
  rw [putSource, hrun, houtcome] at h
  cases h

end StatefulAlu

namespace Generator

variable {files : Files} {g g' : Generator} {r : Request} {p : Program} {hole : String → Int} {i : Nat}

/-- The values of the holes are within their bits and satisfy the constraints of a sketch. -/
structure Satisfies (g : Generator) (p : Program) (hole : String → Int) : Prop where
  values : ∀ h ∈ g.holes, h.Admits (hole h.name)
  constraints : ∀ c ∈ p.constraints, c.Holds hole

theorem length_activeGroups_le (hg : g.synthesized = false) (h : EndsIn (program r) files g p g')
    (hholes : Satisfies g' p hole) (hi : i ∈ upTo g.shape.stages) :
    ((p.plan.activeGroups hole i).length : Int) ≤ g.shape.alus := by
  have hmem : Constraint.sum .wide ((upTo g.shape.groups).map (Allocation.activeBit g.shape i))
      (.atMost g.shape.alus) ∈ p.constraints := by
    rw [(program_constraints hg h).1]
    exact List.mem_append_right _ (List.mem_append_left _ (List.mem_map_of_mem hi))
  have hsum : (((upTo g.shape.groups).map (Allocation.activeBit g.shape i)).map hole).sum ≤ g.shape.alus :=
    hholes.constraints _ hmem
  have hcount := sum_eq_countP fun k hk => activeBit_eq hg h hholes.values hi hk
  rw [Plan.activeGroups, program_shape h, ← List.countP_eq_length_filter, ← hcount]
  rwa [List.map_map] at hsum

/-! ### The names of holes -/

def Marked (sketch mark name : String) : Prop :=
  ∃ rest, name = sketch ++ (mark ++ rest)

variable {name : String} {s : Shape} {k stage : Nat} {b : Layout}

theorem Marked.unique {sketch mark mark' : String} (h : Marked sketch mark name) (h' : Marked sketch mark' name)
    (hlength : mark.toList.length = mark'.toList.length) : mark = mark' := by
  obtain ⟨rest, rfl⟩ := h
  obtain ⟨rest', heq⟩ := h'
  have hlists := congrArg String.toList ((String.append_right_inj _).1 heq)
  rw [String.toList_append, String.toList_append] at hlists
  exact String.toList_inj.1 (List.append_inj_left hlists hlength)

theorem marked_statelessName (p : Plan) (i j : Nat) (x : String) :
    Marked p.shape.sketchName "_st" (p.statelessName i j ++ x) := by
  refine ⟨"ateless_alu_" ++ (toString i ++ ("_" ++ (toString j ++ x))), ?_⟩
  rw [Plan.statelessName, show "_stateless_alu_" = "_st" ++ "ateless_alu_" from Text.cut rfl]
  simp only [String.append_assoc]

theorem marked_statefulName (p : Plan) (i k : Nat) (x : String) :
    Marked p.shape.sketchName "_st" (p.statefulName i k ++ x) := by
  refine ⟨"ateful_alu_" ++ (toString i ++ ("_" ++ (toString k ++ x))), ?_⟩
  rw [Plan.statefulName, show "_stateful_alu_" = "_st" ++ "ateful_alu_" from Text.cut rfl]
  simp only [String.append_assoc]

theorem marked_outputMux (p : Plan) (i c : Nat) (x : String) :
    Marked p.shape.sketchName "_ou" (p.outputMux i c ++ x) := by
  refine ⟨"tput_mux_phv_" ++ (toString i ++ ("_" ++ (toString c ++ x))), ?_⟩
  rw [Plan.outputMux, show "_output_mux_phv_" = "_ou" ++ "tput_mux_phv_" from Text.cut rfl]
  simp only [String.append_assoc]

theorem marked_activeBit (s : Shape) (i k : Nat) : Marked s.sketchName "_sa" (Allocation.activeBit s i k) := by
  refine ⟨"lu_config_" ++ (toString i ++ ("_" ++ toString k)), ?_⟩
  rw [Allocation.activeBit, show "_salu_config_" = "_sa" ++ "lu_config_" from Text.cut rfl]
  simp only [String.append_assoc]

theorem activeBit_inj {i i' k' : Nat} (h : Allocation.activeBit s i k = Allocation.activeBit s i' k') :
    i = i' ∧ k = k' := by
  have hpath (i k : Nat) : Allocation.activeBit s i k =
      s.sketchName ++ Text.path ["salu", "config", toString i, toString k] := by
    rw [Allocation.activeBit, show "_salu_config_" = "_" ++ "salu_config_" from Text.cut rfl,
      show "salu_config_" = "salu" ++ "_config_" from Text.cut rfl,
      show "_config_" = "_" ++ "config_" from Text.cut rfl, show "config_" = "config" ++ "_" from Text.cut rfl]
    simp only [Text.path_cons, Text.path_nil, String.append_empty, String.append_assoc]
  have hplain (i k : Nat) : ∀ w ∈ ["salu", "config", toString i, toString k], Text.Plain w := by
    have hwords : Text.Plain "salu" ∧ Text.Plain "config" := by decide
    simp only [List.mem_cons, List.not_mem_nil, or_false, forall_eq_or_imp, forall_eq, hwords, Text.plain_toString,
      and_self]
  rw [hpath, hpath, String.append_right_inj] at h
  have hwords := Text.path_inj (hplain i k) (hplain i' k') h
  simp only [List.cons.injEq, true_and, and_true] at hwords
  exact ⟨Text.toString_nat_injective hwords.1, Text.toString_nat_injective hwords.2⟩

/-- The holes of ALUs and of their operands have other names than those that activate groups. -/
theorem marked_of_mem_stageHoles {hole : Hole} {i : Nat} (h : hole ∈ b.stageHoles i) :
    Marked b.shape.sketchName "_st" hole.name := by
  rw [Layout.stageHoles, List.mem_append, List.mem_flatMap, List.mem_flatMap] at h
  rcases h with ⟨j, -, h⟩ | ⟨l, -, h⟩
  · unfold Layout.statelessHoles at h
    split at h
    · exact absurd h List.not_mem_nil
    · rw [List.mem_append, List.mem_map, mem_inOrder, List.mem_map] at h
      rcases h with ⟨k, -, rfl⟩ | ⟨v, -, h⟩
      · rw [controlHole, String.append_assoc, String.append_assoc]
        exact marked_statelessName b.plan i j _
      · rw [← (Prod.mk.inj h).1, String.append_assoc]
        exact marked_statelessName b.plan i j _
  · unfold Layout.statefulHoles at h
    split at h
    · exact absurd h List.not_mem_nil
    · rw [mem_inOrder, List.mem_map] at h
      obtain ⟨x, -, h⟩ := h
      rw [← (Prod.mk.inj h).1, Helper.globalHole, Family.globalHole, String.append_assoc, String.append_assoc]
      exact marked_statefulName b.plan i l _

theorem marked_of_mem_operandHoles {hole : Hole} (h : hole ∈ b.operandHoles) :
    Marked b.shape.sketchName "_st" hole.name := by
  simp only [Layout.operandHoles, List.mem_flatMap, List.mem_map] at h
  obtain ⟨i, -, l, -, k, -, rfl⟩ := h
  rw [controlHole, Plan.operandMux, String.append_assoc, String.append_assoc]
  exact marked_statefulName b.plan i l _

theorem marked_of_mem_outputHoles {hole : Hole} (htofino : b.shape.tofino = false)
    (h : hole ∈ b.outputHoles) : Marked b.shape.sketchName "_ou" hole.name := by
  rw [Layout.outputHoles, if_neg (by rw [htofino]; exact Bool.false_ne_true)] at h
  simp only [List.mem_flatMap, List.mem_map] at h
  obtain ⟨i, -, c, -, rfl⟩ := h
  exact marked_outputMux b.plan i c _

/-- A hole that goes by the name of one that activates a group has one bit. -/
theorem width_of_activeBit (halus : HasAlus g) (htofino : g.shape.tofino = false) (h : EndsIn (program r) files g p g')
    {x : Hole} (hx : x ∈ g'.holes) {i : Nat} (hname : x.name = Allocation.activeBit g.shape i k) : x.width = 1 := by
  have hmarked : Marked g.shape.sketchName "_sa" x.name := hname ▸ marked_activeBit g.shape i k
  rw [(program_holes halus h).2.1] at hx
  simp only [Layout.holes, List.mem_append, List.mem_flatMap] at hx
  rcases hx with ((⟨i, -, hx⟩ | hx) | hx) | hx
  · exact absurd (hmarked.unique (marked_of_mem_stageHoles hx) (by decide)) (by decide)
  · exact absurd (hmarked.unique (marked_of_mem_operandHoles hx) (by decide)) (by decide)
  · exact absurd (hmarked.unique (marked_of_mem_outputHoles htofino hx) (by decide)) (by decide)
  · obtain ⟨name, -, rfl⟩ := List.mem_map.1 hx
    rfl

/-! ### More stateful ALUs than the limit -/

theorem HasAlus.alus_pos (h : HasAlus g) : 0 < g.shape.alus := by
  obtain ⟨j, hj⟩ := List.exists_mem_of_ne_nil _ h.alus
  have hlt : j < g.shape.alus.toNat := List.mem_range.1 hj
  omega

/-- The stateful ALUs of a sketch have containers to take their operands from. -/
theorem containers_pos (halus : HasAlus g) (h : EndsIn (program r) files g p g') :
    0 < g.shape.containers.toNat := by
  obtain ⟨g₁, _, _, -, hoperands, -, -, -, -, hplan⟩ := program_plan h
  obtain ⟨i, hi⟩ := List.exists_mem_of_ne_nil _ halus.stages
  obtain ⟨l, hl⟩ := List.exists_mem_of_ne_nil _ halus.units
  have hpos : 0 < p.plan.operands := by
    rw [hplan]
    exact Nat.pos_of_ne_zero (operandMuxes_define hoperands).1
  exact ((program_hasMux h).2 i (List.mem_range.1 hi) l hl 0 hpos).inputs_pos

theorem slots_pos (halus : HasAlus g) (h : EndsIn (program r) files g p g') : 0 < p.plan.slots := by
  obtain ⟨g₁, _, _, hstages, -, -, -, -, -, hplan⟩ := program_plan h
  obtain ⟨d, -, hsized, _, _, -, ⟨bits, alu, hsource, -⟩, -⟩ :=
    alus_sizes (g := g.emptied) halus.stages halus.units hstages
  rw [hplan]
  show 0 < g₁.slots
  rw [hsized.slots]
  exact List.length_pos_iff.2 (StatefulAlu.stateVars_ne_nil hsource)

/-- All ALUs of a stage are active, for the groups behind the first, and all other holes are zero. -/
def overuse (s : Shape) (stage : Nat) (name : String) : Int :=
  if name ∈ (upTo s.alus).map fun k => Allocation.activeBit s stage (k + 1) then 1 else 0

theorem overuse_activeBit {i : Nat} :
    overuse s stage (Allocation.activeBit s i k) = 1 ↔ i = stage ∧ 0 < k ∧ k ≤ s.alus.toNat := by
  have hmem : overuse s stage (Allocation.activeBit s i k) = 1 ↔
      Allocation.activeBit s i k ∈ (upTo s.alus).map fun k => Allocation.activeBit s stage (k + 1) := by
    unfold overuse
    split <;> simp [*]
  rw [hmem, List.mem_map]
  constructor
  · rintro ⟨k', hk', hname⟩
    obtain ⟨rfl, rfl⟩ := activeBit_inj hname
    have hlt : k' < s.alus.toNat := List.mem_range.1 hk'
    omega
  · rintro ⟨rfl, hpos, hle⟩
    refine ⟨k - 1, List.mem_range.2 (by omega), ?_⟩
    rw [Nat.sub_add_cancel hpos]

theorem overuse_of_marked (h : Marked s.sketchName "_ou" name) :
    overuse s stage name = 0 := by
  refine if_neg fun hmem => ?_
  obtain ⟨k, -, rfl⟩ := List.mem_map.1 hmem
  exact absurd (h.unique (marked_activeBit s stage (k + 1)) (by decide)) (by decide)

theorem overuse_bit (s : Shape) (stage : Nat) (name : String) :
    overuse s stage name = 0 ∨ overuse s stage name = 1 := by
  unfold overuse
  split
  · exact .inr rfl
  · exact .inl rfl

theorem overuse_satisfies (halus : HasAlus g) (hg : g.synthesized = false) (htofino : g.shape.tofino = false)
    (h : EndsIn (program r) files g p g') (stage : Nat) : Satisfies g' p (overuse g.shape stage) := by
  have hpos := halus.alus_pos
  constructor
  · intro x hx
    unfold overuse
    split
    · next hmem =>
      obtain ⟨k, -, hname⟩ := List.mem_map.1 hmem
      have hwidth := width_of_activeBit halus htofino h hx hname.symm
      rw [Hole.Admits, Hole.greatest, hwidth]
      decide
    · exact ⟨Int.le_refl 0, x.greatest_nonneg⟩
  · intro c hc
    rw [(program_constraints hg h).1, if_neg (by rw [htofino]; exact Bool.false_ne_true), List.nil_append,
      Allocation.canonical, List.mem_append, List.mem_map, List.mem_map] at hc
    have hbits (i k : Nat) := overuse_bit g.shape stage (Allocation.activeBit g.shape i k)
    rcases hc with ⟨i, -, rfl⟩ | ⟨k, -, rfl⟩
    · -- The groups that are active in a stage are as many as its ALUs.
      show (((upTo g.shape.groups).map _).map _).sum ≤ g.shape.alus
      have hsum := sum_le_length ((upTo g.shape.alus).map (· + 1)) (nodup_upTo g.shape.groups)
        (fun k _ => hbits i k) fun k _ hone => by
          obtain ⟨-, hk, hle⟩ := overuse_activeBit.1 hone
          exact List.mem_map.2 ⟨k - 1, List.mem_range.2 (by omega), by omega⟩
      have hlength : ((upTo g.shape.alus).map (· + 1)).length = g.shape.alus.toNat := by
        rw [List.length_map]
        exact List.length_range
      rw [List.map_map]
      exact hsum.trans (by omega)
    · -- Only one stage has active groups.
      show (((upTo g.shape.stages).map _).map _).sum ≤ 1
      rw [List.map_map]
      exact sum_le_length [stage] (nodup_upTo g.shape.stages) (fun i _ => hbits i k) fun i _ hone =>
        List.mem_singleton.2 (overuse_activeBit.1 hone).1

theorem length_usedGroups_overuse (halus : HasAlus g) (hr : r.synthesized = false)
    (h : EndsIn (program r) files g p g') (hlt : g.shape.alus < g.shape.groups) (stage : Nat) :
    g.shape.alus < (p.plan.usedGroups (overuse g.shape stage) stage).length := by
  have hshape := program_shape h
  have hpos := halus.alus_pos
  have hsubset : List.range (g.shape.alus.toNat + 1) ⊆ p.plan.usedGroups (overuse g.shape stage) stage := by
    intro k hk
    have hk : k < g.shape.alus.toNat + 1 := List.mem_range.1 hk
    simp only [Plan.usedGroups, hshape, List.mem_filter, decide_eq_true_eq]
    refine ⟨List.mem_range.2 (by omega), ?_⟩
    rcases Nat.eq_zero_or_pos k with rfl | hpos
    · -- The first container takes the first group.
      refine .inr ⟨0, ?_, Plan.chosen_zero ((program_synthesized h).trans hr) ?_ (slots_pos halus h) ?_⟩
      · exact List.mem_range.2 (containers_pos halus h)
      · rw [hshape]
        omega
      · rw [← hshape]
        exact overuse_of_marked (marked_outputMux p.plan stage 0 "_ctrl")
    · exact .inl (overuse_activeBit.2 ⟨rfl, hpos, by omega⟩)
  have hlength := (List.subperm_of_subset List.nodup_range hsubset).length_le
  rw [List.length_range] at hlength
  omega

/-- With the canonical allocation and multiplexers for the containers, whatever satisfies the assertions of a sketch
activates no more stateful ALUs in a stage than it has ALUs, and each container may use one more. All stateful ALUs that
are in use are within the limit, for all values that satisfy the assertions, exactly if there are no more state groups
than ALUs. -/
theorem used_alus_within_limit_iff_groups_within_limit (hready : Ready g) (hg : g.synthesized = false)
    (hr : r.synthesized = false) (htofino : g.shape.tofino = false) (h : EndsIn (program r) files g p g') :
    Text.Codes p.pipelineText (Text.nonblank p.pipelineCode) ∧ p.plan.shape = g.shape ∧
    (∀ i ∈ upTo g.shape.stages, ∀ c ∈ upTo g.shape.containers,
      .act (.set true (.output i c) (.passed (p.plan.outputSelector i c) (p.plan.outputVariables i c))) ∈ p.plan.code) ∧
    ∀ i ∈ upTo g.shape.stages,
      (∀ hole, Satisfies g' p hole → ((p.plan.activeGroups hole i).length : Int) ≤ g.shape.alus ∧
        ((p.plan.usedGroups hole i).length : Int) ≤ g.shape.alus + g.shape.containers) ∧
      ((∀ hole, Satisfies g' p hole → ((p.plan.usedGroups hole i).length : Int) ≤ g.shape.alus) ↔
        g.shape.groups ≤ g.shape.alus) := by
  have halus := hready.hasAlus h
  have hshape := program_shape h
  have hcanonical := (program_synthesized h).trans hr
  refine ⟨p.pipelineText_codes, hshape, fun i hi c hc => ?_, fun i hi => ⟨fun hole hholes => ?_, ?_⟩⟩
  · have hstep : .chooseOutput i c ∈ p.plan.steps :=
      Plan.chooseOutput_mem hcanonical (by rw [hshape, htofino]) (by rw [hshape]; exact hi) (by rw [hshape]; exact hc)
    exact List.mem_map.2 ⟨_, hstep, rfl⟩
  · have hactive := length_activeGroups_le hg h hholes hi
    have hused : (p.plan.usedGroups hole i).length ≤
        (p.plan.activeGroups hole i).length + p.plan.shape.containers.toNat := Plan.length_usedGroups_le
    rw [hshape] at hused
    have hcontainers := containers_pos halus h
    exact ⟨hactive, by omega⟩
  · constructor
    · intro hall
      by_contra hgroups
      have hused := length_usedGroups_overuse halus hr h (Int.not_le.1 hgroups) i
      exact absurd (hall _ (overuse_satisfies halus hg htofino h i)) (Int.not_le.2 hused)
    · intro hgroups hole _
      have hlength : (p.plan.usedGroups hole i).length ≤ g.shape.groups.toNat := by
        rw [Plan.usedGroups, hshape]
        exact (List.length_filter_le _ _).trans_eq List.length_range
      have hpos := halus.alus_pos
      omega

end Generator

namespace TwoGroupsOneAlu

open SecondStageActive (files request)

/-- One stage with one container, one ALU and two state groups. -/
def generator : Generator :=
  { SecondStageActive.generator with shape := ⟨"n", 1, 2, 1, 1, 1, [], [], [], 1, false⟩ }

/-- A stage with one ALU may use two stateful ALUs, of which one is active. -/
theorem two_alus_used_of_one :
    ∃ p g, EndsIn (Generator.program request) files generator p g ∧
      ∃ hole, Generator.Satisfies g p hole ∧ (p.plan.activeGroups hole 0).length ≤ 1 ∧
        1 < (p.plan.usedGroups hole 0).length := by
  obtain ⟨p, g, hends, -⟩ := exists_endsIn (m := Generator.program request) (r := files) (s := generator)
    (fun _ _ => true) (by decide +kernel)
  obtain ⟨-, -, -, hlimit⟩ :=
    Generator.used_alus_within_limit_iff_groups_within_limit (.inl ⟨rfl, rfl⟩) rfl rfl rfl hends
  obtain ⟨hbounds, hiff⟩ := hlimit 0 (by decide)
  have hover : ¬ ∀ hole, Generator.Satisfies g p hole →
      ((p.plan.usedGroups hole 0).length : Int) ≤ generator.shape.alus :=
    fun hall => absurd (hiff.1 hall) (by decide)
  simp only [not_forall, Int.not_le] at hover
  obtain ⟨hole, hholes, hused⟩ := hover
  exact ⟨p, g, hends, hole, hholes, Int.ofNat_le.1 (hbounds hole hholes).1, Int.ofNat_lt.1 hused⟩

end TwoGroupsOneAlu

end SwitchSynth.Sketch
