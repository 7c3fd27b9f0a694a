import SwitchSynth.Proofs.Listing
import SwitchSynth.Sketch.Program

/-!
# Calls in the data path

Four kinds of steps of a data path call a function: a stateless or a stateful ALU, or a multiplexer in front of a
stateful ALU or behind a stage. The arguments of a call are read off the statement.
-/

namespace SwitchSynth.Sketch

open Text (Blank Lists Contains pieces)

/-- A call of a function. -/
structure Call where
  function : String
  arguments : List String
  deriving DecidableEq, Repr

/-- A text has a statement that takes what a call returns. -/
def Call.StandsIn (c : Call) (text : String) : Prop :=
  ∃ list, Lists list c.arguments ∧ Contains text (" = " ++ c.function ++ "(" ++ list ++ ");\n")

def Plan.inputs (p : Plan) (stage : Nat) : List String :=
  (upTo p.shape.containers).map (inputName stage)

/-- The arguments for the multiplexers of a stateless ALU. -/
def Plan.statelessControls (p : Plan) (i j : Nat) : List String :=
  (List.range p.statelessMuxes).map fun k => p.statelessName i j ++ "_operand_mux_" ++ toString k ++ "_ctrl"

namespace Step

def call? (p : Plan) : Step → Option Call
  | stateless i j => some {
      function := p.statelessName i j
      arguments := pieces (p.inputs i) ++
        [p.statelessName i j ++ "_opcode", p.statelessName i j ++ "_immediate_operand"] ++
        pieces (p.statelessControls i j) }
  | chooseOperand i k o => some {
      function := p.operandMux i k o
      arguments := pieces (p.inputs i) ++ [p.operandMux i k o ++ "_ctrl"] }
  | stateful i k => some {
      function := p.statefulName i k
      arguments := stateName i k :: (List.range p.operands).map (operandName i k) ++
        pieces (p.statefulHoles.map fun h => p.statefulName i k ++ "_" ++ h ++ "_global") }
  | chooseOutput i c => some {
      function := p.outputMux i c
      arguments := (p.units.flatMap fun k => List.replicate p.slots (returnedName i k)) ++
        [destinationName i c, p.outputMux i c ++ "_ctrl"] }
  | _ => none

theorem blank_spaces (n : Nat) : Blank (spaces n) := by
  rw [Blank, spaces, String.toList_ofList, List.all_eq_true]
  intro c hc
  rw [List.eq_of_mem_replicate hc]
  rfl

theorem lists_lines (word : Nat → String) (n indent : Nat) :
    Lists (String.join ((List.range (n + 1)).map fun k => spaces indent ++ word k ++ if k < n then ",\n" else "\n"))
      ((List.range (n + 1)).map word) := by
  have hlast : Lists (spaces indent ++ word n ++ "\n") [word n] := .last (blank_spaces indent) rfl
  have hlines := Lists.commasBehind ((List.range n).map word) hlast (blank_spaces indent) (show Blank "\n" from rfl)
  have hcomma : (List.range n).map (fun k => spaces indent ++ word k ++ if k < n then ",\n" else "\n") =
      ((List.range n).map word).map fun w => spaces indent ++ w ++ "," ++ "\n" := by
    rw [List.map_map]
    refine List.map_congr_left fun k hk => ?_
    rw [if_pos (List.mem_range.1 hk), show ",\n" = "," ++ "\n" by decide, ← String.append_assoc]
    rfl
  rw [List.range_succ, List.map_append, List.map_append, String.join_append, hcomma]
  simpa using hlines

theorem lists_inputLines (p : Plan) (indent stage : Nat) :
    Lists (inputLines p indent stage) (pieces (p.inputs stage)) := by
  unfold inputLines Plan.inputs upTo
  cases hn : p.shape.containers.toNat with
  | zero => exact .word ""
  | succ n =>
    have hlines := lists_lines (inputName stage) n indent
    have hlast (k : Nat) (hk : k < n + 1) : ((k : Int) ≠ p.shape.containers - 1) = (k < n) := propext (by omega)
    rw [Text.pieces_of_ne_nil (by simp)]
    refine (congrArg (Lists · _) (congrArg String.join (List.map_congr_left fun k hk => ?_))).mp hlines
    simp only [hlast k (List.mem_range.1 hk)]

theorem standsIn_of_text {c : Call} {text : String} (before : String)
    (h : ∃ list, Lists list c.arguments ∧ text = before ++ (" = " ++ c.function ++ "(" ++ list ++ ");\n")) :
    c.StandsIn text := by
  obtain ⟨list, hlist, rfl⟩ := h
  exact ⟨list, hlist, .append_right (.refl _)⟩

theorem stateless_text (p : Plan) (i j : Nat) :
    ∃ list, Lists list (pieces (p.inputs i) ++
        [p.statelessName i j ++ "_opcode", p.statelessName i j ++ "_immediate_operand"] ++
        pieces (p.statelessControls i j)) ∧
      (stateless i j).text p =
        "      int " ++ destinationName i j ++ (" = " ++ p.statelessName i j ++ "(" ++ list ++ ");\n") := by
  have hcontrols : Lists (String.intercalate "," ((List.range p.statelessMuxes).map fun k =>
      "          " ++ p.statelessName i j ++ "_operand_mux_" ++ toString k ++ "_ctrl"))
      (pieces (p.statelessControls i j)) := by
    have hpadded := Lists.intercalate_padded (b := "          ") (p.statelessControls i j) rfl
    simpa only [Plan.statelessControls, List.map_map, Function.comp_def, String.append_assoc] using hpadded
  have hlist := ((((lists_inputLines p 10 i).padLeft (a := "\n") rfl).append
    ((Lists.word (p.statelessName i j ++ "_opcode")).padLeft (a := "\n\n" ++ "      ") rfl)).append
    ((Lists.word (p.statelessName i j ++ "_immediate_operand")).padLeft (a := "\n      ") rfl)).append
    ((hcontrols.padLeft (a := "\n") rfl).padRight (b := "      ") rfl)
  rw [List.append_assoc (pieces _)] at hlist
  refine ⟨_, hlist, ?_⟩
  unfold text
  -- Literals are cut at commas and parentheses, where a word ends or the list does.
  simp only [show "(\n" = "(" ++ "\n" by decide, show ",\n\n" = "," ++ "\n\n" by decide,
    show "_opcode,\n      " = "_opcode" ++ ("," ++ "\n      ") by decide,
    show "_immediate_operand,\n" = "_immediate_operand" ++ ("," ++ "\n") by decide,
    show "      );\n" = "      " ++ ");\n" by decide,
    String.append_assoc]

theorem chooseOperand_text (p : Plan) (i k o : Nat) :
    ∃ list, Lists list (pieces (p.inputs i) ++ [p.operandMux i k o ++ "_ctrl"]) ∧
      (chooseOperand i k o).text p =
        "        int " ++ operandName i k o ++ (" = " ++ p.operandMux i k o ++ "(" ++ list ++ ");\n") := by
  have hlist := (((lists_inputLines p 12 i).padLeft (a := "\n") rfl).padRight (b := "      ") rfl).append
    ((Lists.word (p.operandMux i k o ++ "_ctrl")).padLeft (a := " ") rfl)
  refine ⟨_, hlist, ?_⟩
  unfold text
  simp only [show "(\n" = "(" ++ "\n" by decide, show "      , " = "      " ++ ("," ++ " ") by decide,
    show "_ctrl);\n" = "_ctrl" ++ ");\n" by decide, String.append_assoc]

theorem stateful_text (p : Plan) (i k : Nat) :
    ∃ list, Lists list (stateName i k :: (List.range p.operands).map (operandName i k) ++
        pieces (p.statefulHoles.map fun h => p.statefulName i k ++ "_" ++ h ++ "_global")) ∧
      (stateful i k).text p =
        "      int " ++ returnedName i k ++ (" = " ++ p.statefulName i k ++ "(" ++ list ++ ");\n") := by
  have hholes := Lists.intercalate (a := "")
    (p.statefulHoles.map fun h => p.statefulName i k ++ "_" ++ h ++ "_global") rfl
  have hoperands := Lists.commasBehind (a := "        ") (b := "\n")
    ((List.range p.operands).map (operandName i k)) (hholes.padLeft (a := "      ") rfl) rfl rfl
  have hlist := (Lists.word (stateName i k)).append (hoperands.padLeft (a := "\n") rfl)
  refine ⟨_, hlist, ?_⟩
  unfold text
  simp only [show ",\n" = "," ++ "\n" by decide, show "," ++ "" = "," by decide, List.map_map,
    Function.comp_def, String.append_assoc]

theorem chooseOutput_text (p : Plan) (i k : Nat) :
    ∃ list, Lists list ((p.units.flatMap fun l => List.replicate p.slots (returnedName i l)) ++
        [destinationName i k, p.outputMux i k ++ "_ctrl"]) ∧
      (chooseOutput i k).text p =
        "      int " ++ outputName i k ++ (" = " ++ p.outputMux i k ++ "(" ++ list ++ ");\n") := by
  have hlast := ((Lists.word (destinationName i k)).padLeft (a := "      ") rfl).append
    (((Lists.word (p.outputMux i k ++ "_ctrl")).padLeft (a := "\n      ") rfl).padRight (b := "\n      ") rfl)
  have hlist := (Lists.commasBehind (a := "          ") (b := "\n")
    (p.units.flatMap fun l => List.replicate p.slots (returnedName i l)) hlast rfl rfl).padLeft (a := "\n") rfl
  refine ⟨_, hlist, ?_⟩
  unfold text
  simp only [List.map_flatMap, List.map_replicate, show "(\n" = "(" ++ "\n" by decide,
    show ",\n      " = "," ++ "\n      " by decide, show ",\n" = "," ++ "\n" by decide,
    show "_ctrl\n      );\n" = "_ctrl" ++ ("\n      " ++ ");\n") by decide, String.append_assoc]

theorem call_standsIn {p : Plan} {s : Step} {c : Call} (h : s.call? p = some c) : c.StandsIn (s.text p) := by
  cases s <;> cases h
  case stateless i j => exact standsIn_of_text _ (stateless_text p i j)
  case chooseOperand i k o => exact standsIn_of_text _ (chooseOperand_text p i k o)
  case stateful i k => exact standsIn_of_text _ (stateful_text p i k)
  case chooseOutput i k => exact standsIn_of_text _ (chooseOutput_text p i k)

end Step

/-! ### Where calls are made -/

namespace Plan

variable {p : Plan} {i : Nat} {s : Step}

theorem mem_steps : s ∈ p.steps ↔ .step s ∈ p.items := by
  unfold steps
  rw [List.mem_filterMap]
  constructor
  · rintro ⟨item, hitem, hs⟩
    cases item with
    | note text => exact nomatch hs
    | step s' => cases hs; exact hitem
  · exact fun h => ⟨_, h, rfl⟩

/-- The steps that make calls, by the stages and the places in them. -/
def Places (p : Plan) : Step → Prop
  | .stateless i j => i ∈ upTo p.shape.stages ∧ j ∈ upTo p.shape.alus
  | .chooseOperand i k o => i ∈ upTo p.shape.stages ∧ k ∈ p.units ∧ o < p.operands
  | .stateful i k => i ∈ upTo p.shape.stages ∧ k ∈ p.units
  | .chooseOutput i c => p.shape.tofino = false ∧ i ∈ upTo p.shape.stages ∧ c ∈ upTo p.shape.containers
  | _ => True

theorem places_readItems (h : .step s ∈ p.readItems) : p.Places s := by
  simp only [readItems, List.mem_cons, reduceCtorEq, false_or, List.mem_flatMap] at h
  obtain ⟨_, -, h⟩ := h
  split at h
  · simp only [List.mem_cons, reduceCtorEq, false_or, List.mem_map, Item.step.injEq] at h
    obtain ⟨_, -, rfl⟩ := h
    trivial
  · simp only [List.mem_cons, reduceCtorEq, false_or, List.not_mem_nil, or_false, Item.step.injEq] at h
    subst h
    trivial

theorem places_passItems (h : .step s ∈ p.passItems i) : p.Places s := by
  simp only [passItems, List.mem_cons, reduceCtorEq, false_or, List.mem_map, Item.step.injEq] at h
  obtain ⟨_, -, rfl⟩ := h
  trivial

theorem places_loadItems (h : .step s ∈ p.loadItems i) : p.Places s := by
  obtain ⟨_, -, h⟩ := List.mem_flatMap.1 h
  split at h
  · obtain ⟨_, -, h⟩ := List.mem_map.1 h
    cases h
    trivial
  · cases List.mem_singleton.1 h
    trivial

theorem places_storeItems (h : .step s ∈ p.storeItems i) : p.Places s := by
  simp only [storeItems, List.mem_flatMap, List.mem_cons, reduceCtorEq, false_or] at h
  obtain ⟨_, -, h⟩ := h
  split at h
  · obtain ⟨_, -, h⟩ := List.mem_map.1 h
    cases h
    trivial
  · cases List.mem_singleton.1 h
    trivial

theorem places_outputItems (hi : i ∈ upTo p.shape.stages) (h : .step s ∈ p.outputItems i) : p.Places s := by
  unfold outputItems at h
  split at h
  · simp only [List.cons_append, List.mem_cons, reduceCtorEq, false_or, List.mem_append, List.mem_map,
      Item.step.injEq] at h
    rcases h with ⟨_, -, rfl⟩ | ⟨_, -, rfl⟩ <;> trivial
  next htofino =>
    obtain ⟨c, hc, h⟩ := List.mem_map.1 h
    cases h
    exact ⟨Bool.eq_false_iff.2 htofino, hi, hc⟩

theorem places_stageItems (hi : i ∈ upTo p.shape.stages) (h : .step s ∈ p.stageItems i) : p.Places s := by
  simp only [stageItems, List.cons_append, List.mem_cons, List.mem_append, List.mem_map, List.mem_flatMap,
    reduceCtorEq, false_or, Item.step.injEq] at h
  rcases h with (((((h | ⟨j, hj, rfl⟩) | ⟨k, hk, o, ho, rfl⟩) | h) | ⟨k, hk, rfl⟩) | h) | h
  · split at h
    · exact places_readItems h
    · exact places_passItems h
  · exact ⟨hi, hj⟩
  · exact ⟨hi, hk, List.mem_range.1 ho⟩
  · exact places_loadItems h
  · exact ⟨hi, hk⟩
  · exact places_outputItems hi h
  · exact places_storeItems h

theorem places_writeItems (h : .step s ∈ p.writeItems) : p.Places s := by
  simp only [writeItems, List.mem_flatMap, List.mem_cons, reduceCtorEq, false_or] at h
  obtain ⟨_, -, h⟩ := h
  split at h
  · obtain ⟨_, -, h⟩ := List.mem_map.1 h
    cases h
    trivial
  · cases List.mem_singleton.1 h
    trivial

theorem places_of_mem_steps (h : s ∈ p.steps) : p.Places s := by
  rw [mem_steps] at h
  simp only [items, List.cons_append, List.mem_cons, List.mem_append, List.mem_map, List.mem_flatMap,
    reduceCtorEq, false_or, Item.step.injEq] at h
  rcases h with ((⟨_, -, rfl⟩ | ⟨_, -, _, -, rfl⟩) | ⟨i, hi, h⟩) | h
  · trivial
  · trivial
  · exact places_stageItems hi h
  · exact places_writeItems h

end Plan

theorem Program.contains_step (p : Program) {s : Step} (h : s ∈ p.plan.steps) :
    Contains p.text (s.text p.plan) := by
  have hmem : s.text p.plan ∈ p.plan.items.map (Item.text p.plan) :=
    List.mem_map_of_mem (Plan.mem_steps.1 h)
  have hpipeline : Contains p.pipelineText (String.join (p.plan.items.map (Item.text p.plan))) := by
    unfold Program.pipelineText
    exact .append_left (.append_right (.refl _))
  have htext : Contains p.text p.pipelineText := by
    unfold Program.text
    exact .append_left (.append_right (.refl _))
  exact (htext.trans hpipeline).trans (.join hmem)

theorem Call.StandsIn.mono {c : Call} {text part : String} (h : c.StandsIn part) (hpart : Contains text part) :
    c.StandsIn text := by
  obtain ⟨list, hlist, hcontains⟩ := h
  exact ⟨list, hlist, hpart.trans hcontains⟩

theorem Program.call_standsIn (p : Program) {s : Step} {c : Call} (hs : s ∈ p.plan.steps)
    (hc : s.call? p.plan = some c) : c.StandsIn p.text :=
  (Step.call_standsIn hc).mono (p.contains_step hs)

end SwitchSynth.Sketch
