import SwitchSynth.Proofs.Sketch.Bookkeeping
import SwitchSynth.Proofs.Synthesis.Comparison

/-!
# The inputs that a counterexample names

The variables of a formula are the parameters of the harness, with an underscore and more behind the name or with
nothing. The name of the parameter is read off the start of the name of the variable: it ends with a number, and no number goes
on at an underscore. So the values of a solver become a counterexample in which each parameter has the value of its
variable, and all of these parameters are fields of the record that the harness fills.
-/

namespace SwitchSynth

open Formula (Subject Solver Quantified afterText afterDigits)
open Text (Statements)

/-- A variable for a parameter: its name, and what stands behind an underscore if there is one. -/
def StandsFor (parameter x : String) : Prop :=
  ∃ rest : String, x = parameter ++ rest ∧ ∀ c ∈ rest.toList.head?, c = '_'

/-! ### Reading a parameter off a variable -/

namespace Formula

theorem afterText_append (text : String) (cs : List Char) : afterText text (text.toList ++ cs) = some cs := by
  rw [afterText, if_pos (List.isPrefixOf_iff_prefix.2 (List.prefix_append _ _)), ← String.length_toList,
    List.drop_left]

/-- A number ends where no digit follows. -/
theorem afterDigits_number (n : Nat) {cs : List Char} (h : ∀ c ∈ cs.head?, c = '_') :
    afterDigits ((toString n).toList ++ cs) = some cs := by
  have hdigits : ∀ c ∈ (toString n).toList, Text.isDigit c = true := fun _ hc => Sketch.isDigit_of_mem_toString hc
  have hrest : cs.dropWhile Text.isDigit = cs := by
    cases cs with
    | nil => rfl
    | cons c cs =>
      rw [h c rfl, List.dropWhile_cons, if_neg (by decide)]
  cases hn : (toString n).toList with
  | nil => exact absurd (String.toList_inj.1 (hn.trans String.toList_empty.symm)) (Sketch.toString_ne_empty n)
  | cons d ds =>
    rw [hn] at hdigits
    have hall : (d :: (ds ++ cs)).dropWhile Text.isDigit = cs := by
      rw [← List.cons_append, List.dropWhile_append_of_pos hdigits, hrest]
    rw [List.cons_append, afterDigits.eq_def]
    simp only [if_pos (hdigits d List.mem_cons_self), hall]

theorem take_name (name rest : String) :
    String.ofList ((name ++ rest).toList.take ((name ++ rest).toList.length - rest.toList.length)) = name := by
  rw [String.toList_append, List.length_append, Nat.add_sub_cancel, List.take_left, String.ofList_toList]

theorem Subject.ofVariable?_fieldName (f : Nat) {x : String} (h : StandsFor (Sketch.fieldName f) x) :
    Subject.ofVariable? x = some (.packetField (Sketch.fieldName f)) := by
  obtain ⟨rest, rfl, hrest⟩ := h
  have hchars : (Sketch.fieldName f ++ rest).toList = "pkt_".toList ++ ((toString f).toList ++ rest.toList) := by
    rw [Sketch.fieldName, String.toList_append, String.toList_append, List.append_assoc]
    rfl
  have hread : (do afterDigits (← afterText "pkt_" (Sketch.fieldName f ++ rest).toList)) = some rest.toList := by
    rw [hchars, afterText_append]
    exact afterDigits_number f hrest
  rw [Subject.ofVariable?]
  simp only [hread, take_name]

theorem Subject.ofVariable?_stateVarName (g k : Nat) {x : String} (h : StandsFor (Sketch.stateVarName g k) x) :
    Subject.ofVariable? x = some (.state (Sketch.stateVarName g k)) := by
  obtain ⟨rest, rfl, hrest⟩ := h
  have hchars : (Sketch.stateVarName g k ++ rest).toList = "state_group_".toList ++
      ((toString g).toList ++ ("_state_".toList ++ ((toString k).toList ++ rest.toList))) := by
    simp only [Sketch.stateVarName, String.toList_append, List.append_assoc]
    rfl
  have hfield : (do afterDigits (← afterText "pkt_" (Sketch.stateVarName g k ++ rest).toList)) = none := by
    rw [hchars, afterText, if_neg]
    · rfl
    · rw [show "pkt_".toList = ['p', 'k', 't', '_'] by decide,
        show "state_group_".toList = 's' :: "tate_group_".toList by decide]
      simp
  -- The number of the group ends at the underscore in front of the next word.
  have hgroup : ∀ c ∈ ("_state_".toList ++ ((toString k).toList ++ rest.toList)).head?, c = '_' := by
    rw [show "_state_".toList = '_' :: "state_".toList by decide]
    rintro c ⟨⟩
    rfl
  have hread : (do
      let rest ← afterDigits (← afterText "state_group_" (Sketch.stateVarName g k ++ rest).toList)
      afterDigits (← afterText "_state_" rest)) = some rest.toList := by
    rw [hchars, afterText_append]
    show (afterDigits _).bind _ = _
    rw [afterDigits_number g hgroup, Option.bind_some, afterText_append]
    exact afterDigits_number k hrest
  rw [Subject.ofVariable?]
  simp only [hfield, hread, take_name]

end Formula

/-! ### The parameters of a harness -/

namespace Sketch.Program

variable {p : Program}

def fieldParameters (p : Program) : List String :=
  (upTo p.plan.shape.fields).map fun f : Nat => fieldName f

/-- The packet fields and the states, with their types, are the parameters of the harness. -/
theorem harnessText_parameters (p : Program) : ∃ body, p.harnessText =
    "  harness void main(\n    " ++ String.intercalate "," (p.fieldParameters.map ("int " ++ ·)) ++ "\n" ++
      String.join (p.stateVars.map fun v => "        , int " ++ v ++ "\n") ++ ") \x7b\n\n" ++ body := by
  unfold harnessText fieldParameters
  simp only [-String.reduceAppend, String.append_assoc]
  exact ⟨_, rfl⟩

theorem ofVariable?_of_mem_fieldParameters {parameter x : String} (h : parameter ∈ p.fieldParameters)
    (hx : StandsFor parameter x) : Subject.ofVariable? x = some (.packetField parameter) := by
  obtain ⟨f, -, rfl⟩ := List.mem_map.1 h
  exact Subject.ofVariable?_fieldName f hx

theorem ofVariable?_of_mem_stateVars {parameter x : String} (h : parameter ∈ p.stateVars)
    (hx : StandsFor parameter x) : Subject.ofVariable? x = some (.state parameter) := by
  obtain ⟨g, -, h⟩ := List.mem_flatMap.1 h
  obtain ⟨k, -, rfl⟩ := List.mem_map.1 h
  exact Subject.ofVariable?_stateVarName g k hx

theorem not_mem_stateVars {parameter : String} (h : parameter ∈ p.fieldParameters) : parameter ∉ p.stateVars := by
  intro hstate
  obtain ⟨f, -, rfl⟩ := List.mem_map.1 h
  obtain ⟨g, -, hstate⟩ := List.mem_flatMap.1 hstate
  obtain ⟨k, -, heq⟩ := List.mem_map.1 hstate
  exact fieldName_ne_stateVarName f g k heq.symm

end Sketch.Program

/-! ### Values of the parameters -/

/-- Some variables are for parameters of the harness, each for one of its own. -/
structure HarnessVariables (p : Sketch.Program) (parameter : String → String) (names : List String) : Prop where
  parameters : ∀ x ∈ names, parameter x ∈ p.fieldParameters ∨ parameter x ∈ p.stateVars
  stands : ∀ x ∈ names, StandsFor (parameter x) x
  one : ∀ x ∈ names, ∀ y ∈ names, parameter x = parameter y → x = y

namespace HarnessVariables

variable {p : Sketch.Program} {parameter : String → String} {names : List String} {model : List (String × Int)}

/-- The values of those variables that stand for some of the parameters. -/
def valuesOf (parameter : String → String) (parameters : List String) (model : List (String × Int)) :
    List (String × Int) :=
  (model.map fun x => (parameter x.1, x.2)).filter fun x => x.1 ∈ parameters

theorem mem_valuesOf {parameters : List String} {e : String × Int} :
    e ∈ valuesOf parameter parameters model ↔ (∃ x ∈ model, (parameter x.1, x.2) = e) ∧ e.1 ∈ parameters := by
  rw [valuesOf, List.mem_filter, List.mem_map, decide_eq_true_iff]

theorem mem_of_mem_valuesOf {parameters : List String} {k : String}
    (h : k ∈ (valuesOf parameter parameters model).map Prod.fst) : k ∈ parameters := by
  obtain ⟨e, he, rfl⟩ := List.mem_map.1 h
  exact (mem_valuesOf.1 he).2

theorem add_eq (h : HarnessVariables p parameter names) (c : Formula.Counterexample) {x : String × Int}
    (hx : x.1 ∈ names) : c.add x =
      if parameter x.1 ∈ p.fieldParameters then
        { c with packetFields := c.packetFields.insert (parameter x.1) x.2 }
      else { c with states := c.states.insert (parameter x.1) x.2 } := by
  rw [Formula.Counterexample.add]
  by_cases hfield : parameter x.1 ∈ p.fieldParameters
  · rw [Sketch.Program.ofVariable?_of_mem_fieldParameters hfield (h.stands _ hx), if_pos hfield]
  · have hstate := (h.parameters _ hx).resolve_left hfield
    rw [Sketch.Program.ofVariable?_of_mem_stateVars hstate (h.stands _ hx), if_neg hfield]

/-- Each value goes to the table of its parameter, behind those that were there before. -/
theorem foldl_add (h : HarnessVariables p parameter names) (hmodel : ∀ x ∈ model, x.1 ∈ names)
    (c : Formula.Counterexample) : model.foldl .add c =
      ⟨(valuesOf parameter p.fieldParameters model).foldl (fun t e => t.insert e.1 e.2) c.packetFields,
        (valuesOf parameter p.stateVars model).foldl (fun t e => t.insert e.1 e.2) c.states⟩ := by
  induction model generalizing c with
  | nil => rfl
  | cons x model ih =>
    have hx := hmodel x List.mem_cons_self
    rw [List.foldl_cons, h.add_eq c hx, ih fun y hy => hmodel y (List.mem_cons_of_mem x hy)]
    by_cases hfield : parameter x.1 ∈ p.fieldParameters
    · simp [valuesOf, hfield, Sketch.Program.not_mem_stateVars hfield]
    · simp [valuesOf, hfield, (h.parameters _ hx).resolve_left hfield]

theorem length_valuesOf (h : HarnessVariables p parameter names) (hmodel : ∀ x ∈ model, x.1 ∈ names) :
    (valuesOf parameter p.fieldParameters model).length + (valuesOf parameter p.stateVars model).length =
      model.length := by
  induction model with
  | nil => rfl
  | cons x model ih =>
    have ih := ih fun y hy => hmodel y (List.mem_cons_of_mem x hy)
    have hx := h.parameters _ (hmodel x List.mem_cons_self)
    simp only [valuesOf] at ih
    by_cases hfield : parameter x.1 ∈ p.fieldParameters
    · simp [valuesOf, hfield, Sketch.Program.not_mem_stateVars hfield, ← ih]
      omega
    · simp [valuesOf, hfield, hx.resolve_left hfield, ← ih]
      omega

theorem nodup_valuesOf (h : HarnessVariables p parameter names) (hmodel : ∀ x ∈ model, x.1 ∈ names)
    (hnodup : (model.map Prod.fst).Nodup) (parameters : List String) :
    ((valuesOf parameter parameters model).map Prod.fst).Nodup := by
  refine List.Sublist.nodup (List.filter_sublist.map Prod.fst) ?_
  have hnames : ∀ x ∈ model.map Prod.fst, x ∈ names := by
    intro x hx
    obtain ⟨e, he, rfl⟩ := List.mem_map.1 hx
    exact hmodel e he
  have hinj := List.Nodup.map_on (fun x hx y hy => h.one x (hnames x hx) y (hnames y hy)) hnodup
  rw [List.map_map] at hinj ⊢
  exact hinj

theorem ofValues_eq (h : HarnessVariables p parameter names) (hmodel : ∀ x ∈ model, x.1 ∈ names)
    (hnodup : (model.map Prod.fst).Nodup) :
    (Formula.Counterexample.ofValues model).packetFields.toList = valuesOf parameter p.fieldParameters model ∧
      (Formula.Counterexample.ofValues model).states.toList = valuesOf parameter p.stateVars model := by
  rw [Formula.Counterexample.ofValues, h.foldl_add hmodel]
  exact ⟨Table.toList_ofList (h.nodup_valuesOf hmodel hnodup _), Table.toList_ofList (h.nodup_valuesOf hmodel hnodup _)⟩

end HarnessVariables

/-- For each variable that stands for a parameter of the harness, the counterexample has the value under the name of
this parameter, packet fields and states apart. Nothing is lost and nothing else is there, and all names are fields of the
record. -/
theorem counterexample_names_inputs {p : Sketch.Program} {f : Quantified} {parameter : String → String}
    {solver : Solver} {model : List (String × Int)} (hvariables : HarnessVariables p parameter f.names)
    (hsat : solver f = .sat model) (hmodel : ∀ x ∈ model, x.1 ∈ f.names) (hnodup : (model.map Prod.fst).Nodup)
    (c : Compiler) (w : Workspace) :
    ∃ found body groups record names, Compile.Ends (Compile.judge (solver f)) c w found c w ∧
      p.harnessText = "  harness void main(\n    " ++
        String.intercalate "," (p.fieldParameters.map ("int " ++ ·)) ++ "\n" ++
        String.join (p.stateVars.map fun v => "        , int " ++ v ++ "\n") ++ ") \x7b\n\n" ++ body ∧
      (∀ x ∈ model, if parameter x.1 ∈ p.fieldParameters then found.packetFields.get? (parameter x.1) = some x.2
        else found.states.get? (parameter x.1) = some x.2) ∧
      (∀ x ∈ model, ∀ y ∈ model, parameter x.1 = parameter y.1 → x = y) ∧
      found.packetFields.size + found.states.size = model.length ∧
      p.recordsText = groups ++ "struct StateAndPacket \x7b\n" ++ record ++ "\x7d\n\n" ∧
      Statements IsDeclaration names record ∧
      (∀ k ∈ found.packetFields.keys, k ∈ p.fieldParameters ∧ k ∈ names) ∧
      ∀ k ∈ found.states.keys, k ∈ p.stateVars ∧ k ∈ names := by
  obtain ⟨body, hharness⟩ := p.harnessText_parameters
  obtain ⟨groups, hrecords⟩ := p.recordsText_eq
  obtain ⟨hfields, hstates⟩ := hvariables.ofValues_eq hmodel hnodup
  refine ⟨.ofValues model, body, groups, p.recordBody, p.recordFields, ?_, hharness, fun x hx => ?_,
    fun x hx y hy heq => ?_, ?_, hrecords, p.recordBody_declares, fun k hk => ?_, fun k hk => ?_⟩
  · rw [hsat]
    exact Compile.ends_pure.2 ⟨rfl, rfl, rfl⟩
  · split
    · next hfield =>
      rw [Table.get?_eq_some_iff, hfields, HarnessVariables.mem_valuesOf]
      exact ⟨⟨x, hx, rfl⟩, hfield⟩
    · next hfield =>
      rw [Table.get?_eq_some_iff, hstates, HarnessVariables.mem_valuesOf]
      exact ⟨⟨x, hx, rfl⟩, (hvariables.parameters _ (hmodel x hx)).resolve_left hfield⟩
  · exact List.inj_on_of_nodup_map hnodup hx hy (hvariables.one _ (hmodel x hx) _ (hmodel y hy) heq)
  · rw [← hvariables.length_valuesOf hmodel, ← hfields, ← hstates]
    rfl
  · rw [Table.keys, ← Table.toList, hfields] at hk
    have hmem := HarnessVariables.mem_of_mem_valuesOf hk
    exact ⟨hmem, List.mem_append_left _ hmem⟩
  · rw [Table.keys, ← Table.toList, hstates] at hk
    have hmem := HarnessVariables.mem_of_mem_valuesOf hk
    exact ⟨hmem, List.mem_append_right _ hmem⟩

namespace ManyInputs

/-- A sketch with eleven packet fields and a state in each of two groups. -/
def program : Sketch.Program :=
  ⟨⟨⟨"many", 11, 2, 11, 1, 11, [], [], [], 1, false⟩, false, 1, [], 1, 1⟩, "", "", "", "", "", "", [], [], ""⟩

/-- A formula over the second and the last packet field and the state of the second group. -/
def formula : Quantified :=
  ⟨true, ["pkt_1_0", "pkt_10", "state_group_1_state_0_4"], #[.truth false], 0⟩

def parameter (x : String) : String :=
  if x = "pkt_1_0" then "pkt_1" else if x = "pkt_10" then "pkt_10" else "state_group_1_state_0"

def values : List (String × Int) :=
  [("pkt_10", 1), ("pkt_1_0", 2), ("state_group_1_state_0_4", 3)]

theorem harnessVariables : HarnessVariables program parameter formula.names where
  parameters := by decide +kernel
  stands := by
    intro x hx
    rcases List.mem_cons.1 hx with rfl | hx
    · exact ⟨"_0", by decide +kernel, by simp⟩
    rcases List.mem_cons.1 hx with rfl | hx
    · exact ⟨"", by decide +kernel, by simp⟩
    · obtain rfl := List.mem_singleton.1 hx
      exact ⟨"_4", by decide +kernel, by simp⟩
  one := by decide +kernel

/-- Neither of the packet fields takes the value of the other one. -/
theorem values_of_similar_names :
    HarnessVariables program parameter formula.names ∧ (∀ x ∈ values, x.1 ∈ formula.names) ∧
      (values.map Prod.fst).Nodup ∧
      ∀ c w, ∃ found, Compile.Ends (Compile.judge (.sat values)) c w found c w ∧
        found.packetFields.get? "pkt_1" = some 2 ∧ found.packetFields.get? "pkt_10" = some 1 ∧
        found.states.get? "state_group_1_state_0" = some 3 := by
  have hvalues : ∀ x ∈ values, x.1 ∈ formula.names := by decide +kernel
  have hnodup : (values.map Prod.fst).Nodup := by decide +kernel
  refine ⟨harnessVariables, hvalues, hnodup, fun c w => ?_⟩
  obtain ⟨found, -, -, -, -, hends, -, hfound, -⟩ :=
    @counterexample_names_inputs program formula parameter (fun _ => .sat values) values harnessVariables rfl hvalues
      hnodup c w
  refine ⟨found, hends, ?_, ?_, ?_⟩
  · exact (if_pos (by decide +kernel)).mp (hfound ("pkt_1_0", 2) (by decide))
  · exact (if_pos (by decide +kernel)).mp (hfound ("pkt_10", 1) (by decide))
  · exact (if_neg (by decide +kernel)).mp (hfound ("state_group_1_state_0_4", 3) (by decide))

end ManyInputs

end SwitchSynth
