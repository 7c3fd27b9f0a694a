import SwitchSynth.Proofs.Listing
import SwitchSynth.Proofs.Synthesis.OwnFiles

/-!
# Test cases accumulate

Without elimination every round adds one test case behind those of earlier rounds. A test case declares one input,
named for its round, whose settings are the values of the counterexample of this round, or zero where it has none.
Its assertions name this input only.
-/

namespace SwitchSynth

open Formula (Counterexample Subject)

/-! ### Words -/

namespace Text

def isWordChar (c : Char) : Bool :=
  c.isAlphanum || c == '_'

/-- The pieces of a text between characters that belong to no word. -/
def splitWords : List Char → List (List Char)
  | [] => [[]]
  | c :: cs =>
    if isWordChar c then
      match splitWords cs with
      | [] => [[c]]
      | word :: rest => (c :: word) :: rest
    else [] :: splitWords cs

def namesIn (text : String) : List String :=
  (splitWords text.toList).map String.ofList

theorem splitWords_ne_nil (cs : List Char) : splitWords cs ≠ [] := by
  cases cs with
  | nil => simp [splitWords]
  | cons c cs =>
    rw [splitWords]
    split
    · split <;> simp
    · simp

variable {c : Char} {cs : List Char} {text : String}

/-- A character that belongs to no word keeps the words around it apart. -/
theorem splitWords_append (h : isWordChar c = false) (xs ys : List Char) :
    splitWords (xs ++ c :: ys) = splitWords xs ++ splitWords ys := by
  induction xs with
  | nil => simp [splitWords, h]
  | cons x xs ih =>
    rw [List.cons_append, splitWords, splitWords, ih]
    by_cases hx : isWordChar x = true
    · rw [if_pos hx, if_pos hx]
      cases hwords : splitWords xs with
      | nil => exact absurd hwords (splitWords_ne_nil xs)
      | cons word rest => rfl
    · rw [if_neg hx, if_neg hx, List.cons_append]

theorem splitWords_of_all (h : cs.all isWordChar = true) : splitWords cs = [cs] := by
  induction cs with
  | nil => rfl
  | cons c cs ih =>
    rw [List.all_cons, Bool.and_eq_true] at h
    rw [splitWords, if_pos h.1, ih h.2]

theorem mem_of_mem_splitWords {word : List Char} (h : word ∈ splitWords cs) (hc : c ∈ word) :
    c ∈ cs := by
  induction cs generalizing word with
  | nil =>
    obtain rfl := List.mem_singleton.1 h
    exact hc
  | cons d cs ih =>
    rw [splitWords] at h
    split at h
    · split at h
      · next hnil => exact absurd hnil (splitWords_ne_nil cs)
      · next first rest hwords =>
        rw [hwords] at ih
        rcases List.mem_cons.1 h with rfl | hrest
        · rcases List.mem_cons.1 hc with rfl | hc
          · exact List.mem_cons_self
          · exact List.mem_cons_of_mem _ (ih List.mem_cons_self hc)
        · exact List.mem_cons_of_mem _ (ih (List.mem_cons_of_mem _ hrest) hc)
    · rcases List.mem_cons.1 h with rfl | hrest
      · exact absurd hc List.not_mem_nil
      · exact List.mem_cons_of_mem _ (ih hrest hc)

theorem namesIn_append {separator : String} (hseparator : separator.toList = [c])
    (hc : isWordChar c = false) (a b : String) : namesIn (a ++ (separator ++ b)) = namesIn a ++ namesIn b := by
  rw [namesIn, String.toList_append, String.toList_append, hseparator, List.singleton_append, splitWords_append hc,
    List.map_append]
  rfl

theorem namesIn_of_all (h : text.toList.all isWordChar = true) : namesIn text = [text] := by
  rw [namesIn, splitWords_of_all h, List.map_singleton, String.ofList_toList]

theorem mem_of_mem_namesIn {name : String} (h : name ∈ namesIn text) (hc : c ∈ name.toList) :
    c ∈ text.toList := by
  obtain ⟨word, hword, rfl⟩ := List.mem_map.1 h
  rw [String.toList_ofList] at hc
  exact mem_of_mem_splitWords hword hc

end Text

/-! ### Names -/

/-- The input of the test case of a round. -/
def inputName (n : Nat) : String :=
  "x_" ++ toString n

theorem isWordChar_inputName (n : Nat) : (inputName n).toList.all Text.isWordChar = true := by
  rw [inputName, String.toList_append, List.all_append, Bool.and_eq_true]
  refine ⟨by decide, List.all_eq_true.2 fun c hc => ?_⟩
  have hdigit := Text.isDigit_of_mem_toString hc
  simp [Text.isWordChar, Char.isAlphanum, hdigit]

theorem inputName_inj {m n : Nat} : inputName m = inputName n ↔ m = n := by
  refine ⟨fun h => Text.toString_nat_injective ?_, fun h => h ▸ rfl⟩
  have hchars := congrArg String.toList h
  rw [inputName, inputName, String.toList_append, String.toList_append] at hchars
  exact String.toList_inj.1 (List.append_cancel_left hchars)

theorem mem_namesIn_assertion {t : Testcase} {n m : Nat} {part : String} (ht : t.input = inputName n)
    (hpart : 'x' ∉ part.toList) : inputName m ∈ Text.namesIn (t.assertion part) ↔ m = n := by
  have htext : t.assertion part = "assert (pipeline" ++ ("(" ++ (inputName n ++ (")" ++ (part ++ (" " ++
      ("== program" ++ ("(" ++ (inputName n ++ (")" ++ (part ++ (")" ++ ";\n"))))))))))) := by
    unfold Testcase.assertion
    rw [ht, show "assert (pipeline(" = "assert (pipeline" ++ "(" by decide, show ");\n" = ")" ++ ";\n" by decide,
      show " == program(" = " " ++ ("== program" ++ "(") by decide]
    simp only [-String.reduceAppend, String.append_assoc]
  have hopening := Text.namesIn_append (show "(".toList = ['('] by decide) (by decide)
  have hclosing := Text.namesIn_append (show ")".toList = [')'] by decide) (by decide)
  have hspace := Text.namesIn_append (show " ".toList = [' '] by decide) (by decide)
  -- Nothing but the name of the input has the letter that it begins with.
  have hother {text : String} (htext : 'x' ∉ text.toList) : ¬ inputName m ∈ Text.namesIn text := by
    intro hmem
    refine htext (Text.mem_of_mem_namesIn hmem ?_)
    rw [inputName, String.toList_append]
    exact List.mem_append_left _ (by decide)
  rw [htext]
  simp only [hopening, hclosing, hspace, List.mem_append, Text.namesIn_of_all (isWordChar_inputName n),
    List.mem_singleton, inputName_inj, hother hpart, hother (show 'x' ∉ "assert (pipeline".toList by decide),
    hother (show 'x' ∉ "== program".toList by decide), hother (show 'x' ∉ ";\n".toList by decide), false_or, or_false,
    or_self]

/-! ### What a counterexample leaves open -/

theorem filled_get? {α : Type} (zero : α) (values : Table α) (names : List String) (k : String) :
    (filled zero values names).get? k = (values.get? k).or (if k ∈ names then some zero else none) := by
  unfold filled
  induction names generalizing values with
  | nil => simp
  | cons name rest ih =>
    rw [List.foldl_cons, ih]
    by_cases hcontains : values.contains name = true
    · rw [if_pos hcontains]
      by_cases hk : k = name
      · -- The name has a value already, which stays.
        subst hk
        have hsome : values.get? k ≠ none := by
          rw [ne_eq, Table.get?_eq_none_iff]
          exact not_not_intro ((values.contains_eq_true_iff k).1 hcontains)
        obtain ⟨v, hv⟩ := Option.ne_none_iff_exists'.1 hsome
        rw [hv, Option.some_or, Option.some_or]
      · simp [hk]
    · have hnone : values.get? name = none := by
        rw [Table.get?_eq_none_iff, ← values.contains_eq_true_iff]
        exact hcontains
      rw [if_neg hcontains, Table.get?_insert]
      by_cases hk : name = k
      · subst hk
        simp [hnone]
      · rw [if_neg hk]
        simp [Ne.symm hk]

variable {values : Table Int} {names : List String}

theorem mem_filled {name : String} (h : name ∈ names) :
    (name, (values.get? name).getD 0) ∈ (filled 0 values names).toList := by
  rw [← Table.get?_eq_some_iff, filled_get?, if_pos h]
  cases values.get? name with
  | none => rfl
  | some v => rfl

theorem mem_keys_filled {k : String} :
    k ∈ (filled 0 values names).keys ↔ k ∈ values.keys ∨ k ∈ names := by
  rw [← Decidable.not_iff_not, ← Table.get?_eq_none_iff, filled_get?, Option.or_eq_none_iff, Table.get?_eq_none_iff,
    not_or]
  simp

/-! ### The names of a counterexample -/

namespace Counterexample

/-- The names of packet fields and those of states begin with letters of their own. -/
structure Apart (c : Counterexample) : Prop where
  fields : ∀ k ∈ c.packetFields.keys, k.toList.head? = some 'p'
  states : ∀ k ∈ c.states.keys, k.toList.head? = some 's'

variable {text : String} {cs rest : List Char}

theorem afterText_ok (h : Formula.afterText text cs = some rest) :
    text.toList <+: cs ∧ rest.length + text.length ≤ cs.length := by
  unfold Formula.afterText at h
  split at h
  · next hstart =>
    obtain rfl := Option.some.inj h
    have hle := (List.isPrefixOf_iff_prefix.1 hstart).length_le
    rw [String.length_toList] at hle
    rw [List.length_drop]
    exact ⟨List.isPrefixOf_iff_prefix.1 hstart, by omega⟩
  · exact nomatch h

theorem afterDigits_ok (h : Formula.afterDigits cs = some rest) : rest.length ≤ cs.length := by
  unfold Formula.afterDigits at h
  split at h
  · split at h
    · obtain rfl := Option.some.inj h
      exact (List.dropWhile_suffix _).length_le
    · cases h
  · cases h

theorem head?_take {c : Char} (hstart : text.toList <+: cs)
    (hc : text.toList.head? = some c) (hlength : rest.length + text.length ≤ cs.length) :
    (String.ofList (cs.take (cs.length - rest.length))).toList.head? = some c := by
  obtain ⟨more, rfl⟩ := hstart
  have hpos : 0 < text.length := by
    rw [← String.length_toList]
    exact List.length_pos_of_ne_nil fun hnil => by simp [hnil] at hc
  rw [String.toList_ofList, List.head?_take, if_neg (by omega), List.head?_append, hc, Option.some_or]

theorem head?_of_ofVariable? {variableName : String} :
    (∀ {name}, Subject.ofVariable? variableName = some (.packetField name) → name.toList.head? = some 'p') ∧
      ∀ {name}, Subject.ofVariable? variableName = some (.state name) → name.toList.head? = some 's' := by
  unfold Subject.ofVariable?
  dsimp only
  split
  · next rest hrest =>
    obtain ⟨cs, hcs, hdigits⟩ := Option.bind_eq_some_iff.1 hrest
    obtain ⟨hstart, hlength⟩ := afterText_ok hcs
    have hle := afterDigits_ok hdigits
    refine ⟨fun h => ?_, (nomatch ·)⟩
    cases h
    exact head?_take hstart (by decide) (by omega)
  · split
    · next rest hrest =>
      obtain ⟨cs, hcs, hrest⟩ := Option.bind_eq_some_iff.1 hrest
      obtain ⟨cs₁, hdigits, hrest⟩ := Option.bind_eq_some_iff.1 hrest
      obtain ⟨cs₂, hcs₂, hdigits'⟩ := Option.bind_eq_some_iff.1 hrest
      obtain ⟨hstart, hlength⟩ := afterText_ok hcs
      have hle := afterDigits_ok hdigits
      have hle₁ := (afterText_ok hcs₂).2
      have hle₂ := afterDigits_ok hdigits'
      refine ⟨(nomatch ·), fun h => ?_⟩
      cases h
      exact head?_take hstart (by decide) (by omega)
    · exact ⟨(nomatch ·), (nomatch ·)⟩

theorem apart_add {c : Counterexample} (h : Apart c) (e : String × Int) : Apart (c.add e) := by
  unfold Formula.Counterexample.add
  have hinsert {t : Table Int} {name : String} {letter : Char} (ht : ∀ k ∈ t.keys, k.toList.head? = some letter)
      (hname : name.toList.head? = some letter) : ∀ k ∈ (t.insert name e.2).keys, k.toList.head? = some letter := by
    intro k hk
    rw [Table.keys_insert] at hk
    split at hk
    · exact ht k hk
    · rcases List.mem_append.1 hk with hk | hk
      · exact ht k hk
      · exact List.mem_singleton.1 hk ▸ hname
  split
  · next name hname => exact ⟨hinsert h.fields (head?_of_ofVariable?.1 hname), h.states⟩
  · next name hname => exact ⟨h.fields, hinsert h.states (head?_of_ofVariable?.2 hname)⟩
  · exact h

theorem apart_ofValues (model : List (String × Int)) : Apart (.ofValues model) := by
  have hall : ∀ (model : List (String × Int)) {c : Counterexample}, Apart c → Apart (model.foldl .add c) := by
    intro model
    induction model with
    | nil => exact id
    | cons e rest ih => exact fun h => ih (apart_add h e)
  exact hall model ⟨fun _ hk => absurd hk List.not_mem_nil, fun _ hk => absurd hk List.not_mem_nil⟩

end Counterexample

/-! ### The text of a test case -/

/-- A statement that something holds. -/
def IsAssertion (text : String) : Prop :=
  ∃ condition, text = "assert (" ++ condition ++ ");\n" ∧ ';' ∉ condition.toList

/-- A test case: the declaration of the input of a round, with a list of settings that is closed, and assertions
that name this input and no other. -/
def IsBlock (n : Nat) (settings : List (String × Int)) (text : String) : Prop :=
  ∃ listing assertions,
    text = "|StateAndPacket| " ++ inputName n ++ " = |StateAndPacket|(" ++ listing ++ ");\n" ++
      String.join assertions ∧
    Text.Lists listing (settings.map fun e => e.1 ++ " = " ++ toString e.2) ∧
    ∀ a ∈ assertions, IsAssertion a ∧ ∀ m : Nat, inputName m ∈ Text.namesIn a ↔ m = n

namespace Testcase

/-- What the assertions of a test case are about: everything at once, or outputs one by one. -/
def parts (t : Testcase) : List String :=
  match t.compared with
  | .everything => [""]
  | .only outputs => outputs.map fun o => "." ++ o.name

theorem assertions_eq (t : Testcase) : t.assertions = String.join (t.parts.map t.assertion) := by
  unfold assertions parts
  cases t.compared with
  | everything => simp
  | only outputs =>
    rw [List.map_map]
    rfl

theorem assertion_eq (t : Testcase) (part : String) : t.assertion part =
    "assert (" ++ "pipeline(" ++ t.input ++ ")" ++ part ++ " == program(" ++ t.input ++ ")" ++ part ++ ");\n" := by
  rw [show "assert (" ++ "pipeline(" = "assert (pipeline(" by decide]
  rfl

/-- The setting of a name in the declaration of an input. -/
def setting (e : String × String) : String :=
  e.1 ++ " = " ++ e.2

/-- The settings in the declaration of an input. -/
def listing (t : Testcase) : String :=
  "\n" ++ (String.join ((t.fields.map setting).map fun word => "" ++ word ++ "," ++ "\n") ++
    String.intercalate ("," ++ "\n") (t.states.map setting))

variable {t : Testcase}

theorem listing_lists (h : t.states ≠ []) :
    Text.Lists t.listing ((t.fields ++ t.states).map setting) := by
  have hline : Text.Blank "\n" := rfl
  have hempty : Text.Blank "" := rfl
  have hstates := Text.Lists.intercalate (t.states.map setting) hline
  rw [Text.pieces_of_ne_nil (by simpa using h)] at hstates
  rw [List.map_append]
  exact (hstates.commasBehind (t.fields.map setting) hempty hline).padLeft hline

theorem declaration_eq (h : t.states ≠ []) :
    t.declaration = "|StateAndPacket| " ++ t.input ++ " = |StateAndPacket|(" ++ t.listing ++ ");\n" := by
  have hfields : t.fields.map (fun e => setting e ++ ",\n") =
      (t.fields.map setting).map fun word => "" ++ word ++ "," ++ "\n" := by
    rw [List.map_map]
    refine List.map_congr_left fun e _ => ?_
    show setting e ++ ",\n" = "" ++ setting e ++ "," ++ "\n"
    rw [String.empty_append, String.append_assoc]
    rfl
  show "|StateAndPacket| " ++ t.input ++ " = |StateAndPacket|(\n" ++
    String.join (t.fields.map fun e => setting e ++ ",\n") ++
    (if t.states.isEmpty then "" else String.intercalate ",\n" (t.states.map setting) ++ ");\n") = _
  rw [if_neg (by simpa using h), hfields, listing, show " = |StateAndPacket|(\n" = " = |StateAndPacket|(" ++ "\n" by
    decide, show ",\n" = "," ++ "\n" by decide]
  simp only [-String.reduceAppend, String.append_assoc]

theorem isBlock {n : Nat} {settings : List (String × Int)} (hinput : t.input = inputName n)
    (hsettings : t.fields ++ t.states = settings.map fun e => (e.1, toString e.2)) (hstates : t.states ≠ [])
    (hparts : ∀ part ∈ t.parts, 'x' ∉ part.toList ∧ ';' ∉ part.toList) : IsBlock n settings t.text := by
  refine ⟨t.listing, t.parts.map t.assertion, ?_, ?_, ?_⟩
  · rw [text, declaration_eq hstates, assertions_eq, hinput]
  · have hlists := listing_lists hstates
    rw [hsettings, List.map_map] at hlists
    exact hlists
  · intro a ha
    obtain ⟨part, hpart, rfl⟩ := List.mem_map.1 ha
    obtain ⟨hx, hsemicolon⟩ := hparts part hpart
    refine ⟨⟨"pipeline(" ++ t.input ++ ")" ++ part ++ " == program(" ++ t.input ++ ")" ++ part, ?_, ?_⟩,
      fun m => mem_namesIn_assertion hinput hx⟩
    · rw [assertion_eq]
      simp only [-String.reduceAppend, String.append_assoc]
    · have hname : ';' ∉ (inputName n).toList := by
        intro hmem
        exact absurd (List.all_eq_true.1 (isWordChar_inputName n) ';' hmem) (by decide)
      simp only [hinput, String.toList_append, List.mem_append, not_or]
      exact ⟨⟨⟨⟨⟨⟨⟨by decide, hname⟩, by decide⟩, hsemicolon⟩, by decide⟩, hname⟩, by decide⟩, hsemicolon⟩

end Testcase

/-! ### The test case of a round -/

namespace Loop

variable {s : Setup}

def settingsOf (s : Setup) (found : Counterexample) : List (String × Int) :=
  (filled 0 found.packetFields s.inputs.fieldNames).toList ++ (filled 0 found.states s.inputs.stateNames).toList

variable {name : String} {found : Counterexample} {l : List (Compile.Run × Counterexample)}

theorem head?_fieldName (h : name ∈ s.inputs.fieldNames) : name.toList.head? = some 'p' := by
  obtain ⟨n, -, rfl⟩ := List.mem_map.1 h
  rw [String.toList_append, List.head?_append, show "pkt_".toList.head? = some 'p' by decide, Option.some_or]

theorem head?_stateName (h : name ∈ s.inputs.stateNames) : name.toList.head? = some 's' := by
  obtain ⟨⟨group, states⟩, -, hstate⟩ := List.mem_flatMap.1 h
  obtain ⟨state, -, rfl⟩ := List.mem_map.1 hstate
  rw [String.toList_append, String.toList_append, String.toList_append, List.append_assoc, List.append_assoc,
    List.head?_append, show "state_group_".toList.head? = some 's' by decide, Option.some_or]

theorem nodup_settingsOf (h : Counterexample.Apart found) :
    ((settingsOf s found).map Prod.fst).Nodup := by
  rw [settingsOf, List.map_append]
  refine List.nodup_append.2 ⟨(filled 0 found.packetFields s.inputs.fieldNames).nodup,
    (filled 0 found.states s.inputs.stateNames).nodup, fun k hk k' hk' heq => ?_⟩
  subst heq
  have hfield : k.toList.head? = some 'p' := (mem_keys_filled.1 hk).elim (h.fields k) head?_fieldName
  have hstate : k.toList.head? = some 's' := (mem_keys_filled.1 hk').elim (h.states k) head?_stateName
  rw [hfield] at hstate
  exact absurd hstate (by decide)

theorem mem_toString_int {n : Int} {c : Char} (h : c ∈ (toString n).toList) : c.isDigit = true ∨ c = '-' := by
  cases n with
  | ofNat m => exact .inl (Text.isDigit_of_mem_toString (n := m) h)
  | negSucc m =>
    have htext : (toString (Int.negSucc m)).toList = '-' :: (toString (m + 1)).toList := by
      show ("-" ++ toString (m + 1)).toList = _
      rw [String.toList_append, show "-".toList = ['-'] by decide, List.singleton_append]
    rw [htext] at h
    rcases List.mem_cons.1 h with rfl | h
    · exact .inr rfl
    · exact .inl (Text.isDigit_of_mem_toString h)

def chosenOutputs (fields groups : Option (List Int)) (size : Int) : List Output :=
  ((fields.getD []).map fun f => .field (toString f)) ++
    (groups.getD []).flatMap fun g => (Sketch.upTo size).map fun n => .state (toString g) n

theorem ofChoice_eq (fields groups : Option (List Int)) (size : Int) :
    Compared.ofChoice (fields.map fun l => l.map toString) (groups.map fun l => l.map toString) size =
      if fields = none ∧ groups = none then .everything else .only (chosenOutputs fields groups size) := by
  cases fields with
  | none =>
    cases groups with
    | none => rfl
    | some gs => simp [Compared.ofChoice, chosenOutputs, List.flatMap_map]
  | some fs =>
    cases groups with
    | none => simp [Compared.ofChoice, chosenOutputs, Function.comp_def]
    | some gs => simp [Compared.ofChoice, chosenOutputs, List.flatMap_map, Function.comp_def]

theorem parts_testcaseOf (s : Setup) (round : Nat) (found : Counterexample) : (testcaseOf s round found).parts =
    if s.arguments.outputFields = none ∧ s.arguments.outputGroups = none then [""]
    else (chosenOutputs s.arguments.outputFields s.arguments.outputGroups s.groupSize).map fun o => "." ++ o.name := by
  rw [Testcase.parts, testcaseOf, ofChoice_eq]
  split
  · next heq =>
    split at heq
    · next h => rw [if_pos h]
    · exact nomatch heq
  · next heq =>
    split at heq
    · exact nomatch heq
    · next h =>
      cases heq
      rw [if_neg h]

theorem mem_chosenOutputs {fields groups : Option (List Int)} {size : Int} {o : Output} :
    o ∈ chosenOutputs fields groups size ↔ (∃ f ∈ fields.getD [], o = .field (toString f)) ∨
      ∃ g ∈ groups.getD [], ∃ n ∈ Sketch.upTo size, o = .state (toString g) n := by
  simp only [chosenOutputs, List.mem_append, List.mem_map, List.mem_flatMap, eq_comm]

/-- A letter that is neither in the names of outputs nor in numbers is in no part of a test case. -/
theorem not_mem_parts {round : Nat} {c : Char} (hfield : c ∉ ".pkt_".toList)
    (hgroup : c ∉ ".state_group_".toList) (hstate : c ∉ "_state_".toList) (hdigit : c.isDigit = false) (hsign : c ≠ '-')
    {part : String} (hpart : part ∈ (testcaseOf s round found).parts) : c ∉ part.toList := by
  have hint (n : Int) : c ∉ (toString n).toList := by
    intro hmem
    rcases mem_toString_int hmem with h | h
    · rw [hdigit] at h
      exact nomatch h
    · exact hsign h
  have hnat (n : Nat) : c ∉ (toString n).toList := hint n
  rw [parts_testcaseOf] at hpart
  split at hpart
  · rw [List.mem_singleton.1 hpart]
    exact List.not_mem_nil
  · obtain ⟨o, ho, rfl⟩ := List.mem_map.1 hpart
    rcases mem_chosenOutputs.1 ho with ⟨f, -, rfl⟩ | ⟨g, -, n, -, rfl⟩
    · simp only [Output.name, ← String.append_assoc, String.reduceAppend, String.toList_append, List.mem_append, not_or]
      exact ⟨hfield, hint f⟩
    · simp only [Output.name, ← String.append_assoc, String.reduceAppend, String.toList_append, List.mem_append, not_or]
      exact ⟨⟨⟨hgroup, hint g⟩, hstate⟩, hnat n⟩

theorem isBlock_testcaseOf (hstates : s.inputs.stateNames ≠ []) (n : Nat) (found : Counterexample) :
    IsBlock n (settingsOf s found) (testcaseOf s n found).text := by
  refine Testcase.isBlock rfl (List.map_append (f := fun e : String × Int => (e.1, toString e.2))).symm ?_ ?_
  · obtain ⟨name, hname⟩ := List.exists_mem_of_ne_nil _ hstates
    have hmem : (name, (found.states.get? name).getD 0) ∈ (filled 0 found.states s.inputs.stateNames).toList :=
      mem_filled hname
    exact List.ne_nil_of_mem (List.mem_map_of_mem hmem)
  · intro part hpart
    exact ⟨not_mem_parts (by decide) (by decide) (by decide) (by decide) (by decide) hpart,
      not_mem_parts (by decide) (by decide) (by decide) (by decide) (by decide) hpart⟩

def blocksOf (s : Setup) (l : List (Compile.Run × Counterexample)) : List String :=
  l.zipIdx.map fun (r, k) => (testcaseOf s (k + 1) r.2).text

theorem blocksOf_concat (s : Setup) (l : List (Compile.Run × Counterexample)) (r : Compile.Run × Counterexample) :
    blocksOf s (l ++ [r]) = blocksOf s l ++ [(testcaseOf s (l.length + 1) r.2).text] := by
  simp [blocksOf, List.zipIdx_append]

/-- What rounds have handed on without elimination: a test case each, in order. -/
structure Accumulates (s : Setup) (l : List (Compile.Run × Counterexample)) (y : Stand) : Prop where
  round : y.progress.round = l.length + 1
  testcases : y.progress.testcases = String.join (blocksOf s l)
  apart : ∀ r ∈ l, Counterexample.Apart r.2

theorem Accumulates.step {y z : Stand} {run : Compile.Run} (helimination : s.arguments.holeElimination = false)
    (h : Accumulates s l y)
    (hturn : Turns s y run found z) : Accumulates s (l ++ [(run, found)]) z := by
  obtain ⟨f, c₁, w₁, w₂, -, ⟨model, -, rfl⟩, -, -, hlearn⟩ := hturn
  obtain ⟨bits, -, hprogress, -, -⟩ := learn_testcase helimination hlearn
  constructor
  · rw [hprogress, List.length_append, List.length_singleton, ← h.round]
  · rw [hprogress, blocksOf_concat, String.join_append, ← h.testcases, h.round]
    simp
  · intro r hr
    rcases List.mem_append.1 hr with hr | hr
    · exact h.apart r hr
    · rw [List.mem_singleton.1 hr]
      exact Counterexample.apart_ofValues model

theorem Course.accumulates {x y : Stand}
    (helimination : s.arguments.holeElimination = false) (hstart : x.progress = {}) (h : Course s x l y) :
    Accumulates s l y := by
  induction h with
  | start => exact ⟨by rw [hstart]; rfl, by rw [hstart]; rfl, fun r hr => absurd hr List.not_mem_nil⟩
  | round _ hturn ih => exact ih.step helimination hturn

end Loop

/-! ### The states of a program -/

theorem Spec.states_ne_nil {spec : String} : ∀ e ∈ (stateGroups spec).toList, e.2 ≠ [] := by
  have hadd {t : Table (List String)} (ht : ∀ e ∈ t.toList, e.2 ≠ []) (group state : String) :
      ∀ e ∈ (addState t group state).toList, e.2 ≠ [] := by
    intro e he
    rw [addState, ← Table.get?_eq_some_iff, Table.get?_insert] at he
    split at he
    · rw [← Option.some.inj he]
      split
      · next hmem => exact List.ne_nil_of_mem hmem
      · simp
    · exact ht e ((t.get?_eq_some_iff _ _).1 he)
  have hstart : ∀ e ∈ ({} : Table (List String)).toList, e.2 ≠ [] := fun e he => absurd he List.not_mem_nil
  unfold stateGroups
  generalize statePattern.findAll spec = found
  generalize ({} : Table (List String)) = t at hstart
  induction found generalizing t with
  | nil => exact hstart
  | cons c rest ih =>
    rw [List.foldl_cons]
    apply ih
    split
    · exact hadd hstart _ _
    · exact hstart

/-! ### What is tested -/

namespace SmallSwitch

end SmallSwitch

end SwitchSynth
