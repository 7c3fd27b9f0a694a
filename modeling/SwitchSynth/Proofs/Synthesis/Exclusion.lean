import SwitchSynth.Proofs.Synthesis.Elimination
import SwitchSynth.Proofs.Table

/-!
# What an elimination constraint excludes

The constraint that eliminates an assignment is read with names that have no other meaning than their values: a hole may
be called `or`. It is false for one assignment of the holes, and the order in which the values were found leaves no
trace in it.
-/

namespace SwitchSynth.Elimination

open Reading (Symbol Reads IsNumeral IsWord numeral chars bit kind)
open Sketch (HoleValue)

variable {σ : String → Int} {word cs : List Char} {c : Char} {e : String × String} {es : List (String × String)}

/-! ### Reading with plain names -/

/-- A word that is no numeral stands for its value. -/
def wordSymbols (σ : String → Int) (word : List Char) : List Symbol :=
  if word.all Char.isDigit then word.map .char else [.value (σ (String.ofList word))]

/-- Put values for the names of a text, behind the beginning of a word. -/
def valued (σ : String → Int) : List Char → List Char → List Symbol
  | word, [] => wordSymbols σ word
  | word, c :: cs =>
    if kind c = .word then valued σ (word ++ [c]) cs else wordSymbols σ word ++ .char c :: valued σ [] cs

/-- The value of a text in which every name has its value. -/
def truth? (σ : String → Int) (text : String) : Option Int :=
  Reading.value? σ (valued σ [] text.toList)

theorem valued_word (hword : ∀ c ∈ word, kind c = .word) (start : List Char) :
    valued σ start (word ++ cs) = valued σ (start ++ word) cs := by
  induction word generalizing start with
  | nil => simp
  | cons c word ih =>
    obtain ⟨hc, hword⟩ := List.forall_mem_cons.1 hword
    rw [List.cons_append, valued, if_pos hc, ih hword]
    simp

theorem valued_other (hc : kind c ≠ .word) : valued σ word (c :: cs) = wordSymbols σ word ++ .char c :: valued σ [] cs :=
  if_neg hc

/-- A word that a value can be given to. -/
structure IsIdentifier (name : String) : Prop where
  isWord : IsWord name.toList
  notNumeral : name.toList.all Char.isDigit = false

theorem IsIdentifier.wordSymbols_eq {name : String} (h : IsIdentifier name) :
    wordSymbols σ name.toList = [.value (σ name)] := by
  simp [wordSymbols, h.notNumeral]

theorem wordSymbols_numeral {digits : String} (h : IsNumeral digits) : wordSymbols σ digits.toList = chars digits :=
  if_pos h.digits

/-- An equation with the value of its hole. -/
def equationSymbols (σ : String → Int) (e : String × String) : List Symbol :=
  .char '(' :: (.value (σ e.1) :: .char ' ' :: ("==".toList.map .char ++ .char ' ' :: chars e.2)) ++ [.char ')']

theorem valued_equation (hname : IsIdentifier e.1) (hnumeral : IsNumeral e.2) :
    valued σ [] ((equationText e).toList ++ cs) = equationSymbols σ e ++ valued σ [] cs := by
  have htext : (equationText e).toList ++ cs =
      '(' :: (e.1.toList ++ ' ' :: '=' :: '=' :: ' ' :: (e.2.toList ++ ')' :: cs)) := by
    simp [equationText]
  rw [htext, valued_other (by decide), valued_word hname.isWord.kind_eq, List.nil_append, valued_other (by decide),
    hname.wordSymbols_eq, valued_other (by decide), valued_other (by decide), valued_other (by decide),
    valued_word hnumeral.isWord.kind_eq, List.nil_append, valued_other (by decide), wordSymbols_numeral hnumeral]
  simp [equationSymbols, wordSymbols]

theorem reads_equationSymbols (hnumeral : IsNumeral e.2) :
    Reads σ Reading.atomLevel (equationSymbols σ e) (bit (σ e.1 = numeral e.2)) := by
  have hleft : Reads σ 4 [.value (σ e.1)] (σ e.1) := (Reading.reads_value _).mono (by decide)
  have hright : Reads σ 5 (chars e.2) (numeral e.2) := (Reading.reads_numeral hnumeral).mono (by decide)
  exact Reading.reads_group (Reading.reads_spaced Reading.spells_eq hleft hright) (by decide)

/-- An equation behind others. -/
def furtherSymbols (σ : String → Int) (e : String × String) : List Symbol :=
  .char ' ' :: ("&&".toList.map .char ++ .char ' ' :: equationSymbols σ e)

theorem valued_further (hes : ∀ e ∈ es, IsIdentifier e.1 ∧ IsNumeral e.2) :
    valued σ [] ((es.flatMap fun e => (" && " ++ equationText e).toList) ++ cs) =
      es.flatMap (furtherSymbols σ) ++ valued σ [] cs := by
  induction es with
  | nil => rfl
  | cons e es ih =>
    obtain ⟨⟨hname, hnumeral⟩, hes⟩ := List.forall_mem_cons.1 hes
    have htext : ((e :: es).flatMap fun e => (" && " ++ equationText e).toList) ++ cs = ' ' :: '&' :: '&' :: ' ' ::
        ((equationText e).toList ++ ((es.flatMap fun e => (" && " ++ equationText e).toList) ++ cs)) := by
      simp
    rw [htext, valued_other (by decide), valued_other (by decide), valued_other (by decide), valued_other (by decide),
      valued_equation hname hnumeral, ih hes]
    simp [furtherSymbols, wordSymbols]

/-- Equations behind a text that reads as a truth value: all together hold if each of them does. -/
theorem reads_further {symbols : List Symbol} {v : Int} (hes : ∀ e ∈ es, IsIdentifier e.1 ∧ IsNumeral e.2)
    (h : Reads σ 2 symbols v) : ∃ u, Reads σ 2 (symbols ++ es.flatMap (furtherSymbols σ)) u ∧
      (u ≠ 0 ↔ v ≠ 0 ∧ ∀ e ∈ es, σ e.1 = numeral e.2) := by
  induction es generalizing symbols v with
  | nil => exact ⟨v, by simpa using h, by simp⟩
  | cons e es ih =>
    obtain ⟨⟨-, hnumeral⟩, hes⟩ := List.forall_mem_cons.1 hes
    have hequation : Reads σ 3 (equationSymbols σ e) (bit (σ e.1 = numeral e.2)) :=
      (reads_equationSymbols hnumeral).mono (by decide)
    obtain ⟨u, hreads, hu⟩ := ih hes (Reading.reads_spaced Reading.spells_and_sign h hequation)
    refine ⟨u, ?_, ?_⟩
    · rw [List.flatMap_cons, ← List.append_assoc]
      exact hreads
    · rw [hu, List.forall_mem_cons]
      simp only [Reading.Operator.apply, ne_eq, Reading.bit_eq_zero, Decidable.not_not, and_assoc]

theorem toList_text_cons (e : String × String) (es : List (String × String)) : (text (e :: es)).toList =
    '!' :: '(' :: ((equationText e).toList ++ ((es.flatMap fun e => (" && " ++ equationText e).toList) ++ [')'])) := by
  have hall (text : String) : (" && ".intercalate (text :: es.map equationText)).toList =
      text.toList ++ es.flatMap fun e => (" && " ++ equationText e).toList := by
    induction es generalizing text with
    | nil => simp
    | cons e es ih =>
      rw [List.map_cons, intercalate_merge, ih]
      simp
  show ("!(" ++ " && ".intercalate (equationText e :: es.map equationText) ++ ")").toList = _
  simp [hall]

/-- The constraint that excludes equations is false exactly where all of them hold. -/
theorem truth?_text (hne : es ≠ []) (hes : ∀ e ∈ es, IsIdentifier e.1 ∧ IsNumeral e.2) :
    ∃ v, truth? σ (text es) = some v ∧ (v = 0 ↔ ∀ e ∈ es, σ e.1 = numeral e.2) := by
  obtain ⟨e, es, rfl⟩ := List.exists_cons_of_ne_nil hne
  obtain ⟨⟨hname, hnumeral⟩, hmore⟩ := List.forall_mem_cons.1 hes
  obtain ⟨u, hreads, hu⟩ := reads_further hmore ((reads_equationSymbols hnumeral).mono (by decide))
  have hsymbols : valued σ [] (text (e :: es)).toList = .char '!' :: (.char '(' ::
      (equationSymbols σ e ++ es.flatMap (furtherSymbols σ)) ++ [.char ')']) := by
    rw [toList_text_cons, valued_other (by decide), valued_other (by decide), valued_equation hname hnumeral,
      valued_further hmore, valued_other (by decide)]
    simp [wordSymbols, valued]
  refine ⟨bit (u = 0), ?_, ?_⟩
  · rw [truth?, hsymbols]
    exact (Reading.reads_bang hreads (by decide)).value?_eq (by decide)
  · rw [Reading.bit_eq_zero, ← ne_eq, hu, List.forall_mem_cons]
    simp

/-! ### Sorting -/

/-- Tables with the same values are sorted the same way, in whatever order they were made. -/
theorem sorted_eq_of_get?_eq {values values' : Table HoleValue} (h : ∀ k, values'.get? k = values.get? k) :
    Report.sorted values' = Report.sorted values := by
  have hpairwise (t : Table HoleValue) : (Report.sorted t).Pairwise fun a b => decide (a.1 ≤ b.1) = true := by
    refine List.pairwise_mergeSort (fun a b c hab hbc => ?_) (fun a b => ?_) _
    · exact decide_eq_true (String.le_trans (of_decide_eq_true hab) (of_decide_eq_true hbc))
    · simpa using String.le_total a.1 b.1
  have hperm : (Report.sorted values').Perm (Report.sorted values) := by
    refine ((List.mergeSort_perm _ _).trans ?_).trans (List.mergeSort_perm _ _).symm
    refine (List.perm_ext_iff_of_nodup values'.nodup.of_map values.nodup.of_map).2 fun x => ?_
    exact (values'.get?_eq_some_iff x.1 x.2).symm.trans (by rw [h]; exact values.get?_eq_some_iff x.1 x.2)
  refine hperm.eq_of_pairwise (fun a b ha hb hab hba => ?_) (hpairwise values') (hpairwise values)
  -- Only one value stands under a name.
  have hname : a.1 = b.1 := String.le_antisymm (of_decide_eq_true hab) (of_decide_eq_true hba)
  have ha' := (values.get?_eq_some_iff a.1 a.2).2 (List.mem_mergeSort.1 (hperm.mem_iff.1 ha))
  have hb' := (values.get?_eq_some_iff b.1 b.2).2 (List.mem_mergeSort.1 hb)
  rw [hname, hb'] at ha'
  exact Prod.ext hname (Option.some.inj ha').symm

/-! ### Constraints -/

theorem exists_equations {values : Table HoleValue}
    (h : ∀ hole value, values.get? hole = some value → ∃ digits, value = .text digits) :
    ∃ es, equations values = .ok es := by
  have hall (xs : List (String × HoleValue)) (hxs : ∀ x ∈ xs, ∃ digits, x.2 = .text digits) :
      ∃ es, (xs.mapM fun x => do return (x.1, ← x.2.asText)) = Except.ok es := by
    induction xs with
    | nil => exact ⟨[], rfl⟩
    | cons x xs ih =>
      obtain ⟨⟨digits, hdigits⟩, hxs⟩ := List.forall_mem_cons.1 hxs
      obtain ⟨es, hes⟩ := ih hxs
      exact ⟨(x.1, digits) :: es, by rw [List.mapM_cons, hes, hdigits]; rfl⟩
  refine hall _ fun x hx => h x.1 x.2 ?_
  rw [Table.get?_eq_some_iff]
  exact List.mem_mergeSort.1 hx

/-- An assignment of numerals to holes is excluded by one constraint. It can be read for all values of the holes, and is
false exactly for those that agree with the assignment. The order of the assignment does not matter. -/
theorem constraint_excludes_one_assignment {values : Table HoleValue} (hne : values.keys ≠ [])
    (h : ∀ hole value, values.get? hole = some value →
      IsIdentifier hole ∧ ∃ digits, value = .text digits ∧ IsNumeral digits) :
    ∃ constraint, constraints values = .ok [constraint] ∧
      (∀ σ, ∃ v, truth? σ constraint = some v ∧
        (v = 0 ↔ ∀ hole digits, values.get? hole = some (.text digits) → σ hole = numeral digits)) ∧
      ∀ values', (∀ k, values'.get? k = values.get? k) → constraints values' = .ok [constraint] := by
  obtain ⟨es, hes⟩ := exists_equations fun hole value hvalue => (h hole value hvalue).2.imp fun _ hd => hd.1
  have hmem := mem_of_equations hes
  have hfirst : es ≠ [] := by
    obtain ⟨k, hk⟩ := List.exists_mem_of_ne_nil _ hne
    obtain ⟨value, hvalue⟩ := Option.ne_none_iff_exists'.1 fun hnone => (values.get?_eq_none_iff k).1 hnone hk
    obtain ⟨-, digits, rfl, -⟩ := h k value hvalue
    exact List.ne_nil_of_mem ((hmem (k, digits)).2 hvalue)
  have hall : ∀ e ∈ es, IsIdentifier e.1 ∧ IsNumeral e.2 := by
    intro e he
    obtain ⟨hname, digits, hdigits, hnumeral⟩ := h e.1 _ ((hmem e).1 he)
    cases hdigits
    exact ⟨hname, hnumeral⟩
  have hconstraints : constraints values = .ok [text es] := by
    rw [constraints, hes]
    show Except.ok (if es.isEmpty then [] else [text es]) = _
    rw [if_neg (by simpa using hfirst)]
  refine ⟨text es, hconstraints, fun σ => ?_, fun values' hsame => ?_⟩
  · obtain ⟨v, hv, hzero⟩ := truth?_text (σ := σ) hfirst hall
    refine ⟨v, hv, hzero.trans ⟨fun hes hole digits hvalue => ?_, fun hholes e he => hholes _ _ ((hmem e).1 he)⟩⟩
    exact hes (hole, digits) ((hmem _).2 hvalue)
  · rw [← hconstraints, constraints, equations, sorted_eq_of_get?_eq hsame]
    rfl

namespace HoleCalledOr

def values : Table HoleValue :=
  .ofList [("or", .text "3"), ("a", .text "07")]

/-- A hole may have the name of an operator. -/
theorem constraint_excludes_three_and_seven : ∃ constraint, constraints values = .ok [constraint] ∧
    (∀ σ, ∃ v, truth? σ constraint = some v ∧
      (v = 0 ↔ ∀ hole digits, values.get? hole = some (.text digits) → σ hole = numeral digits)) ∧
    ∀ values', (∀ k, values'.get? k = values.get? k) → constraints values' = .ok [constraint] := by
  refine constraint_excludes_one_assignment (by decide) fun hole value h => ?_
  rw [Table.get?_eq_some_iff, values, Table.toList_ofList (by decide)] at h
  rcases List.mem_pair.1 h with hfirst | hsecond
  · cases hfirst
    exact ⟨⟨⟨by decide, Reading.kind_eq_of_all rfl⟩, rfl⟩, "3", rfl, ⟨by decide, rfl⟩⟩
  · cases hsecond
    exact ⟨⟨⟨by decide, Reading.kind_eq_of_all rfl⟩, rfl⟩, "07", rfl, ⟨by decide, rfl⟩⟩

end HoleCalledOr

end SwitchSynth.Elimination
