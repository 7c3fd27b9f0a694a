import SwitchSynth.Proofs.P4.Writers

/-!
# Copies of the state in switch programs

Where a switch program reads the state before an update, the register itself is put in, text by text and from left to
right. No `original_hi` is left over. An `original_lo` is: two of them may share a letter, as in
`original_loriginal_lo`, and then only the first is found.
-/

namespace SwitchSynth

namespace Text

/-! ### Replacing piece by piece -/

section Replacing

variable {old new : List Char}

theorem replaceFrom_skip (n : Nat) (cs : List Char) : replaceFrom old new n cs = replaceFrom old new 0 (cs.drop n) := by
  induction n generalizing cs with
  | zero => rfl
  | succ n ih =>
    cases cs with
    | nil => rfl
    | cons c cs => exact ih cs

theorem splitFrom_skip (n : Nat) (cs : List Char) : splitFrom old n [] cs = splitFrom old 0 [] (cs.drop n) := by
  induction n generalizing cs with
  | zero => rfl
  | succ n ih =>
    cases cs with
    | nil => rfl
    | cons c cs => exact ih cs

theorem splitFrom_current (current cs : List Char) : splitFrom old 0 current cs =
    (splitFrom old 0 [] cs).modifyHead (current.reverse ++ ·) := by
  induction cs generalizing current with
  | nil => simp [splitFrom]
  | cons c cs ih =>
    rw [splitFrom, splitFrom]
    split
    · simp
    · rw [ih (c :: current), ih [c], List.modifyHead_modifyHead]
      congr 1
      funext x
      simp

theorem replaceFrom_found (hold : old ≠ []) (rest : List Char) :
    replaceFrom old new 0 (old ++ rest) = new ++ replaceFrom old new 0 rest := by
  obtain ⟨c, cs, rfl⟩ := List.exists_cons_of_ne_nil hold
  have hfound : (c :: cs).isPrefixOf (c :: (cs ++ rest)) = true :=
    List.isPrefixOf_iff_prefix.2 (List.prefix_append (c :: cs) rest)
  rw [List.cons_append, replaceFrom, if_pos hfound, replaceFrom_skip]
  simp

theorem splitFrom_found (hold : old ≠ []) (rest : List Char) :
    splitFrom old 0 [] (old ++ rest) = [] :: splitFrom old 0 [] rest := by
  obtain ⟨c, cs, rfl⟩ := List.exists_cons_of_ne_nil hold
  have hfound : (c :: cs).isPrefixOf (c :: (cs ++ rest)) = true :=
    List.isPrefixOf_iff_prefix.2 (List.prefix_append (c :: cs) rest)
  rw [List.cons_append, splitFrom, if_pos hfound, splitFrom_skip]
  simp

theorem replaceFrom_other {c : Char} {rest : List Char} (h : ¬ old <+: c :: rest) :
    replaceFrom old new 0 (c :: rest) = c :: replaceFrom old new 0 rest := by
  rw [replaceFrom, if_neg fun hfound => h (List.isPrefixOf_iff_prefix.1 hfound)]

theorem splitFrom_other {c : Char} {rest : List Char} (h : ¬ old <+: c :: rest) :
    splitFrom old 0 [] (c :: rest) = (splitFrom old 0 [] rest).modifyHead (c :: ·) := by
  rw [splitFrom, if_neg fun hfound => h (List.isPrefixOf_iff_prefix.1 hfound), splitFrom_current]
  rfl

theorem scan_induction {P : List Char → Prop} (hold : old ≠ []) (nil : P []) (found : ∀ rest, P rest → P (old ++ rest))
    (other : ∀ c rest, ¬ old <+: c :: rest → P rest → P (c :: rest)) (cs : List Char) : P cs := by
  induction hlength : cs.length using Nat.strong_induction_on generalizing cs with
  | _ n ih =>
    by_cases hfound : old <+: cs
    · obtain ⟨rest, rfl⟩ := hfound
      refine found rest (ih rest.length ?_ rest rfl)
      have hpos := List.length_pos_of_ne_nil hold
      rw [← hlength, List.length_append]
      omega
    · cases cs with
      | nil => exact nil
      | cons c rest => exact other c rest hfound (ih rest.length (by rw [← hlength]; simp) rest rfl)

theorem replaceFrom_eq_intercalate (hold : old ≠ []) (cs : List Char) :
    replaceFrom old new 0 cs = new.intercalate (splitFrom old 0 [] cs) := by
  induction cs using scan_induction hold with
  | nil => simp [replaceFrom, splitFrom]
  | found rest ih =>
    rw [replaceFrom_found hold, splitFrom_found hold, ih]
    obtain ⟨x, xs, hx⟩ := List.exists_cons_of_ne_nil (splitFrom_ne_nil old 0 [] rest)
    rw [hx]
    simp
  | other c rest h ih =>
    rw [replaceFrom_other h, splitFrom_other h, ih]
    obtain ⟨x, xs, hx⟩ := List.exists_cons_of_ne_nil (splitFrom_ne_nil old 0 [] rest)
    rw [hx]
    cases xs <;> simp

/-- No ending of a word goes on as another word begins. -/
def apart (new : List Char) : List Char → Bool
  | [] => true
  | c :: cs => !(c :: cs).isPrefixOf new && !new.isPrefixOf (c :: cs) && apart new cs

theorem not_prefix_append {word rest : List Char} (hne : word ≠ []) (h : apart new word = true) :
    ¬ word <+: new ++ rest := by
  obtain ⟨c, cs, rfl⟩ := List.exists_cons_of_ne_nil hne
  simp only [apart, Bool.and_eq_true, Bool.not_eq_true', ← Bool.not_eq_true, List.isPrefixOf_iff_prefix] at h
  exact fun hword => (List.prefix_or_prefix_of_prefix hword (List.prefix_append new rest)).elim h.1.1 h.1.2

/-- A word that does not meet what is put in begins a text as it begins the first piece of it. -/
theorem prefix_replaceFrom_iff (hold : old ≠ []) {word : List Char} (h : apart new word = true) (cs : List Char) :
    word <+: replaceFrom old new 0 cs ↔ ∃ x ∈ (splitFrom old 0 [] cs).head?, word <+: x := by
  induction cs using scan_induction hold generalizing word with
  | nil => simp [replaceFrom, splitFrom]
  | found rest ih =>
    rw [replaceFrom_found hold, splitFrom_found hold]
    cases word with
    | nil => simp
    | cons c cs => simpa using not_prefix_append (List.cons_ne_nil c cs) h
  | other c rest hc ih =>
    rw [replaceFrom_other hc, splitFrom_other hc]
    obtain ⟨x, xs, hx⟩ := List.exists_cons_of_ne_nil (splitFrom_ne_nil old 0 [] rest)
    cases word with
    | nil => simp [hx]
    | cons d word =>
      have hword : apart new word = true := (Bool.and_eq_true _ _ ▸ h).2
      have hrest := ih hword
      rw [hx] at hrest ⊢
      simpa [List.cons_prefix_cons] using fun _ => hrest

theorem prefix_of_prefix_replaceFrom (hold : old ≠ []) {word cs : List Char} (h : apart new word = true)
    (hword : word <+: replaceFrom old new 0 cs) : word <+: cs := by
  induction cs using scan_induction hold generalizing word with
  | nil => simpa [replaceFrom] using hword
  | found rest ih =>
    rw [replaceFrom_found hold] at hword
    cases word with
    | nil => exact List.nil_prefix
    | cons c cs => exact absurd hword (not_prefix_append (List.cons_ne_nil c cs) h)
  | other c rest hc ih =>
    rw [replaceFrom_other hc] at hword
    cases word with
    | nil => exact List.nil_prefix
    | cons d word =>
      obtain ⟨rfl, hrest⟩ := List.cons_prefix_cons.1 hword
      exact List.cons_prefix_cons.2 ⟨rfl, ih (Bool.and_eq_true _ _ ▸ h).2 hrest⟩

end Replacing

end Text

namespace P4

open CommandLine (bind_eq_ok)
open Text (replaceFrom splitFrom scan_induction replaceFrom_found replaceFrom_other splitFrom_found splitFrom_other)

/-- The copies of the two halves of the state, and the halves of the register. -/
def lowCopy : List Char := ['o', 'r', 'i', 'g', 'i', 'n', 'a', 'l', '_', 'l', 'o']

def highCopy : List Char := ['o', 'r', 'i', 'g', 'i', 'n', 'a', 'l', '_', 'h', 'i']

def lowRegister : List Char := ['r', 'e', 'g', 'i', 's', 't', 'e', 'r', '_', 'l', 'o']

def highRegister : List Char := ['r', 'e', 'g', 'i', 's', 't', 'e', 'r', '_', 'h', 'i']

theorem no_highCopy (cs : List Char) : ¬ highCopy <:+: replaceFrom highCopy highRegister 0 cs := by
  rw [List.infix_iff_prefix_suffix]
  have hold : highCopy ≠ [] := by decide
  induction cs using scan_induction hold with
  | nil => simp [replaceFrom, highCopy]
  | found rest ih =>
    rw [replaceFrom_found hold]
    simpa [highRegister, highCopy, List.suffix_cons_iff, and_or_left, exists_or] using ih
  | other c rest hc ih =>
    rintro ⟨s, hs, hsuffix⟩
    rw [replaceFrom_other hc, List.suffix_cons_iff] at hsuffix
    rcases hsuffix with rfl | hsuffix
    · rw [← @replaceFrom_other _ highRegister _ _ hc] at hs
      exact hc (Text.prefix_of_prefix_replaceFrom (by decide) (by decide) hs)
    · exact ih ⟨s, hs, hsuffix⟩

/-- A copy of the low half stays if the high half does not begin with its last letter. -/
theorem lowCopy_of_high_replaced (cs : List Char) : lowCopy <:+: replaceFrom highCopy highRegister 0 cs ↔
    ∃ s, s <:+ cs ∧ lowCopy <+: s ∧ ¬ lowCopy ++ highCopy.tail <+: s := by
  rw [List.infix_iff_prefix_suffix]
  have hold : highCopy ≠ [] := by decide
  induction cs using scan_induction hold with
  | nil => simp [replaceFrom, lowCopy]
  | found rest ih =>
    rw [replaceFrom_found hold]
    simp only [highRegister, highCopy, lowCopy, List.cons_append, List.nil_append, List.suffix_cons_iff, and_or_left,
      exists_or, or_and_right, exists_eq_right, exists_eq_left, List.cons_prefix_cons] at ih ⊢
    simpa using ih
  | other c rest hc ih =>
    rw [replaceFrom_other hc]
    simp only [List.suffix_cons_iff, and_or_left, exists_or, or_and_right, exists_eq_right, exists_eq_left, ih]
    refine or_congr_left ?_
    rw [← @replaceFrom_other _ highRegister _ _ hc]
    by_cases hlow : lowCopy <+: c :: rest
    · obtain ⟨rest', hrest⟩ := hlow
      rw [← hrest]
      by_cases hhigh : highCopy.tail <+: rest'
      · obtain ⟨rest', rfl⟩ := hhigh
        simp [replaceFrom, lowCopy, highCopy, highRegister]
      · simp only [highCopy, List.tail_cons] at hhigh
        simp [replaceFrom, lowCopy, highCopy, highRegister, hhigh]
    · exact iff_of_false (fun h => hlow (Text.prefix_of_prefix_replaceFrom hold (by decide) h)) fun h => hlow h.1

/-- A copy of the low half stays where one is found whose last letter begins another one. -/
theorem lowCopy_of_low_replaced (cs : List Char) :
    (∃ s, s <:+ replaceFrom lowCopy lowRegister 0 cs ∧ lowCopy <+: s ∧ ¬ lowCopy ++ highCopy.tail <+: s) ↔
      ∃ x ∈ (splitFrom lowCopy 0 [] cs).tail, lowCopy.tail <+: x ∧ ¬ lowCopy.tail ++ highCopy.tail <+: x := by
  induction cs using scan_induction (show lowCopy ≠ [] by decide) with
  | nil => simp [replaceFrom, splitFrom, lowCopy]
  | found rest ih =>
    rw [replaceFrom_found (by decide), splitFrom_found (by decide), List.tail_cons]
    obtain ⟨x, xs, hx⟩ := List.exists_cons_of_ne_nil (Text.splitFrom_ne_nil lowCopy 0 [] rest)
    have hlow := @Text.prefix_replaceFrom_iff lowCopy lowRegister (by decide) lowCopy.tail (by decide) rest
    have hboth := @Text.prefix_replaceFrom_iff lowCopy lowRegister (by decide) (lowCopy.tail ++ highCopy.tail) (by decide)
      rest
    rw [hx] at ih hlow hboth ⊢
    simp only [List.head?_cons, Option.mem_def, Option.some.injEq, exists_eq_left', List.tail_cons] at ih hlow hboth
    rw [List.exists_mem_cons_iff, ← ih, ← hlow, ← hboth]
    simp [lowRegister, lowCopy, highCopy, List.suffix_cons_iff, or_and_right, exists_or]
  | other c rest hc ih =>
    rw [splitFrom_other hc, List.tail_modifyHead, ← ih]
    constructor
    · rintro ⟨s, hsuffix, hlow, hhigh⟩
      rw [replaceFrom_other hc, List.suffix_cons_iff] at hsuffix
      rcases hsuffix with rfl | hsuffix
      · rw [← @replaceFrom_other _ lowRegister _ _ hc] at hlow
        exact absurd (Text.prefix_of_prefix_replaceFrom (by decide) (by decide) hlow) hc
      · exact ⟨s, hsuffix, hlow, hhigh⟩
    · rintro ⟨s, hsuffix, h⟩
      rw [replaceFrom_other hc]
      exact ⟨s, hsuffix.trans (List.suffix_cons c _), h⟩

theorem copies_toList : "original_lo".toList = lowCopy ∧ "original_hi".toList = highCopy ∧
    "register_lo".toList = lowRegister ∧ "register_hi".toList = highRegister ∧ "riginal_lo".toList = lowCopy.tail ∧
    "riginal_loriginal_hi".toList = lowCopy.tail ++ highCopy.tail := by
  decide

theorem replaceAll_eq_intercalate {old : String} (hold : old ≠ "") (new s : String) :
    Text.replaceAll old new s = new.intercalate (Text.split old s) := by
  apply String.toList_inj.1
  have hne : old.toList ≠ [] := fun h => hold (String.toList_inj.1 h)
  rw [Text.replaceAll, String.toList_ofList, Text.replaceFrom_eq_intercalate hne, String.toList_intercalate, Text.split,
    List.map_map]
  simp

theorem exists_piece_iff (text : String) : (∃ piece ∈ (Text.split "original_lo" text).tail,
    Text.startsWith "riginal_lo" piece = true ∧ Text.startsWith "riginal_loriginal_hi" piece = false) ↔
      ∃ x ∈ (splitFrom lowCopy 0 [] text.toList).tail, lowCopy.tail <+: x ∧ ¬ lowCopy.tail ++ highCopy.tail <+: x := by
  obtain ⟨hlow, -, -, -, htail, hboth⟩ := copies_toList
  simp only [Text.split, ← List.map_tail, List.mem_map, exists_exists_and_eq_and, Text.startsWith, String.toList_ofList,
    hlow, htail, hboth, ← Bool.not_eq_true, List.isPrefixOf_iff_prefix]

end P4

end SwitchSynth
