import SwitchSynth.Proofs.Reading
import SwitchSynth.Proofs.Text

/-!
# Reading predicates

A predicate compares two expressions. It is read at its first comparison sign: what stands before the sign and what
stands behind it are read as expressions, with values for the names in them.
-/

namespace SwitchSynth.Reading

def isComparison (c : Char) : Bool :=
  c == '<' || c == '='

/-- Whether a predicate holds, if it is one: two expressions with `<=` or `==` between them. -/
def truth? (σ : String → Int) (text : String) : Option Bool :=
  let left := text.toList.takeWhile fun c => !isComparison c
  match text.toList.dropWhile fun c => !isComparison c with
  | '<' :: '=' :: right => do return decide ((← value? σ (left.map .char)) ≤ (← value? σ (right.map .char)))
  | '=' :: '=' :: right => do return decide ((← value? σ (left.map .char)) = (← value? σ (right.map .char)))
  | _ => none

variable {σ : String → Int} {level : Nat} {symbols : List Symbol} {v : Int}

section Comparisons

variable {left right : String} {a b : Int} (hleft : ∀ c ∈ left.toList, isComparison c = false)
  (ha : value? σ (chars left) = some a) (hb : value? σ (chars right) = some b)

include hleft

theorem span_comparison {c : Char} (rest : List Char) (hc : isComparison c = true) :
    (left.toList ++ c :: rest).takeWhile (fun c => !isComparison c) = left.toList ∧
      (left.toList ++ c :: rest).dropWhile (fun c => !isComparison c) = c :: rest := by
  have hpass : ∀ c ∈ left.toList, (!isComparison c) = true := fun c hc => by rw [hleft c hc]; rfl
  constructor
  · rw [List.takeWhile_append_of_pos hpass, List.takeWhile_cons, hc]
    simp
  · rw [List.dropWhile_append_of_pos hpass, List.dropWhile_cons, hc]
    simp

include ha hb

theorem truth?_atMost : truth? σ (left ++ "<=" ++ right) = some (decide (a ≤ b)) := by
  have htext : (left ++ "<=" ++ right).toList = left.toList ++ '<' :: '=' :: right.toList := by simp
  obtain ⟨htake, hdrop⟩ := span_comparison hleft (c := '<') ('=' :: right.toList) rfl
  rw [truth?, htext, htake, hdrop]
  show (do return decide ((← value? σ (chars left)) ≤ (← value? σ (chars right)))) = _
  rw [ha, hb]
  rfl

theorem truth?_equal : truth? σ (left ++ "==" ++ right) = some (decide (a = b)) := by
  have htext : (left ++ "==" ++ right).toList = left.toList ++ '=' :: '=' :: right.toList := by simp
  obtain ⟨htake, hdrop⟩ := span_comparison hleft (c := '=') ('=' :: right.toList) rfl
  rw [truth?, htext, htake, hdrop]
  show (do return decide ((← value? σ (chars left)) = (← value? σ (chars right)))) = _
  rw [ha, hb]
  rfl

end Comparisons

/-! ### Blanks around expressions -/

theorem Reads.padLeft (h : Reads σ level symbols v) : Reads σ level (chars " " ++ symbols) v := by
  intro pending hpending
  obtain ⟨r, waiting, w, hfeed, hrest⟩ := h pending hpending
  refine ⟨r, waiting, w, ?_, hrest⟩
  rw [show chars " " ++ symbols = .char ' ' :: symbols from rfl, feedAll_cons, feed_blank, flush_nil, Option.map_some, Option.bind_some]
  exact hfeed

theorem Reads.padRight (h : Reads σ level symbols v) : Reads σ level (symbols ++ chars " ") v := by
  intro pending hpending
  obtain ⟨r, waiting, w, hfeed, hflush, hrest⟩ := h pending hpending
  refine ⟨⟨[], ⟨waiting ++ pending, some w⟩⟩, waiting, w, ?_, rfl, hrest⟩
  rw [feedAll_append, hfeed, Option.bind_some, show chars " " = [.char ' '] from rfl, feedAll_cons, feed_blank, hflush]
  rfl

/-! ### Numerals and names -/

theorem isNumeral_toString (n : Nat) : IsNumeral (toString n) where
  ne_nil := by
    rw [Nat.toString_eq_repr, Nat.toList_repr]
    exact Nat.toDigits_ne_nil
  digits := List.all_eq_true.2 fun _ hc => Text.isDigit_of_mem_toString hc

@[simp]
theorem numeral_toString (n : Nat) : numeral (toString n) = n := by
  rw [numeral, Nat.toString_eq_repr, Nat.toList_repr, Nat.ofDigitChars_ten_toDigits]

theorem reads_negative {s : String} (h : IsNumeral s) : Reads σ 6 (chars ("-" ++ s)) (-numeral s) := by
  intro pending _
  have hsign : chars "-" = ['-'].map .char := rfl
  have hflush : flush σ ⟨['-'], ⟨pending, none⟩⟩ = some ⟨.minus :: pending, none⟩ := rfl
  rw [chars_append, hsign, feedAll_append, feedAll_word (.inr rfl) (List.cons_ne_nil '-' []) (kind_eq_of_all rfl),
    Option.bind_some, feedAll_apart (k := .sign) rfl h.isWord.apart, hflush, Option.bind_some]
  exact Reads.behind (t := .minus) (reads_numeral h)

theorem reads_toString (n : Int) : Reads σ 6 (chars (toString n)) n := by
  cases n with
  | ofNat n =>
    have hreads : Reads σ 6 _ _ := (reads_numeral (isNumeral_toString n)).mono (by decide)
    rwa [numeral_toString] at hreads
  | negSucc n =>
    have hreads := reads_negative (σ := σ) (isNumeral_toString (n + 1))
    rwa [numeral_toString] at hreads

def Wordy (s : String) : Prop :=
  ∀ c ∈ s.toList, kind c = .word

theorem Wordy.append {a b : String} (ha : Wordy a) (hb : Wordy b) : Wordy (a ++ b) := by
  rw [Wordy, String.toList_append]
  exact List.forall_mem_append.2 ⟨ha, hb⟩

theorem wordy_toString (n : Nat) : Wordy (toString n) :=
  fun _ hc => kind_of_digit (Text.isDigit_of_mem_toString hc)

theorem Wordy.number {a : String} (ha : Wordy a) (n : Nat) : Wordy (a ++ "_" ++ toString n) :=
  (ha.append (kind_eq_of_all rfl)).append (wordy_toString n)

/-- A word with an underscore is a name: neither a numeral nor a keyword has one. -/
theorem isName_of_mem {s : String} (hword : Wordy s) (hmem : '_' ∈ s.toList) : IsName s := by
  refine ⟨⟨List.ne_nil_of_mem hmem, hword⟩, ?_, ?_⟩
  · rw [List.all_eq_false]
    exact ⟨'_', hmem, by decide⟩
  · unfold keyword
    split
    · exact absurd hmem (by decide)
    · exact absurd hmem (by decide)
    · exact absurd hmem (by decide)
    · exact absurd hmem (by decide)
    · exact absurd hmem (by decide)
    · rfl

theorem isComparison_of_word {c : Char} (h : kind c = .word) : isComparison c = false := by
  have hne (d : Char) (hd : kind d ≠ .word) : c ≠ d := fun heq => hd (heq ▸ h)
  simp [isComparison, hne '<' (by decide), hne '=' (by decide)]

end SwitchSynth.Reading
