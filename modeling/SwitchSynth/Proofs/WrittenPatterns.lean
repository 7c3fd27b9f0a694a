import SwitchSynth.Proofs.Matching
import SwitchSynth.Text.Pattern.Reader

/-!
# Reading written patterns

Most characters of a written pattern stand for themselves, so that a text of such characters is read as the pattern for
that text. Here it is followed by an escape for a run of characters, or by a group that keeps such a run.
-/

namespace SwitchSynth.Text.Pattern

/-- Reading ends with a result, in a state. -/
def Reads {α : Type} (m : Read α) (r : Reading) (a : α) (r' : Reading) : Prop :=
  m.run r = some (a, r')

def roundMarks : List Char := ['*', '+', '?', '\x7b']

def marks : List Char := ['|', ')', '(', '[', '\\', '.', '^', '$'] ++ roundMarks

theorem forall_not_mem_marks {cs : List Char} (h : cs.all (fun c => !marks.contains c) = true) :
    ∀ c ∈ cs, c ∉ marks := by
  intro c hc hmem
  have hnot := List.all_eq_true.1 h c hc
  rw [List.contains_iff_mem.2 hmem] at hnot
  exact nomatch hnot

namespace Reads

variable {α β : Type} {m : Read α} {f : α → Read β} {r r' r'' : Reading} {a : α} {b : β} {c : Char}
  {rest : List Char} {fuel : Nat} {p q : Pattern}
  {g : Nat} {o : List Nat} {ns : List (String × Nat)}

theorem pure : Reads (Pure.pure a : Read α) r a r := rfl

theorem bind (hm : Reads m r a r') (hf : Reads (f a) r' b r'') : Reads (m >>= f) r b r'' := by
  unfold Reads at *
  rw [StateT.run_bind, hm]
  exact hf

theorem peek : Reads Read.peek r r.rest.head? r := rfl

theorem next : Reads Read.next ⟨c :: rest, g, o, ns⟩ c ⟨rest, g, o, ns⟩ := rfl

theorem accept_not {s : String} (h : s.toList.isPrefixOf r.rest = false) : Reads (Read.accept s) r false r := by
  refine .bind (a := r) rfl ?_
  simp only [h, Bool.false_eq_true, if_false]
  exact .pure

theorem roundBounds_none (h : ∀ c ∈ r.rest.head?, c ∉ roundMarks) : Reads roundBounds r none r := by
  refine .bind .peek ?_
  generalize r.rest.head? = next at h
  split
  · exact absurd (by decide) (h '*' rfl)
  · exact absurd (by decide) (h '+' rfl)
  · exact absurd (by decide) (h '?' rfl)
  · exact absurd (by decide) (h '\x7b' rfl)
  · exact .pure

theorem withRounds_none (h : ∀ c ∈ r.rest.head?, c ∉ roundMarks) : Reads (withRounds p) r p r :=
  .bind (roundBounds_none h) .pure

theorem not_prefix_of_roundMark {x : Char} (hx : x ∈ roundMarks) (h : ∀ c ∈ r.rest.head?, c ∉ roundMarks) :
    (String.singleton x).toList.isPrefixOf r.rest = false := by
  rw [String.toList_singleton]
  cases hrest : r.rest with
  | nil => rfl
  | cons c rest =>
    have hne : x ≠ c := fun heq => h c (by rw [hrest]; rfl) (heq ▸ hx)
    show (x == c && List.isPrefixOf [] rest) = false
    rw [beq_eq_false_iff_ne.2 hne, Bool.false_and]

theorem withRounds_plus (hp : repeatable p = true) (h : ∀ c ∈ rest.head?, c ∉ roundMarks) :
    Reads (withRounds p) ⟨'+' :: rest, g, o, ns⟩ (rounds p 1 none .greedy) ⟨rest, g, o, ns⟩ := by
  have hplus : Reads roundBounds ⟨'+' :: rest, g, o, ns⟩ (some (1, none)) ⟨rest, g, o, ns⟩ := rfl
  refine .bind hplus ?_
  simp only [hp, Bool.not_true, Bool.false_eq_true, if_false]
  refine .bind (accept_not (not_prefix_of_roundMark (x := '?') (by decide) h)) ?_
  refine .bind (accept_not (not_prefix_of_roundMark (x := '+') (by decide) h)) ?_
  exact .bind .pure (.bind (roundBounds_none h) .pure)

theorem readItem_char (hc : c ∉ marks) (h : ∀ c ∈ rest.head?, c ∉ roundMarks) :
    Reads (readItem (fuel + 1)) ⟨c :: rest, g, o, ns⟩ (char c) ⟨rest, g, o, ns⟩ := by
  have hround : c ∉ roundMarks := fun hmem => hc (List.mem_append_right _ hmem)
  rw [readItem]
  refine .bind (roundBounds_none fun x hx => ?_) ?_
  · cases hx
    exact hround
  refine .bind .next ?_
  simp only [marks, List.mem_append, List.mem_cons, not_or] at hc
  obtain ⟨⟨-, -, h1, h2, h3, h4, h5, h6, -⟩, -⟩ := hc
  simp only [h1, h2, h3, h4, h5, h6, if_false]
  exact .bind .pure (withRounds_none h)

theorem readSeq_cons (hc : c ≠ '|' ∧ c ≠ ')') (hitem : Reads (readItem fuel) ⟨c :: rest, g, o, ns⟩ p r')
    (hseq : Reads (readSeq fuel) r' q r'') : Reads (readSeq (fuel + 1)) ⟨c :: rest, g, o, ns⟩ (seq p q) r'' := by
  rw [readSeq]
  refine .bind .peek ?_
  simp only [List.head?_cons]
  split
  · contradiction
  · simp_all
  · simp_all
  · exact .bind hitem (.bind hseq .pure)

theorem readSeq_nil : Reads (readSeq (fuel + 1)) ⟨[], g, o, ns⟩ empty ⟨[], g, o, ns⟩ := rfl

theorem readSeq_closing : Reads (readSeq (fuel + 1)) ⟨')' :: rest, g, o, ns⟩ empty ⟨')' :: rest, g, o, ns⟩ :=
  rfl

theorem readSeq_chars (cs : List Char) (hcs : ∀ c ∈ cs, c ∉ marks) (hrest : ∀ c ∈ rest.head?, c ∉ roundMarks)
    (h : Reads (readSeq (fuel + 1)) ⟨rest, g, o, ns⟩ q r') :
    Reads (readSeq (fuel + 1 + cs.length)) ⟨cs ++ rest, g, o, ns⟩ ((cs.map char).foldr seq q) r' := by
  induction cs with
  | nil => exact h
  | cons c cs ih =>
    have hc := hcs c List.mem_cons_self
    have hnot : c ≠ '|' ∧ c ≠ ')' := by
      constructor <;> (rintro rfl; exact hc (by decide))
    have htail : ∀ x ∈ (cs ++ rest).head?, x ∉ roundMarks := by
      cases cs with
      | nil => exact hrest
      | cons y cs =>
        intro x hx hmem
        cases hx
        exact hcs y (by simp) (List.mem_append_right _ hmem)
    rw [List.length_cons, ← Nat.add_assoc]
    refine readSeq_cons hnot ?_ (ih fun x hx => hcs x (List.mem_cons_of_mem c hx))
    rw [Nat.add_right_comm]
    exact readItem_char hc htail

theorem readItem_classes {item : CharItem} (hc : classEscape c = some item) (h : ∀ c ∈ rest.head?, c ∉ roundMarks) :
    Reads (readItem (fuel + 1)) ⟨'\\' :: c :: '+' :: rest, g, o, ns⟩ (run [item]) ⟨rest, g, o, ns⟩ := by
  rw [readItem]
  refine .bind (roundBounds_none fun x hx => by cases hx; decide) (.bind .next ?_)
  have hescape : Reads readEscape ⟨c :: '+' :: rest, g, o, ns⟩ (one false [item]) ⟨'+' :: rest, g, o, ns⟩ := by
    refine .bind .next ?_
    rw [hc]
    exact .pure
  simp only [Char.reduceEq, if_false, if_true]
  exact .bind hescape (withRounds_plus rfl h)

theorem readItem_group (hstart : rest.head? ≠ some '?')
    (h : Reads (readSeq fuel) ⟨rest, 1, [1], []⟩ p
      ⟨[')'], 1, [1], []⟩) :
    Reads (readItem (fuel + 4)) ⟨'(' :: rest, 0, [], []⟩ (group 1 p) ⟨[], 1, [], []⟩ := by
  have hchoice : Reads (readChoice (fuel + 1)) ⟨rest, 1, [1], []⟩ p
      ⟨[')'], 1, [1], []⟩ := by
    rw [readChoice]
    exact .bind h (.bind (accept_not rfl) .pure)
  have hnumbered : Reads (readNumbered (fuel + 2) none) ⟨rest, 0, [], []⟩ (group 1 p) ⟨[], 1, [], []⟩ := by
    rw [readNumbered]
    have hopen : Reads (openGroup none) ⟨rest, 0, [], []⟩ 1 ⟨rest, 1, [1], []⟩ := rfl
    have hclose : Reads (closing (group 1 p)) ⟨[')'], 1, [1], []⟩ (group 1 p)
        ⟨[], 1, [1], []⟩ := rfl
    exact .bind hopen (.bind hchoice (.bind hclose rfl))
  have hgroup : Reads (readGroup (fuel + 3)) ⟨rest, 0, [], []⟩ (group 1 p) ⟨[], 1, [], []⟩ := by
    rw [readGroup]
    refine .bind (accept_not ?_) hnumbered
    cases rest with
    | nil => rfl
    | cons x rest =>
      show ('?' == x && List.isPrefixOf [] rest) = false
      rw [beq_eq_false_iff_ne.2 fun heq => hstart (congrArg some heq.symm), Bool.false_and]
  rw [readItem]
  refine .bind (roundBounds_none fun x hx => by cases hx; decide) (.bind .next ?_)
  exact .bind hgroup (withRounds_none nofun)

end Reads

/-- A text whose characters stand for themselves, a word behind it, and a number that is kept. -/
theorem read?_numbered {word : String} (hword : ∀ c ∈ word.toList, c ∉ marks) :
    read? (word ++ "\\w+ = (\\d+)") =
      some (seqAll (word.toList.map char ++ run [.word] :: (" = ".toList.map char ++
        [group 1 (seqAll [run [.digit]])])), 1) := by
  have hdigits {fuel : Nat} : Reads (readSeq (fuel + 2)) ⟨['\\', 'd', '+', ')'], 1, [1], []⟩ (seqAll [run [.digit]])
      ⟨[')'], 1, [1], []⟩ :=
    .readSeq_cons (by decide) (.readItem_classes rfl fun x hx => by cases hx; decide) .readSeq_closing
  have hgroup {fuel : Nat} : Reads (readSeq (fuel + 7)) ⟨"(\\d+)".toList, 0, [], []⟩
      (seqAll [group 1 (seqAll [run [.digit]])]) ⟨[], 1, [], []⟩ :=
    .readSeq_cons (by decide) (.readItem_group nofun hdigits) .readSeq_nil
  have hequals {fuel : Nat} : Reads (readSeq (fuel + 10)) ⟨" = (\\d+)".toList, 0, [], []⟩
      (seqAll [char ' ', char '=', char ' ', group 1 (seqAll [run [.digit]])]) ⟨[], 1, [], []⟩ :=
    .readSeq_chars [' ', '=', ' '] (forall_not_mem_marks (by decide)) (fun x hx => by cases hx; decide) hgroup
  have htail (fuel : Nat) : Reads (readSeq (fuel + 11)) ⟨"\\w+ = (\\d+)".toList, 0, [], []⟩
      (seqAll [run [.word], char ' ', char '=', char ' ', group 1 (seqAll [run [.digit]])]) ⟨[], 1, [], []⟩ :=
    .readSeq_cons (by decide) (.readItem_classes rfl fun x hx => by cases hx; decide) hequals
  have hchoice : Reads (readChoice (4 * (word.length + 11) + 4)) ⟨word.toList ++ "\\w+ = (\\d+)".toList, 0, [], []⟩
      (seqAll (word.toList.map char ++ run [.word] :: (" = ".toList.map char ++ [group 1 (seqAll [run [.digit]])])))
      ⟨[], 1, [], []⟩ := by
    have hall := Reads.readSeq_chars word.toList hword (fun x hx => by cases hx; decide) (htail (3 * word.length + 36))
    rw [String.length_toList] at hall
    rw [show 4 * (word.length + 11) + 4 = 3 * word.length + 36 + 10 + 1 + word.length + 1 by omega, readChoice, seqAll,
      List.foldr_append]
    exact .bind hall (.bind (.accept_not rfl) .pure)
  have hlength : (word ++ "\\w+ = (\\d+)").length = word.length + 11 := by
    rw [String.length_append]
    rfl
  unfold read?
  rw [hlength, String.toList_append, show StateT.run _ _ = _ from hchoice]
  rfl

end SwitchSynth.Text.Pattern
