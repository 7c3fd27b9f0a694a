import Mathlib.Data.List.Chain
import SwitchSynth.Proofs.Sketch.Bookkeeping
import SwitchSynth.Proofs.Sketch.StatelessCalls
import SwitchSynth.Proofs.WrittenPatterns

/-!
# Reading the values of holes back

The value of a hole is looked for by its name, wherever the name stands in the text of a solver. It must not be found
in the line of another hole. A name is made of words with underscores between them. One of the words tells the kind of
the hole, and no word behind it does, so that a name which is an end of another has the same words. Two underscores in a
row stand only behind a name, which tells where it ends.
-/

namespace SwitchSynth

namespace Text

/-! ### Words at the end of a text -/

theorem suffix_of_path_suffix {ws vs : List String} (hws : ∀ w ∈ ws, Plain w) (hvs : ∀ v ∈ vs, Plain v)
    (h : (path ws).toList <:+ (path vs).toList) : ws <:+ vs := by
  induction vs with
  | nil =>
    have hnil : path ws = path [] := String.toList_inj.1 (List.suffix_nil.1 h)
    exact path_inj hws hvs hnil ▸ List.suffix_refl _
  | cons v vs ih =>
    have hsplit : (path (v :: vs)).toList = '_' :: v.toList ++ (path vs).toList := by simp [path]
    have hvs' : ∀ x ∈ vs, Plain x := fun x hx => hvs x (List.mem_cons_of_mem v hx)
    rcases List.suffix_or_suffix_of_suffix h (hsplit ▸ List.suffix_append _ _) with hshort | ⟨front, hfront⟩
    · exact (ih hvs' hshort).trans (List.suffix_cons v vs)
    · -- What stands before the shorter path is an end of the first word with its underscore.
      obtain ⟨skipped, hskipped⟩ := h
      rw [hsplit, ← hfront, ← List.append_assoc] at hskipped
      have hword := List.append_cancel_right hskipped
      cases skipped with
      | nil =>
        have heq : path ws = path (v :: vs) := String.toList_inj.1 (by rw [← hfront, hsplit, ← hword, List.nil_append])
        exact path_inj hws hvs heq ▸ List.suffix_refl _
      | cons x skipped =>
        cases front with
        | nil =>
          have heq : path ws = path vs := String.toList_inj.1 hfront.symm
          rw [path_inj hws hvs' heq]
          exact List.suffix_cons v vs
        | cons y front =>
          have hy : y = '_' := head?_path ws y (by rw [← hfront]; rfl)
          have hmem : y ∈ v.toList := by
            rw [← (List.cons.inj hword).2]
            simp
          exact absurd (hy ▸ hmem) (hvs v List.mem_cons_self)

instance (whole part : String) : Decidable (Contains whole part) :=
  inferInstanceAs (Decidable (_ <:+: _))

/-- A text without two underscores in a row. -/
def Unpaired (cs : List Char) : Prop :=
  cs.IsChain fun a b => ¬ (a = '_' ∧ b = '_')

/-- A text without two underscores in a row that does not end with one. -/
def Calm (cs : List Char) : Prop :=
  Unpaired cs ∧ ∀ c ∈ cs.getLast?, c ≠ '_'

theorem unpaired_of_not_infix {cs : List Char} (h : ¬ ['_', '_'] <:+: cs) : Unpaired cs := by
  refine List.isChain_iff_forall_rel_of_append_cons_cons.2 fun a b before behind hcs => ?_
  rintro ⟨rfl, rfl⟩
  exact h ⟨before, behind, by simp [hcs]⟩

theorem Unpaired.not_pair {before behind : List Char} : ¬ Unpaired (before ++ '_' :: '_' :: behind) := fun h =>
  List.isChain_iff_forall_rel_of_append_cons_cons.1 h rfl ⟨rfl, rfl⟩

theorem Calm.word {cs word : List Char} (h : Calm cs) (hne : word ≠ []) (hplain : '_' ∉ word) :
    Calm (cs ++ '_' :: word) := by
  have hword : Unpaired ('_' :: word) := by
    refine List.Pairwise.isChain (List.pairwise_cons.2 ⟨fun b hb hboth => hplain (hboth.2 ▸ hb), ?_⟩)
    exact List.pairwise_iff_forall_sublist.2 fun {a b} hab hboth => hplain (hboth.1 ▸ hab.subset (by simp))
  refine ⟨List.isChain_append.2 ⟨h.1, hword, fun x hx y _ hboth => h.2 x hx hboth.1⟩, fun c hc heq => hplain ?_⟩
  rw [List.getLast?_append_of_ne_nil _ (List.cons_ne_nil _ _), List.getLast?_cons_of_ne_nil hne] at hc
  exact heq ▸ List.mem_of_getLast? hc

theorem Calm.path {s : String} {words : List String} (h : Calm s.toList) (hwords : ∀ w ∈ words, Plain w ∧ w ≠ "") :
    Calm (s ++ path words).toList := by
  induction words generalizing s with
  | nil => simpa [Text.path] using h
  | cons w words ih =>
    obtain ⟨hplain, hne⟩ := hwords w List.mem_cons_self
    have hnext : Calm (s ++ "_" ++ w).toList := by
      rw [String.toList_append, String.toList_append, List.append_assoc]
      exact h.word (fun hnil => hne (String.toList_inj.1 hnil)) hplain
    have htail := ih hnext fun v hv => hwords v (List.mem_cons_of_mem w hv)
    rw [show Text.path (w :: words) = "_" ++ w ++ Text.path words by simp [Text.path]]
    simpa only [String.append_assoc] using htail

theorem eq_of_append_underscores {name name' rest rest' : List Char} (hname : Calm name') (hrest : Unpaired rest')
    (hhead : ∀ c ∈ rest'.head?, c ≠ '_') (h : name ++ '_' :: '_' :: rest = name' ++ '_' :: '_' :: rest') :
    name = name' ∧ rest = rest' := by
  rcases List.append_eq_append_iff.1 h with ⟨more, rfl, hmore⟩ | ⟨more, rfl, hmore⟩
  · obtain - | ⟨x, - | ⟨y, more⟩⟩ := more
    · simpa using hmore
    · simp only [List.cons_append, List.nil_append, List.cons.injEq] at hmore
      exact absurd hmore.1.symm (hname.2 x (by simp))
    · simp only [List.cons_append, List.cons.injEq] at hmore
      obtain ⟨rfl, rfl, -⟩ := hmore
      exact absurd hname.1 Unpaired.not_pair
  · obtain - | ⟨x, - | ⟨y, more⟩⟩ := more
    · simpa using hmore.symm
    · simp only [List.cons_append, List.nil_append, List.cons.injEq] at hmore
      exact absurd rfl (hhead '_' (by rw [hmore.2.2]; rfl))
    · simp only [List.cons_append, List.cons.injEq] at hmore
      obtain ⟨rfl, rfl, rfl⟩ := hmore
      exact absurd hrest Unpaired.not_pair

end Text

namespace Sketch

open Text (Plain path path_append path_concat plain_toString Calm Unpaired AllWord isWord isDigit Pattern)

/-! ### Names that are no ends of each other -/

def kindWords : List String :=
  ["stateless", "stateful", "output", "config"]

/-- A word that may stand behind the one that tells the kind of a hole. -/
def Inner (w : String) : Prop :=
  Plain w ∧ w ≠ "" ∧ w ∉ kindWords

instance (w : String) : Decidable (Plain w) :=
  inferInstanceAs (Decidable (_ ∉ _))

instance (w : String) : Decidable (Inner w) :=
  inferInstanceAs (Decidable (_ ∧ _))

theorem inner_toString (n : Nat) : Inner (toString n) := by
  refine ⟨plain_toString n, toString_ne_empty n, fun hmem => ?_⟩
  have hletter : ∀ w ∈ kindWords, ∃ c ∈ w.toList, c.isDigit = false := by
    simp only [kindWords, List.forall_mem_cons]
    exact ⟨⟨'s', by decide, by decide⟩, ⟨'s', by decide, by decide⟩, ⟨'o', by decide, by decide⟩,
      ⟨'c', by decide, by decide⟩, nofun⟩
  obtain ⟨c, hc, hdigit⟩ := hletter _ hmem
  rw [Text.isDigit_of_mem_toString hc] at hdigit
  exact nomatch hdigit

def InWords (rest : String) : Prop :=
  ∃ words, "_" ++ rest = path words ∧ ∀ w ∈ words, Inner w

theorem inWords_operandRest (k : Nat) : InWords (operandRest k) := by
  refine ⟨["operand", "mux", toString k, "ctrl"], by simp [operandRest, path, ← String.toList_inj], ?_⟩
  have hwords : Inner "operand" ∧ Inner "mux" ∧ Inner "ctrl" := by decide
  simp only [List.forall_mem_cons, inner_toString, hwords, and_self, List.not_mem_nil, false_implies, implies_true]

theorem inWords_demuxRest : InWords demuxRest :=
  ⟨["demux", "ctrl"], by decide, by decide⟩

/-- The words of the name of a family's holes. -/
def Family.holeWords : Family → List String
  | relOp => ["rel", "op"]
  | arithOp => ["arith", "op"]
  | computeAlu => ["compute", "alu"]
  | boolOp => ["bool", "op"]
  | f => [f.holeStem]

theorem Family.inWords_rest (f : Family) (n : Nat) : InWords (f.rest n) := by
  refine ⟨f.holeWords ++ [toString n, "global"], ?_, ?_⟩
  · cases f <;> simp [Family.rest, Family.hole, Family.holeStem, Family.holeWords, path, ← String.toList_inj]
  · have hwords : ∀ w ∈ f.holeWords, Inner w := by cases f <;> decide
    intro w hw
    simp only [List.mem_append, List.mem_cons, List.not_mem_nil, or_false] at hw
    rcases hw with hw | rfl | rfl
    · exact hwords w hw
    · exact inner_toString n
    · decide

namespace HoleName

variable {n a b : HoleName} {sketch : String}

/-- A hole whose purpose is told in words. -/
def Tame : HoleName → Prop
  | stateless _ _ rest | stateful _ _ rest => InWords rest
  | _ => True

/-- What stands in front of the word for the kind of a hole. -/
def front (sketch : String) : HoleName → String
  | field _ _ => "phv"
  | active _ _ | served _ _ _ => sketch ++ "_salu"
  | _ => sketch

def kindWord : HoleName → String
  | stateless _ _ _ => "stateless"
  | stateful _ _ _ => "stateful"
  | output _ _ => "output"
  | active _ _ | served _ _ _ | field _ _ => "config"

theorem kindWord_mem (n : HoleName) : n.kindWord ∈ kindWords := by
  cases n <;> simp [kindWord, kindWords]

theorem exists_words (h : n.Tame) (sketch : String) :
    ∃ words, n.text sketch = n.front sketch ++ path (n.kindWord :: words) ∧ ∀ w ∈ words, Inner w := by
  have hfixed : Inner "alu" ∧ Inner "mux" ∧ Inner "phv" ∧ Inner "ctrl" := by decide
  have hnumbers (i j : Nat) : ∀ w ∈ [toString i, toString j], Inner w := by
    simp only [List.forall_mem_cons, inner_toString, List.not_mem_nil, false_implies, implies_true, and_self]
  have hsalu (words : List String) : sketch ++ path ("salu" :: words) = sketch ++ "_salu" ++ path words := by
    rw [String.append_assoc]
    simp [path]
  cases n with
  | stateless i j rest | stateful i j rest =>
    obtain ⟨words, hrest, hinner⟩ := h
    refine ⟨["alu", toString i, toString j] ++ words, ?_, fun w hw => ?_⟩
    · rw [text_of_inSketch rfl, ending, hrest, ← path_append]
      rfl
    · rcases List.mem_append.1 hw with hw | hw
      · rcases List.mem_cons.1 hw with rfl | hw
        · exact hfixed.1
        · exact hnumbers i j w hw
      · exact hinner w hw
  | output i c =>
    refine ⟨["mux", "phv", toString i, toString c, "ctrl"], ?_, ?_⟩
    · rw [text_of_inSketch rfl, ending, show "_" ++ toString c ++ "_ctrl" = path [toString c, "ctrl"] by
        simp [path], ← path_append]
      rfl
    · simp only [List.forall_mem_cons, inner_toString, hfixed, List.not_mem_nil, false_implies, implies_true, and_self]
  | active i k =>
    refine ⟨[toString i, toString k], ?_, hnumbers i k⟩
    rw [text_of_inSketch rfl, ending, String.append_empty]
    exact hsalu _
  | served k i c =>
    refine ⟨[toString k, toString i] ++ [toString c], ?_, fun w hw => ?_⟩
    · rw [text_of_inSketch rfl, ending, show "_" ++ toString c = path [toString c] by simp [path], ← path_append]
      exact hsalu _
    · rcases List.mem_append.1 hw with hw | hw
      · exact hnumbers k i w hw
      · exact List.mem_singleton.1 hw ▸ inner_toString c
  | field k c => exact ⟨[toString k, toString c], rfl, hnumbers k c⟩

/-- Words for a kind are the first ones, so that the longer of two lists of words cannot end with the shorter. -/
theorem words_eq_of_suffix {word word' : String} {ws ws' : List String} (hword : word ∈ kindWords)
    (hws' : ∀ w ∈ ws', Inner w) (h : word :: ws <:+ word' :: ws') : word :: ws = word' :: ws' := by
  rcases List.suffix_cons_iff.1 h with h | h
  · exact h
  · exact absurd hword (hws' word (h.subset List.mem_cons_self)).2.2

theorem plain_kindWord (n : HoleName) : Plain n.kindWord := by
  cases n <;> (show '_' ∉ String.toList _; simp [kindWord])

/-- What stands in front of the words is the same for names with the same word for their kind, or one is for a packet
field and the other for a state group. -/
theorem front_eq (sketch : String) (h : a.kindWord = b.kindWord) : a.front sketch = b.front sketch ∨
    a.front sketch = "phv" ∧ b.front sketch = sketch ++ "_salu" ∨
    a.front sketch = sketch ++ "_salu" ∧ b.front sketch = "phv" := by
  cases a <;> cases b <;> simp [kindWord, front] at h ⊢

theorem eq_of_suffix (ha : a.Tame) (hb : b.Tame) (h : (a.text sketch).toList <:+ (b.text sketch).toList) : a = b := by
  obtain ⟨ws, hwords, hws⟩ := exists_words ha sketch
  obtain ⟨vs, hwords', hvs⟩ := exists_words hb sketch
  have hplain (n : HoleName) {ws : List String} (hws : ∀ w ∈ ws, Inner w) : ∀ w ∈ n.kindWord :: ws, Plain w :=
    List.forall_mem_cons.2 ⟨n.plain_kindWord, fun w hw => (hws w hw).1⟩
  have hend (s t : String) : t.toList <:+ (s ++ t).toList := by
    rw [String.toList_append]
    exact List.suffix_append _ _
  -- The words of both names stand at the end of the longer name.
  have hpaths : a.kindWord :: ws = b.kindWord :: vs := by
    rcases List.suffix_or_suffix_of_suffix ((hwords ▸ hend _ _).trans h) (hwords' ▸ hend _ _) with h | h
    · exact words_eq_of_suffix a.kindWord_mem hvs (Text.suffix_of_path_suffix (hplain a hws) (hplain b hvs) h)
    · exact (words_eq_of_suffix b.kindWord_mem hws (Text.suffix_of_path_suffix (hplain b hvs) (hplain a hws) h)).symm
  have hfronts : (a.front sketch).toList <:+ (b.front sketch).toList := by
    rw [hwords, hwords', hpaths, String.toList_append, String.toList_append] at h
    obtain ⟨skipped, hskipped⟩ := h
    exact ⟨skipped, List.append_cancel_right (by rw [← List.append_assoc] at hskipped; exact hskipped)⟩
  rcases front_eq sketch (List.cons.inj hpaths).1 with hsame | ⟨hphv, hsalu⟩ | ⟨hsalu, hphv⟩
  · have htext : a.text sketch = b.text sketch := by rw [hwords, hwords', hpaths, hsame]
    exact text_inj htext
  · rw [hphv, hsalu, String.toList_append] at hfronts
    obtain ⟨skipped, hskipped⟩ := hfronts
    have hlast := congrArg List.getLast? hskipped
    simp at hlast
  · rw [hsalu, hphv, String.toList_append] at hfronts
    exact absurd (hfronts.subset (List.mem_append_right _ (by decide : 'u' ∈ "_salu".toList))) (by decide)

/-- Names have no two underscores in a row if that of the sketch has none. -/
theorem calm_text (h : n.Tame) (hsketch : Calm sketch.toList) : Calm (n.text sketch).toList := by
  obtain ⟨words, hwords, hinner⟩ := exists_words h sketch
  have hfront : Calm (n.front sketch).toList := by
    have hword : ∀ w ∈ ["salu"], Plain w ∧ w ≠ "" := by decide
    have hpath : path ["salu"] = "_salu" := by decide
    have hsalu : Calm (sketch ++ "_salu").toList := hpath ▸ hsketch.path hword
    have hphv : Calm "phv".toList := ⟨by simp [Unpaired], by simp⟩
    cases n <;> assumption
  have hkind : n.kindWord ≠ "" := by cases n <;> simp [kindWord]
  rw [hwords]
  refine hfront.path (List.forall_mem_cons.2 ⟨⟨n.plain_kindWord, hkind⟩, fun w hw => ?_⟩)
  exact ⟨(hinner w hw).1, (hinner w hw).2.1⟩

end HoleName

/-- The purposes of holes are told in words if stateless ALUs have no holes but for an operator and a constant. -/
theorem Layout.tame_of_mem {b : Layout} {n : HoleName} (hrests : ∀ rest ∈ b.statelessRests, InWords rest)
    (h : n ∈ b.holeNames) : n.Tame := by
  rcases mem_holeNames h with ⟨i, j, rest, hrest, rfl⟩ | ⟨i, l, rest, hrest, rfl⟩ | ⟨i, k, rfl⟩ | ⟨i, k, rfl⟩ |
    ⟨k, i, c, rfl⟩ | ⟨k, c, rfl⟩
  · exact hrest.elim (hrests rest) fun heq => heq ▸ inWords_demuxRest
  · rcases hrest with ⟨f, m, rfl⟩ | ⟨k, rfl⟩ | rfl
    · exact f.inWords_rest m
    · exact inWords_operandRest k
    · exact inWords_demuxRest
  all_goals trivial

/-! ### The value of one hole -/

/-- A name, a word behind two underscores, and a number that is kept. -/
def assignmentPattern (name : String) : Pattern :=
  .seqAll [.text (name ++ "__"), .run [.word], .text " = ", .group 1 (.run [.digit])]

theorem not_mem_marks {c : Char} (h : isWord c = true) : c ∉ Text.Pattern.marks := by
  have hmarks : Text.Pattern.marks.all (fun c => !isWord c) = true := by decide
  intro hmem
  have hnot := List.all_eq_true.1 hmarks c hmem
  rw [h] at hnot
  exact nomatch hnot

/-- The written pattern for the value of a hole is read as it is meant. -/
theorem read?_assignmentText {name : String} (hname : AllWord name) :
    ∃ p, Pattern.read? (assignmentText name) = some (p, 1) ∧ p.ends = (assignmentPattern name).ends := by
  have hword : AllWord (name ++ "__") := Text.allWord_append.2 ⟨hname, by decide⟩
  refine ⟨_, Text.Pattern.read?_numbered fun c hc => not_mem_marks (Text.allWord_iff.1 hword c hc), ?_⟩
  rw [Text.Pattern.ends_chars_append]
  refine Text.Pattern.ends_seqAll_congr _ (Text.Pattern.ends_seqAll_congr _ ?_)
  rw [Text.Pattern.ends_chars_append]
  refine Text.Pattern.ends_seqAll_congr _ ?_
  funext c
  rw [Text.Pattern.ends_seqAll_cons, Text.Pattern.ends_seqAll_cons, Text.Pattern.ends_group_singleton]

/-- What stands between the name of a hole and its value, behind two underscores. -/
structure IsEnding (suffix : String) : Prop where
  nonempty : suffix ≠ ""
  word : AllWord suffix
  head : ∀ c ∈ suffix.toList.head?, c ≠ '_'
  single : ¬ Text.Contains suffix "__"

/-- A number as it is written. -/
structure IsNumber (value : String) : Prop where
  nonempty : value ≠ ""
  digits : ∀ c ∈ value.toList, isDigit c = true

def solvedLine (name suffix value : String) : String :=
  "int " ++ name ++ "__" ++ suffix ++ " = " ++ value ++ ";"

section Line

open Text.Pattern (Fails Takes Finds Goes Shuns)

variable {name other suffix value : String} {word more : List Char} {x : Char} {found : List (List String)}

theorem toList_ne_nil {s : String} (h : s ≠ "") : s.toList ≠ [] :=
  fun hnil => h (String.toList_inj.1 hnil)

/-- A text of word characters that begins within a word ends within it. -/
theorem prefix_of_prefix_append {cs : List Char} (hcs : ∀ c ∈ cs, isWord c = true) (hx : isWord x = false)
    (h : cs <+: word ++ x :: more) : cs <+: word := by
  rcases List.prefix_or_prefix_of_prefix h (List.prefix_append word (x :: more)) with h' | ⟨behind, rfl⟩
  · exact h'
  · cases behind with
    | nil => simp
    | cons y behind =>
      have hbehind := (List.prefix_append_right_inj word).1 h
      have hy : y = x := (List.cons_prefix_cons.1 hbehind).1
      rw [← hy, hcs y (by simp)] at hx
      exact nomatch hx

/-- There is no value of a hole in a word that does not begin with its name and two underscores. -/
theorem assignment_fails (hname : AllWord name) (hx : isWord x = false) (h : ¬ (name ++ "__").toList <+: word) :
    Fails (assignmentPattern name) (word ++ x :: more) := by
  intro c hc hrest
  refine Text.Pattern.ends_text_cons_eq_nil hc fun hstart => h ?_
  have hword := Text.allWord_iff.1 (Text.allWord_append.2 ⟨hname, (by decide : AllWord "__")⟩)
  exact prefix_of_prefix_append hword hx (hrest ▸ hstart)

theorem finds_plain (word : List Char) (hname : AllWord name) (hword : '_' ∉ word) (hx : isWord x = false)
    (h : Finds (assignmentPattern name) 1 more found) : Finds (assignmentPattern name) 1 (word ++ x :: more) found := by
  have hfails (v : List Char) (hv : '_' ∉ v) : Fails (assignmentPattern name) (v ++ x :: more) :=
    assignment_fails hname hx fun hstart => hv (hstart.subset (by simp))
  refine .skipAll (fun u v huv _ => hfails v fun hmem => hword ?_) (.skip (hfails [] nofun) h)
  exact huv ▸ List.mem_append_right u hmem

theorem solvedLine_toList : (solvedLine other suffix value).toList ++ more =
    "int".toList ++ ' ' :: (other.toList ++ '_' :: '_' :: suffix.toList ++
      ' ' :: '=' :: ' ' :: (value.toList ++ ';' :: more)) := by
  simp [solvedLine]

theorem finds_other (hname : AllWord name) (hother : Calm other.toList) (hne : ¬ name.toList <:+ other.toList)
    (hsuffix : IsEnding suffix) (hvalue : IsNumber value) (h : Finds (assignmentPattern name) 1 more found) :
    Finds (assignmentPattern name) 1 ((solvedLine other suffix value).toList ++ more) found := by
  have hplain : '_' ∉ value.toList := fun hmem => nomatch (by decide : isDigit '_' = false).symm.trans
    (hvalue.digits _ hmem)
  rw [solvedLine_toList]
  refine finds_plain _ hname (by decide) (by decide) (.skipAll (fun u v huv _ => ?_) ?_)
  · refine assignment_fails hname (by decide) fun hstart => hne ?_
    -- The two underscores behind the name would be those behind the other one.
    obtain ⟨rest, rfl⟩ := hstart
    have hsplit : (u ++ name.toList) ++ '_' :: '_' :: rest = other.toList ++ '_' :: '_' :: suffix.toList := by
      rw [huv]
      simp
    have hunpaired := Text.unpaired_of_not_infix hsuffix.single
    exact ⟨u, (Text.eq_of_append_underscores hother hunpaired hsuffix.head hsplit).1⟩
  · refine finds_plain [] hname nofun (by decide) (finds_plain [] hname nofun (by decide) ?_)
    exact finds_plain [] hname nofun (by decide) (finds_plain _ hname hplain (by decide) h)

theorem finds_own (hname : AllWord name) (hsuffix : IsEnding suffix) (hvalue : IsNumber value)
    (h : Finds (assignmentPattern name) 1 more found) :
    Finds (assignmentPattern name) 1 ((solvedLine name suffix value).toList ++ more) ([value] :: found) := by
  have hgoes : Goes [.text (name ++ "__"), .run [.word], .text " = ", .group 1 (.run [.digit])]
      ((name ++ "__").toList ++ (suffix.toList ++ (" = ".toList ++ (value.toList ++ ';' :: more)))) [] (';' :: more)
      [(1, String.ofList value.toList)] := by
    have hshuns : Shuns [.word] (.seqAll [.text " = ", .group 1 (.run [.digit])]) :=
      Text.Pattern.shuns_text (fun x hx => by cases hx; decide) (by decide)
    refine .text (.run hshuns (fun x hx => ?_) (fun x hx => ?_)
      (toList_ne_nil hsuffix.nonempty) (.text (.lastGroup 1 (fun x hx => ?_) (fun x hx => ?_)
        (toList_ne_nil hvalue.nonempty))))
    · exact (any_word x).trans (Text.allWord_iff.1 hsuffix.word x hx)
    · cases hx
      decide
    · exact (any_digit x).trans (hvalue.digits x hx)
    · cases hx
      decide
  have htakes : Takes (assignmentPattern name) 1 (name.toList ++ '_' :: '_' :: suffix.toList ++
      ' ' :: '=' :: ' ' :: (value.toList ++ ';' :: more)) (';' :: more) [value] := by
    have htaken := hgoes.takes 1 (by simp only [List.length_append, String.reduceToList, List.length_cons]; omega)
    rw [String.ofList_toList] at htaken
    simpa [assignmentPattern, Text.Pattern.run] using htaken
  rw [solvedLine_toList]
  exact finds_plain _ hname (by decide) (by decide) (.take htakes (finds_plain [] hname (by simp) (by decide) h))

end Line

/-! ### The values of all holes -/

section Lines

open Text.Pattern (Finds)

variable {name : String} {order names : List String} {suffix value : String → String} {ending : String}

/-- The lines of some holes, one below the other. -/
def solvedText (order : List String) (suffix value : String → String) (ending : String) : String :=
  String.intercalate "\n" (order.map fun name => solvedLine name (suffix name) (value name)) ++ ending

theorem finds_line {other suffix value : String} {more : List Char} {found : List (List String)} (hname : AllWord name)
    (hother : Calm other.toList) (hself : name.toList <:+ other.toList → name = other) (hsuffix : IsEnding suffix)
    (hvalue : IsNumber value) (h : Finds (assignmentPattern name) 1 more found) :
    Finds (assignmentPattern name) 1 ((solvedLine other suffix value).toList ++ more)
      (if other == name then [value] :: found else found) := by
  split
  · next heq =>
    rw [beq_iff_eq] at heq
    exact heq ▸ finds_own (heq ▸ hname) hsuffix hvalue (heq ▸ h)
  · next hne => exact finds_other hname hother (fun hsuf => hne (beq_iff_eq.2 (hself hsuf).symm)) hsuffix hvalue h

theorem finds_solvedText (hname : AllWord name)
    (hnames : ∀ other ∈ order, Calm other.toList ∧ (name.toList <:+ other.toList → name = other))
    (hsuffix : ∀ other ∈ order, IsEnding (suffix other)) (hvalue : ∀ other ∈ order, IsNumber (value other))
    (hending : ending = "" ∨ ending = "\n") :
    Finds (assignmentPattern name) 1 (solvedText order suffix value ending).toList
      ((order.filter (· == name)).map fun n => [value n]) := by
  have hnone : Finds (assignmentPattern name) 1 [] [] :=
    .done fun c hc hrest => Text.Pattern.ends_text_cons_eq_nil hc (by rw [hrest]; simp)
  have hend : Finds (assignmentPattern name) 1 ending.toList [] := by
    rcases hending with rfl | rfl
    · exact hnone
    · exact finds_plain [] hname nofun (by decide) hnone
  have hfound (other : String) (others : List String) :
      ((other :: others).filter (· == name)).map (fun n => [value n]) =
        if other == name then [value other] :: (others.filter (· == name)).map (fun n => [value n])
        else (others.filter (· == name)).map (fun n => [value n]) := by
    rw [List.filter_cons]
    split <;> rfl
  rw [solvedText, String.toList_append]
  induction order with
  | nil => exact hend
  | cons other others ih =>
    rw [List.forall_mem_cons] at hnames hsuffix hvalue
    have hline {more : List Char} {found : List (List String)} (h : Finds (assignmentPattern name) 1 more found) :=
      finds_line hname hnames.1.1 hnames.1.2 hsuffix.1 hvalue.1 h
    rw [hfound]
    cases others with
    | nil =>
      rw [List.map_cons, List.map_nil, String.intercalate_singleton]
      exact hline hend
    | cons next others =>
      rw [List.map_cons, List.map_cons, String.intercalate_cons_cons, String.toList_append, String.toList_append,
        List.append_assoc, List.append_assoc]
      exact hline (finds_plain [] hname nofun (by decide) (ih hnames.2 hsuffix.2 hvalue.2))

theorem valuesOf_solvedText (hname : AllWord name) (hmem : name ∈ order) (hnodup : order.Nodup)
    (hnames : ∀ other ∈ order, Calm other.toList ∧ (name.toList <:+ other.toList → name = other))
    (hsuffix : ∀ other ∈ order, IsEnding (suffix other)) (hvalue : ∀ other ∈ order, IsNumber (value other))
    (hending : ending = "" ∨ ending = "\n") :
    valuesOf name (solvedText order suffix value ending) = .ok [[value name]] := by
  obtain ⟨p, hread, hends⟩ := read?_assignmentText hname
  have hfinds := (finds_solvedText hname hnames hsuffix hvalue hending).of_ends hends
  rw [List.filter_beq, List.count_eq_one_of_mem hnodup hmem] at hfinds
  simp only [valuesOf, hread, hfinds.findAll_eq]
  rfl

theorem assignment_eq {holes : List String} {solved : String}
    (h : ∀ hole ∈ holes, valuesOf hole solved = .ok [[value hole]]) :
    assignment holes solved = .ok (.ofList (holes.map fun hole => (hole, HoleValue.text (value hole)))) := by
  unfold assignment Table.ofList
  rw [show (∅ : Table HoleValue) = Table.empty from rfl]
  generalize (Table.empty : Table HoleValue) = t
  induction holes generalizing t with
  | nil => rfl
  | cons hole holes ih =>
    rw [List.forall_mem_cons] at h
    rw [List.foldlM_cons, h.1]
    exact ih h.2 _

end Lines

namespace Generator

variable {files : Files} {g g' : Generator} {r : Request}

theorem holeVar_inWords {v : String} (h : v = "opcode" ∨ v = "immediate_operand") :
    InWords v ∧ v ≠ demuxRest ∧ ∀ k, v ≠ operandRest k := by
  have hshort : v.length < 18 := by rcases h with rfl | rfl <;> decide
  have hlong (k : Nat) : 18 ≤ (operandRest k).length := by
    have hdigits : (toString k).length ≠ 0 := fun hzero => toString_ne_empty k (String.length_eq_zero_iff.1 hzero)
    have hwords : "operand_mux_".length = 12 ∧ "_ctrl".length = 5 := by decide
    simp only [operandRest, String.length_append]
    omega
  refine ⟨?_, by rcases h with rfl | rfl <;> decide, fun k heq => ?_⟩
  · rcases h with rfl | rfl
    · exact ⟨["opcode"], by decide, by decide⟩
    · exact ⟨["immediate", "operand"], by decide, by decide⟩
  · have := hlong k
    rw [← heq] at this
    omega

/-- Behind a sketch, holes are told apart by the words of their names. -/
theorem program_names {p : Program} (halus : HasAlus g)
    (hvars : ∀ d, described files g.statelessFile = some d → ∀ v ∈ d.holeVars, v = "opcode" ∨ v = "immediate_operand")
    (h : EndsIn (program r) files g p g') {name : String} (hname : name ∈ g'.holes.map Hole.name) :
    ∃ n : HoleName, n.Tame ∧ n.text g.shape.sketchName = name := by
  obtain ⟨d, hd, -⟩ := program_holeVars halus h
  obtain ⟨n, hn, rfl⟩ := List.mem_map.1 ((program_perm halus h).subset hname)
  refine ⟨n, Layout.tame_of_mem (b := g.layout files) (fun rest hrest => ?_) hn, rfl⟩
  rw [Layout.statelessRests, hd, List.mem_append] at hrest
  rcases hrest with hrest | hrest
  · obtain ⟨k, -, rfl⟩ := List.mem_map.1 hrest
    exact inWords_operandRest k
  · exact (holeVar_inWords (hvars d hd rest hrest)).1

/-- No name of a hole is a proper end of another, so that the values of all holes are read back from lines that give
them, whatever their order is and whatever stands behind the two underscores that follow a name. -/
theorem hole_values_are_read_back_unambiguously {text : String} (hg : Arises g)
    (hword : AllWord g.shape.sketchName) (hsingle : ¬ Text.Contains g.shape.sketchName "__")
    (hlast : ∀ c ∈ g.shape.sketchName.toList.getLast?, c ≠ '_')
    (hvars : ∀ d, described files g.statelessFile = some d → ∀ v ∈ d.holeVars, v = "opcode" ∨ v = "immediate_operand")
    (h : EndsIn (sketch r) files g text g') :
    (∀ a ∈ g'.holes.map Hole.name, ∀ b ∈ g'.holes.map Hole.name, a.toList <:+ b.toList → a = b) ∧
    ∀ (order : List String) (suffix value : String → String) (ending : String),
      order.Perm (g'.holes.map Hole.name) → (∀ name ∈ order, IsEnding (suffix name)) →
      (∀ name ∈ order, IsNumber (value name)) → (ending = "" ∨ ending = "\n") →
      ∃ values, assignment (g'.holes.map Hole.name) (solvedText order suffix value ending) = .ok values ∧
        values.toList = (g'.holes.map Hole.name).map fun name => (name, .text (value name)) := by
  obtain ⟨p, hprogram⟩ := sketch_program h
  have halus := hg.untouched.hasAlus hprogram
  have hcalm : Calm g.shape.sketchName.toList := ⟨Text.unpaired_of_not_infix hsingle, hlast⟩
  have hends {a b : String} (ha : a ∈ g'.holes.map Hole.name) (hb : b ∈ g'.holes.map Hole.name)
      (hsuffix : a.toList <:+ b.toList) : a = b := by
    obtain ⟨m, hm, rfl⟩ := program_names halus hvars hprogram ha
    obtain ⟨n, hn, rfl⟩ := program_names halus hvars hprogram hb
    rw [HoleName.eq_of_suffix hm hn hsuffix]
  have hnodup := program_nodup halus (fun d hd v hv => (holeVar_inWords (hvars d hd v hv)).2) hprogram
  refine ⟨fun a ha b hb => hends ha hb, fun order suffix value ending horder hsuffix hvalue hending => ?_⟩
  refine ⟨_, assignment_eq fun name hname => ?_, Table.toList_ofList ?_⟩
  case refine_2 =>
    rw [List.map_map]
    exact (List.map_id _).symm ▸ hnodup
  have hall : AllWord name := by
    obtain ⟨hole, hhole, rfl⟩ := List.mem_map.1 hname
    exact (program_allWord halus hword hprogram hhole).2
  refine valuesOf_solvedText hall (horder.mem_iff.2 hname) (horder.nodup_iff.2 hnodup) (fun other hother => ?_) hsuffix
    hvalue hending
  have hmem := horder.mem_iff.1 hother
  obtain ⟨n, hn, hother⟩ := program_names halus hvars hprogram hmem
  exact ⟨hother ▸ n.calm_text hn hcalm, hends hname hmem⟩

end Generator

namespace TwoFields

/-- A program with a packet field and a state group, and an ALU of each kind with two packet fields. -/
def files : Files :=
  .ofList
    [("program", "state_and_packet.pkt_0 = state_and_packet.state_group_0_state_0;"),
     ("constant", "type:stateful state variables:{s} hole variables:{} packet fields:{x,y} return C();"),
     ("pass", "// Max value of opcode is 1\ntype:stateless state variables:{} " ++
       "hole variables:{opcode,immediate_operand} packet fields:{x,y} return x;")]

/-- One stage of a switch with one container and one state group. -/
def generator : Generator :=
  { shape := ⟨"net", 1, 1, 1, 1, 1, [0], [0], [0], 1, true⟩
    synthesized := false
    statefulFile := "constant"
    statelessFile := "pass"
    constants := ⟨["0", "1"], true⟩
    constantBits := 1 }

def names : List String :=
  ["net_stateless_alu_0_0_operand_mux_0_ctrl", "net_stateless_alu_0_0_operand_mux_1_ctrl",
   "net_stateless_alu_0_0_immediate_operand", "net_stateless_alu_0_0_opcode", "net_stateful_alu_0_0_const_0_global",
   "net_stateful_alu_0_0_operand_mux_0_ctrl", "net_stateful_alu_0_0_operand_mux_1_ctrl",
   "net_stateless_alu_0_0_demux_ctrl", "net_stateful_alu_0_0_demux_ctrl", "net_salu_config_0_0"]

theorem sketch_ends : ∃ text g, EndsIn (Generator.sketch (.find "program" false)) files generator text g ∧
    g.holes.map Hole.name = names := by
  obtain ⟨text, g, hends, hnames⟩ := exists_endsIn (m := Generator.sketch (.find "program" false)) (r := files)
    (s := generator) (fun _ g => decide (g.holes.map Hole.name = names)) (by
      simp only [Generator.sketch, Generator.program, Generator.alus, Generator.statelessAlu, SwappedHoles.addHoles_eq]
      decide +kernel)
  exact ⟨text, g, hends, of_decide_eq_true hnames⟩

theorem pass_fits {d : Alu.Description} (hd : Generator.described files "pass" = some d) :
    d.packetFields.length = 2 ∧ d.holeVars = ["opcode", "immediate_operand"] := by
  have hcheck : (Generator.described files "pass").map (fun d => (d.packetFields.length, d.holeVars)) =
      some (2, ["opcode", "immediate_operand"]) := by
    decide +kernel
  rw [hd] at hcheck
  exact Prod.mk.inj (Option.some.inj hcheck)

/-- Values that come from last to first are each given to their own hole. -/
theorem values_are_read_from_last_to_first :
    ∃ text g' values, EndsIn (Generator.sketch (.find "program" false)) files generator text g' ∧
      assignment (g'.holes.map Hole.name) (solvedText (g'.holes.map Hole.name).reverse (fun _ => "ANONYMOUS_s159")
        (fun name => toString name.length) "\n") = .ok values ∧
      values.toList = names.map fun name => (name, .text (toString name.length)) := by
  have hcreated : Generator.create generator.shape false "constant" "pass" ["0", "1"] = .ok generator := rfl
  obtain ⟨text, g, hends, hnames⟩ := sketch_ends
  obtain ⟨-, hread⟩ := Generator.hole_values_are_read_back_unambiguously (.created hcreated)
    (by decide : AllWord "net") (by decide +kernel : ¬ Text.Contains "net" "__") (fun c hc => by cases hc; decide)
    (fun d hd v hv => by simpa [(pass_fits hd).2] using hv) hends
  have hending : IsEnding "ANONYMOUS_s159" :=
    ⟨by decide, by decide +kernel, fun c hc => by cases hc; decide, by decide +kernel⟩
  obtain ⟨values, hvalues, hlist⟩ := hread _ (fun _ => "ANONYMOUS_s159") (fun name => toString name.length) "\n"
    (List.reverse_perm _) (fun _ _ => hending)
    (fun name _ => ⟨toString_ne_empty _, fun _ hc => isDigit_of_mem_toString hc⟩) (.inr rfl)
  rw [hnames] at hlist
  exact ⟨text, g, values, hends, hvalues, hlist⟩

end TwoFields

end Sketch

end SwitchSynth
