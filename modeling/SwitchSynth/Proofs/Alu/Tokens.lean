import Mathlib.Computability.Language
import SwitchSynth.Alu.Lexer

/-!
# Texts are cut into longest tokens

Every kind of token has a language of texts that it may be written with. Reading a text cuts it into pieces that
make up the text again. A piece with a kind is the longest text that any kind has at that place, and no kind that is
preferred to its own has it too. A piece without a kind stands where no kind has a text, and goes on up to the first
character with which no token can go on.
-/

namespace SwitchSynth.Alu

open Computability

/-! ### The texts of a kind -/

def oneOf (p : Char → Bool) : Language Char :=
  {w | ∃ c, p c = true ∧ w = [c]}

/-- The texts of a character of one class and then any number of another. -/
def runOf (p q : Char → Bool) : Language Char :=
  oneOf p * (oneOf q)∗

/-- The texts that a kind of token may be written with. A number of several digits does not begin with zero. -/
def Kind.texts (k : Kind) : Language Char :=
  match k.spelling with
  | some s => {s.toList}
  | none =>
    match k with
    | blank => runOf isBlank isBlank
    | comment => {['/', '/']} * (oneOf isCommentRest)∗
    | ident => runOf isLetter isIdentRest
    | number => oneOf isDigit + runOf (fun c => isDigit c && c != '0') isDigit
    | _ => 0

variable {p q : Char → Bool} {w cs a b : List Char} {k : Kind}

theorem mem_star_oneOf : w ∈ (oneOf p)∗ ↔ ∀ c ∈ w, p c = true := by
  rw [Language.mem_kstar]
  constructor
  · rintro ⟨ws, rfl, hws⟩ c hc
    obtain ⟨v, hv, hcv⟩ := List.mem_flatten.1 hc
    obtain ⟨c', hc', rfl⟩ := hws v hv
    rwa [List.mem_singleton.1 hcv]
  · intro h
    refine ⟨w.map fun c => [c], ?_, fun v hv => ?_⟩
    · simp [← List.flatMap_def]
    · obtain ⟨c, hc, rfl⟩ := List.mem_map.1 hv
      exact ⟨c, h c hc, rfl⟩

theorem mem_runOf :
    w ∈ runOf p q ↔ ∃ c rest, w = c :: rest ∧ p c = true ∧ ∀ x ∈ rest, q x = true := by
  rw [runOf, Language.mem_mul]
  constructor
  · rintro ⟨_, ⟨c, hc, rfl⟩, rest, hrest, rfl⟩
    exact ⟨c, rest, rfl, hc, mem_star_oneOf.1 hrest⟩
  · rintro ⟨c, rest, rfl, hc, hrest⟩
    exact ⟨[c], ⟨c, hc, rfl⟩, rest, mem_star_oneOf.2 hrest, rfl⟩

theorem mem_texts_comment :
    w ∈ Kind.comment.texts ↔ ∃ rest, w = '/' :: '/' :: rest ∧ ∀ x ∈ rest, isCommentRest x = true := by
  show w ∈ {['/', '/']} * (oneOf isCommentRest)∗ ↔ _
  simp only [Language.mem_mul, mem_star_oneOf]
  constructor
  · rintro ⟨_, rfl, rest, hrest, rfl⟩
    exact ⟨rest, rfl, hrest⟩
  · rintro ⟨rest, rfl, hrest⟩
    exact ⟨['/', '/'], rfl, rest, hrest, rfl⟩

theorem mem_texts_number :
    w ∈ Kind.number.texts ↔ (∃ c, isDigit c = true ∧ w = [c]) ∨ w ∈ runOf (fun c => isDigit c && c != '0') isDigit :=
  Iff.rfl

theorem mem_texts_of_spelling {s : String} (hs : k.spelling = some s) :
    w ∈ k.texts ↔ w = s.toList := by
  unfold Kind.texts
  rw [hs]
  exact Iff.rfl

theorem Kind.of_spelling_eq_none (h : k.spelling = none) :
    k = blank ∨ k = comment ∨ k = ident ∨ k = number := by
  cases k with
  | blank | comment | ident | number => simp
  | _ => exact nomatch h

theorem Kind.ne_nil_of_mem_texts (h : w ∈ k.texts) : w ≠ [] := by
  rintro rfl
  cases hs : k.spelling with
  | some s =>
    have hspelled := (mem_texts_of_spelling hs).1 h
    cases k <;> cases hs <;> exact absurd hspelled (by decide)
  | none =>
    rcases of_spelling_eq_none hs with rfl | rfl | rfl | rfl
    · obtain ⟨_, _, hnil, -⟩ := mem_runOf.1 h
      exact nomatch hnil
    · obtain ⟨_, hnil, -⟩ := mem_texts_comment.1 h
      exact nomatch hnil
    · obtain ⟨_, _, hnil, -⟩ := mem_runOf.1 h
      exact nomatch hnil
    · rcases mem_texts_number.1 h with ⟨_, -, hnil⟩ | hrun
      · exact nomatch hnil
      · obtain ⟨_, _, hnil, -⟩ := mem_runOf.1 hrun
        exact nomatch hnil

/-! ### How far a kind gets -/

/-- The longest text of a language that `cs` starts with has `n` characters; there is none if `n` is zero. -/
structure Measures (l : Language Char) (cs : List Char) (n : Nat) : Prop where
  within : n ≤ cs.length
  mem : n ≠ 0 → cs.take n ∈ l
  longest : ∀ w ∈ l, w <+: cs → w.length ≤ n

theorem length_le_length_takeWhile (hw : ∀ x ∈ w, q x = true)
    (hstart : w <+: cs) : w.length ≤ (cs.takeWhile q).length := by
  obtain ⟨rest, rfl⟩ := hstart
  rw [List.takeWhile_append_of_pos hw, List.length_append]
  omega

theorem take_length_takeWhile (q : Char → Bool) (cs : List Char) :
    cs.take (cs.takeWhile q).length = cs.takeWhile q :=
  (List.prefix_iff_eq_take.1 (List.takeWhile_prefix q)).symm

theorem runOf_measures_cons (p q : Char → Bool) (c : Char) (rest : List Char) :
    Measures (runOf p q) (c :: rest) (if p c then (rest.takeWhile q).length + 1 else 0) := by
  constructor
  · have hle := (List.takeWhile_prefix q (l := rest)).length_le
    split
    · simpa using hle
    · exact Nat.zero_le _
  · intro hn
    by_cases hc : p c = true
    · rw [if_pos hc, List.take_succ_cons, take_length_takeWhile]
      exact mem_runOf.2 ⟨c, _, rfl, hc, List.all_eq_true.1 List.all_takeWhile⟩
    · exact absurd (if_neg hc) hn
  · intro w hw hstart
    obtain ⟨c', rest', rfl, hc', hrest'⟩ := mem_runOf.1 hw
    obtain ⟨rfl, hbegins⟩ := List.cons_prefix_cons.1 hstart
    rw [if_pos hc', List.length_cons]
    exact Nat.succ_le_succ (length_le_length_takeWhile hrest' hbegins)

theorem Kind.texts_measures_nil (k : Kind) : Measures k.texts [] 0 := by
  refine ⟨le_rfl, fun h => absurd rfl h, fun w hw hstart => ?_⟩
  exact absurd (List.prefix_nil.1 hstart) (ne_nil_of_mem_texts hw)

theorem matchLength_blank_measures (cs : List Char) :
    Measures Kind.blank.texts cs (Kind.blank.matchLength cs) := by
  cases cs with
  | nil => exact Kind.texts_measures_nil _
  | cons c rest =>
    have hlength : Kind.blank.matchLength (c :: rest) =
        if isBlank c then (rest.takeWhile isBlank).length + 1 else 0 := by
      show ((c :: rest).takeWhile isBlank).length = _
      rw [List.takeWhile_cons]
      split <;> rfl
    rw [hlength]
    exact runOf_measures_cons isBlank isBlank c rest

theorem matchLength_ident_measures (cs : List Char) :
    Measures Kind.ident.texts cs (Kind.ident.matchLength cs) := by
  cases cs with
  | nil => exact Kind.texts_measures_nil _
  | cons c rest => exact runOf_measures_cons isLetter isIdentRest c rest

theorem matchLength_comment_measures (cs : List Char) :
    Measures Kind.comment.texts cs (Kind.comment.matchLength cs) := by
  by_cases hcs : ∃ rest, cs = '/' :: '/' :: rest
  · obtain ⟨rest, rfl⟩ := hcs
    show Measures _ _ ((rest.takeWhile isCommentRest).length + 2)
    constructor
    · have hle := (List.takeWhile_prefix isCommentRest (l := rest)).length_le
      simpa using hle
    · intro _
      rw [List.take_succ_cons, List.take_succ_cons, take_length_takeWhile]
      exact mem_texts_comment.2 ⟨_, rfl, List.all_eq_true.1 List.all_takeWhile⟩
    · intro w hw hstart
      obtain ⟨rest', rfl, hrest'⟩ := mem_texts_comment.1 hw
      have hbegins : rest' <+: rest := by simpa using hstart
      have hle := length_le_length_takeWhile hrest' hbegins
      simpa using hle
  · have hlength : Kind.comment.matchLength cs = 0 := by
      unfold Kind.matchLength
      simp only [Kind.spelling]
      split <;> simp_all
    rw [hlength]
    refine ⟨Nat.zero_le _, fun h => absurd rfl h, fun w hw hstart => ?_⟩
    obtain ⟨rest, rfl, -⟩ := mem_texts_comment.1 hw
    obtain ⟨more, rfl⟩ := hstart
    exact absurd ⟨_, rfl⟩ hcs

theorem matchLength_number_measures (cs : List Char) :
    Measures Kind.number.texts cs (Kind.number.matchLength cs) := by
  cases cs with
  | nil => exact Kind.texts_measures_nil _
  | cons c rest =>
    have h := runOf_measures_cons (fun c => isDigit c && c != '0') isDigit c rest
    show Measures _ _ (if c = '0' then 1 else if isDigit c then (rest.takeWhile isDigit).length + 1 else 0)
    by_cases hzero : c = '0'
    · -- Nothing goes on behind a zero.
      subst hzero
      rw [if_pos rfl]
      refine ⟨by simp, fun _ => .inl ⟨'0', rfl, rfl⟩, fun w hw hstart => ?_⟩
      rcases mem_texts_number.1 hw with ⟨_, -, rfl⟩ | hrun
      · exact le_rfl
      · exact Nat.le_trans (h.longest w hrun hstart) (Nat.zero_le 1)
    · rw [if_neg hzero]
      simp only [bne_iff_ne.2 hzero, Bool.and_true] at h
      refine ⟨h.within, fun hn => .inr (h.mem hn), fun w hw hstart => ?_⟩
      rcases mem_texts_number.1 hw with ⟨c', hc', rfl⟩ | hrun
      · obtain ⟨rfl, -⟩ := List.cons_prefix_cons.1 hstart
        rw [if_pos hc', List.length_singleton]
        omega
      · exact h.longest w hrun hstart

theorem Kind.matchLength_measures (k : Kind) (cs : List Char) : Measures k.texts cs (k.matchLength cs) := by
  cases hs : k.spelling with
  | some s =>
    have hlength : k.matchLength cs = wordLength s.toList cs := by
      unfold matchLength
      rw [hs]
    rw [hlength, wordLength]
    by_cases hword : s.toList <+: cs
    · rw [if_pos (List.isPrefixOf_iff_prefix.2 hword)]
      refine ⟨hword.length_le, fun _ => ?_, fun w hw _ => ?_⟩
      · rw [← List.prefix_iff_eq_take.1 hword]
        exact (mem_texts_of_spelling hs).2 rfl
      · rw [(mem_texts_of_spelling hs).1 hw]
    · rw [if_neg fun h => hword (List.isPrefixOf_iff_prefix.1 h)]
      refine ⟨Nat.zero_le _, fun h => absurd rfl h, fun w hw hstart => ?_⟩
      rw [(mem_texts_of_spelling hs).1 hw] at hstart
      exact absurd hstart hword
  | none =>
    rcases of_spelling_eq_none hs with rfl | rfl | rfl | rfl
    · exact matchLength_blank_measures cs
    · exact matchLength_comment_measures cs
    · exact matchLength_ident_measures cs
    · exact matchLength_number_measures cs

/-- The longest start of `cs` that can still grow into a text of a language has `n` characters. -/
structure Reaches (l : Language Char) (cs : List Char) (n : Nat) : Prop where
  grows : ∀ w, w <+: cs → w.length ≤ n → ∃ more, w ++ more ∈ l
  furthest : ∀ w more, w <+: cs → w ++ more ∈ l → w.length ≤ n

/-- Where all starts of texts are texts too, growing gets no further than matching. -/
theorem Measures.reaches {l : Language Char} {n : Nat} (h : Measures l cs n)
    (hstarts : ∀ w more, w ≠ [] → w ++ more ∈ l → w ∈ l) (hsome : ∃ w, w ∈ l) : Reaches l cs n := by
  constructor
  · intro w hstart hle
    by_cases hn : n = 0
    · obtain ⟨v, hv⟩ := hsome
      have hnil : w = [] := List.length_eq_zero_iff.1 (by omega)
      exact ⟨v, by rwa [hnil]⟩
    · have htake : w <+: cs.take n := (List.prefix_take_iff).2 ⟨hstart, hle⟩
      obtain ⟨more, hmore⟩ := htake
      exact ⟨more, by rw [hmore]; exact h.mem hn⟩
  · intro w more hstart hmem
    by_cases hw : w = []
    · rw [hw]
      exact Nat.zero_le n
    · exact h.longest w (hstarts w more hw hmem) hstart

theorem runOf_starts {more : List Char} (hw : w ≠ []) (h : w ++ more ∈ runOf p q) :
    w ∈ runOf p q := by
  obtain ⟨c, rest, rfl⟩ := List.exists_cons_of_ne_nil hw
  obtain ⟨_, _, heq, hc, hrest⟩ := mem_runOf.1 h
  obtain ⟨rfl, rfl⟩ := List.cons.inj heq
  exact mem_runOf.2 ⟨c, rest, rfl, hc, fun x hx => hrest x (List.mem_append_left more hx)⟩

theorem prefix_of_length_le_commonLength (hb : w <+: b)
    (hle : w.length ≤ commonLength a b) : w <+: a := by
  induction w generalizing a b with
  | nil => exact List.nil_prefix
  | cons c w ih =>
    obtain ⟨rest, rfl⟩ := hb
    cases a with
    | nil => simp [commonLength] at hle
    | cons x a =>
      rw [List.cons_append, commonLength] at hle
      split at hle
      · next hx =>
        subst hx
        refine List.cons_prefix_cons.2 ⟨rfl, ih (List.prefix_append w rest) ?_⟩
        simpa using hle
      · simp at hle

theorem length_le_commonLength (ha : w <+: a) (hb : w <+: b) :
    w.length ≤ commonLength a b := by
  induction w generalizing a b with
  | nil => exact Nat.zero_le _
  | cons c w ih =>
    obtain ⟨resta, rfl⟩ := ha
    obtain ⟨restb, rfl⟩ := hb
    rw [List.cons_append, List.cons_append, commonLength, if_pos rfl, List.length_cons]
    exact Nat.succ_le_succ (ih (List.prefix_append w resta) (List.prefix_append w restb))

theorem commonLength_reaches (word cs : List Char) : Reaches {word} cs (commonLength word cs) := by
  constructor
  · intro w hstart hle
    obtain ⟨more, hmore⟩ := prefix_of_length_le_commonLength hstart hle
    exact ⟨more, hmore⟩
  · intro w more hstart hmem
    have hword : w ++ more = word := hmem
    exact length_le_commonLength ⟨more, hword⟩ hstart

theorem reach_comment_reaches (cs : List Char) : Reaches Kind.comment.texts cs (Kind.comment.reach cs) := by
  have hreach : Kind.comment.reach cs = max (commonLength ['/', '/'] cs) (Kind.comment.matchLength cs) := rfl
  have hmeasures := matchLength_comment_measures cs
  rw [hreach]
  constructor
  · intro w hstart hle
    rcases le_max_iff.1 hle with hle | hle
    · obtain ⟨more, hmore⟩ := prefix_of_length_le_commonLength hstart hle
      exact ⟨more, mem_texts_comment.2 ⟨[], hmore, nofun⟩⟩
    · by_cases hn : Kind.comment.matchLength cs = 0
      · have hnil : w = [] := List.length_eq_zero_iff.1 (by omega)
        exact ⟨['/', '/'], mem_texts_comment.2 ⟨[], by rw [hnil]; rfl, nofun⟩⟩
      · obtain ⟨more, hmore⟩ : w <+: cs.take (Kind.comment.matchLength cs) := List.prefix_take_iff.2 ⟨hstart, hle⟩
        exact ⟨more, by rw [hmore]; exact hmeasures.mem hn⟩
  · intro w more hstart hmem
    obtain ⟨rest, hrest, hall⟩ := mem_texts_comment.1 hmem
    -- Up to two characters are a part of the slashes; more of them are a comment already.
    match w, hstart, hrest with
    | [], _, _ => exact Nat.zero_le _
    | [c], hstart, hrest =>
      have hc : [c] <+: ['/', '/'] := by
        rw [List.singleton_append, List.cons.injEq] at hrest
        rw [hrest.1]
        exact ⟨['/'], rfl⟩
      exact Nat.le_trans (length_le_commonLength hc hstart) (Nat.le_max_left _ _)
    | c :: c' :: w, hstart, hrest =>
      simp only [List.cons_append, List.cons.injEq] at hrest
      obtain ⟨rfl, rfl, rfl⟩ := hrest
      have hw : '/' :: '/' :: w ∈ Kind.comment.texts :=
        mem_texts_comment.2 ⟨w, rfl, fun x hx => hall x (List.mem_append_left more hx)⟩
      exact Nat.le_trans (hmeasures.longest _ hw hstart) (Nat.le_max_right _ _)

theorem Kind.reach_reaches (k : Kind) (cs : List Char) : Reaches k.texts cs (k.reach cs) := by
  have hmeasures := k.matchLength_measures cs
  cases hs : k.spelling with
  | some s =>
    have hreach : k.reach cs = commonLength s.toList cs := by
      unfold reach
      rw [hs]
    have htexts : k.texts = {s.toList} := Language.ext fun w => mem_texts_of_spelling hs
    rw [hreach, htexts]
    exact commonLength_reaches s.toList cs
  | none =>
    rcases of_spelling_eq_none hs with rfl | rfl | rfl | rfl
    · exact hmeasures.reaches (fun _ _ => runOf_starts) ⟨[' '], mem_runOf.2 ⟨' ', [], rfl, rfl, nofun⟩⟩
    · exact reach_comment_reaches cs
    · exact hmeasures.reaches (fun _ _ => runOf_starts) ⟨['a'], mem_runOf.2 ⟨'a', [], rfl, rfl, nofun⟩⟩
    · refine hmeasures.reaches (fun w more hw hmem => ?_) ⟨['0'], .inl ⟨'0', rfl, rfl⟩⟩
      rcases mem_texts_number.1 hmem with ⟨c, hc, hone⟩ | hrun
      · rcases List.append_eq_singleton_iff.1 hone with ⟨hnil, -⟩ | ⟨rfl, -⟩
        · exact absurd hnil hw
        · exact .inl ⟨c, hc, rfl⟩
      · exact .inr (runOf_starts hw hrun)

/-! ### The preferred kind -/

/-- The best of several candidates is longer than those before it and not shorter than those behind it. -/
theorem foldl_longer_split (candidates : List (Kind × Nat)) (a : Kind × Nat) :
    ∃ before after, a :: candidates = before ++ candidates.foldl longer a :: after ∧
      (∀ b ∈ before, b.2 < (candidates.foldl longer a).2) ∧ ∀ b ∈ after, b.2 ≤ (candidates.foldl longer a).2 := by
  induction candidates generalizing a with
  | nil => exact ⟨[], [], rfl, nofun, nofun⟩
  | cons b candidates ih =>
    obtain ⟨before, after, hsplit, hbefore, hafter⟩ := ih (longer a b)
    rw [List.foldl_cons]
    generalize candidates.foldl longer (longer a b) = best at hsplit hbefore hafter
    by_cases hab : a.2 < b.2
    · -- The second one takes the place of the first one.
      rw [longer, if_pos hab] at hsplit
      have hb : b.2 ≤ best.2 := by
        have hmem : b ∈ before ++ best :: after := hsplit ▸ List.mem_cons_self
        rcases List.mem_append.1 hmem with hmem | hmem
        · exact Nat.le_of_lt (hbefore b hmem)
        · exact (List.mem_cons.1 hmem).elim (fun h => h ▸ le_rfl) (hafter b)
      refine ⟨a :: before, after, by rw [hsplit, List.cons_append], ?_, hafter⟩
      exact List.forall_mem_cons.2 ⟨by omega, hbefore⟩
    · rw [longer, if_neg hab] at hsplit
      cases before with
      | nil =>
        obtain ⟨rfl, rfl⟩ := List.cons.inj hsplit
        exact ⟨[], b :: candidates, rfl, nofun, List.forall_mem_cons.2 ⟨by omega, hafter⟩⟩
      | cons first before =>
        obtain ⟨rfl, rfl⟩ := List.cons.inj hsplit
        have ha := hbefore a List.mem_cons_self
        refine ⟨a :: b :: before, after, rfl, ?_, hafter⟩
        exact List.forall_mem_cons.2 ⟨ha, List.forall_mem_cons.2
          ⟨by omega, fun x hx => hbefore x (List.mem_cons_of_mem a hx)⟩⟩

theorem Kind.mem_all (k : Kind) : k ∈ Kind.all := by
  cases k <;> decide

theorem matchLength_le_bestMatch (k : Kind) (cs : List Char) : k.matchLength cs ≤ (bestMatch cs).2 := by
  obtain ⟨before, after, hsplit, hbefore, hafter⟩ :=
    foldl_longer_split (Kind.all.map fun k => (k, k.matchLength cs)) (.blank, 0)
  have hmem : (k, k.matchLength cs) ∈ before ++ bestMatch cs :: after :=
    hsplit ▸ List.mem_cons_of_mem _ (List.mem_map_of_mem k.mem_all)
  rcases List.mem_append.1 hmem with hmem | hmem
  · exact Nat.le_of_lt (hbefore _ hmem)
  · exact (List.mem_cons.1 hmem).elim (fun h => (congrArg Prod.snd h).le) (hafter _)

/-- Of all texts that some kind has at the start of `rest`, a word is the longest, and a kind is the first one that
has it. -/
structure LongestMatch (k : Kind) (word rest : List Char) : Prop where
  matched : word ∈ k.texts
  longest : ∀ (k' : Kind), ∀ w ∈ k'.texts, w <+: rest → w.length ≤ word.length
  first : ∃ before after, Kind.all = before ++ k :: after ∧ ∀ k' ∈ before, word ∉ k'.texts

/-- No kind has a text at the start of `rest`. A word is given up that ends with the first character with which no
token can go on, or with the end of the text. -/
structure GivenUp (word rest : List Char) : Prop where
  unmatched : ∀ (k : Kind), ∀ w ∈ k.texts, ¬ w <+: rest
  grows : ∀ w, w <+: word → w ≠ word → ∃ (k : Kind) (more : List Char), w ++ more ∈ k.texts
  stuck : word = rest ∨ ∀ (k : Kind) (more : List Char), word ++ more ∉ k.texts

theorem bestMatch_longestMatch (h : (bestMatch cs).2 ≠ 0) :
    LongestMatch (bestMatch cs).1 (cs.take (bestMatch cs).2) cs := by
  obtain ⟨before, after, hsplit, hbefore, -⟩ :=
    foldl_longer_split (Kind.all.map fun k => (k, k.matchLength cs)) (.blank, 0)
  -- The candidates behind the first are the kinds in order of preference, so they split where the candidates do.
  obtain ⟨first, before, rfl⟩ : ∃ first rest, before = first :: rest := by
    cases before with
    | nil => exact absurd (congrArg Prod.snd (List.cons.inj hsplit).1.symm) h
    | cons first rest => exact ⟨first, rest, rfl⟩
  obtain ⟨ks, ks', hall, rfl, hrest⟩ := List.map_eq_append_iff.1 (List.cons.inj hsplit).2
  obtain ⟨k, after', rfl, hk, -⟩ := List.map_eq_cons_iff.1 hrest
  have hbest : bestMatch cs = (k, k.matchLength cs) := hk.symm
  have hmeasures := k.matchLength_measures cs
  rw [hbest] at h ⊢
  dsimp only at h ⊢
  have hlength : (cs.take (k.matchLength cs)).length = k.matchLength cs := List.length_take_of_le hmeasures.within
  refine ⟨hmeasures.mem h, fun k' w hw hstart => ?_, ks, after', hall, fun k' hk' hword => ?_⟩
  · have hle := (k'.matchLength_measures cs).longest w hw hstart
    have hmost := matchLength_le_bestMatch k' cs
    rw [hbest] at hmost
    omega
  · have hlt : k'.matchLength cs < (bestMatch cs).2 :=
      hbefore _ (List.mem_cons_of_mem first (List.mem_map_of_mem hk'))
    have hle := (k'.matchLength_measures cs).longest _ hword (List.take_prefix _ cs)
    rw [hbest] at hlt
    omega

theorem foldl_max_spec (lengths : List Nat) :
    lengths.foldl max 0 ∈ 0 :: lengths ∧ ∀ n ∈ 0 :: lengths, n ≤ lengths.foldl max 0 :=
  List.max?_eq_some_iff.1 List.max?_cons'

/-- Where no kind has a text, as much is discarded as a token could have grown, and one character more. -/
theorem discardLength_givenUp (h : (bestMatch cs).2 = 0) :
    GivenUp (cs.take (discardLength cs)) cs := by
  constructor
  · intro k w hw hstart
    have hle := (k.matchLength_measures cs).longest w hw hstart
    have hbest := matchLength_le_bestMatch k cs
    exact Kind.ne_nil_of_mem_texts hw (List.length_eq_zero_iff.1 (by omega))
  · intro w hbegins hne
    have hstart : w <+: cs := hbegins.trans (List.take_prefix _ cs)
    have hlt : w.length < (cs.take (discardLength cs)).length :=
      Nat.lt_of_le_of_ne hbegins.length_le fun heq => hne (hbegins.eq_of_length heq)
    have hle : w.length ≤ (Kind.all.map fun k => k.reach cs).foldl max 0 := by
      rw [List.length_take, discardLength] at hlt
      omega
    -- Some kind reaches as far as the furthest one.
    rcases List.mem_cons.1 (foldl_max_spec (Kind.all.map fun k => k.reach cs)).1 with hzero | hmem
    · exact ⟨.colon, (Kind.colon.reach_reaches cs).grows w hstart (by omega)⟩
    · obtain ⟨k, -, hk⟩ := List.mem_map.1 hmem
      rw [← hk] at hle
      exact ⟨k, (k.reach_reaches cs).grows w hstart hle⟩
  · by_cases hend : cs.length ≤ discardLength cs
    · exact .inl (List.take_of_length_le hend)
    · refine .inr fun k more hmem => ?_
      have hle := (k.reach_reaches cs).furthest _ more (List.take_prefix _ cs) hmem
      have hmax := (foldl_max_spec (Kind.all.map fun k => k.reach cs)).2 _
        (List.mem_cons_of_mem _ (List.mem_map_of_mem k.mem_all))
      rw [List.length_take_of_le (by omega), discardLength] at hle
      omega

/-! ### Places -/

theorem line_advance (p : Position) (cs : List Char) : (p.advance cs).line = p.line + cs.count '\n' := by
  induction cs generalizing p with
  | nil => rfl
  | cons c cs ih =>
    have hcons : p.advance (c :: cs) = (p.next c).advance cs := rfl
    rw [hcons, ih, List.count_cons, Position.next]
    by_cases hc : c = '\n'
    · simp only [hc, if_true, beq_self_eq_true]
      omega
    · simp [hc]

theorem column_advance_start (cs : List Char) :
    (Position.advance {} cs).column = (cs.reverse.takeWhile (· != '\n')).length := by
  -- The last character decides whether the count goes on.
  induction cs using List.reverseRecOn with
  | nil => rfl
  | append_singleton cs c ih =>
    have hlast : Position.advance {} (cs ++ [c]) = (Position.advance {} cs).next c := by
      rw [Position.advance, List.foldl_append]
      rfl
    rw [hlast, Position.next, List.reverse_concat]
    by_cases hc : c = '\n' <;> simp [hc, ih]

/-! ### Pieces -/

/-- A piece stands between what is before it and what is left: it is the next token there, or no token can be read
there and it is discarded. -/
structure Piece.IsNext (piece : Piece) (before rest : List Char) : Prop where
  starts : piece.text <+: rest
  ne_nil : piece.text ≠ []
  line : piece.position.line = before.count '\n' + 1
  column : piece.position.column = (before.reverse.takeWhile (· != '\n')).length
  token : ∀ k, piece.kind? = some k → LongestMatch k piece.text rest
  discarded : piece.kind? = none → GivenUp piece.text rest

theorem firstPiece_isNext (before : List Char) (c : Char) (rest : List Char) :
    (firstPiece (c :: rest) (Position.advance {} before)).IsNext before (c :: rest) := by
  have hposition : (firstPiece (c :: rest) (Position.advance {} before)).position = Position.advance {} before := by
    unfold firstPiece
    dsimp only
    split <;> rfl
  refine ⟨?_, firstPiece_text_ne_nil c rest _, ?_, ?_, ?_, ?_⟩
  · unfold firstPiece
    dsimp only
    split <;> exact List.take_prefix _ _
  · rw [hposition, line_advance, Nat.add_comm]
  · rw [hposition, column_advance_start]
  · intro k hk
    unfold firstPiece at hk ⊢
    dsimp only at hk ⊢
    split at hk
    · exact nomatch hk
    · next hbest =>
      cases hk
      rw [if_neg hbest]
      exact bestMatch_longestMatch hbest
  · intro hnone
    unfold firstPiece at hnone ⊢
    dsimp only at hnone ⊢
    split at hnone
    · next hbest =>
      rw [if_pos hbest]
      exact discardLength_givenUp hbest
    · exact nomatch hnone

def textOf (pieces : List Piece) : List Char :=
  pieces.flatMap Piece.text

theorem firstPiece_append_drop (cs : List Char) (p : Position) :
    (firstPiece cs p).text ++ cs.drop (firstPiece cs p).text.length = cs := by
  have hbegins : (firstPiece cs p).text <+: cs := by
    unfold firstPiece
    dsimp only
    split <;> exact List.take_prefix _ _
  exact List.prefix_iff_eq_append.1 hbegins

theorem textOf_scan (cs : List Char) (p : Position) : textOf (scan cs p) = cs := by
  fun_induction scan cs p with
  | case1 => rfl
  | case2 p c rest piece ih =>
    rw [textOf, List.flatMap_cons]
    show piece.text ++ textOf _ = _
    rw [ih]
    exact firstPiece_append_drop (c :: rest) p

theorem scan_isNext (before : List Char) {done after : List Piece} {piece : Piece}
    (h : scan cs (Position.advance {} before) = done ++ piece :: after) :
    piece.IsNext (before ++ textOf done) (textOf (piece :: after)) := by
  induction done generalizing cs before with
  | nil =>
    cases cs with
    | nil => simp [scan] at h
    | cons c rest =>
      have hwhole := textOf_scan (c :: rest) (Position.advance {} before)
      rw [h] at hwhole
      rw [scan] at h
      obtain ⟨rfl, -⟩ := List.cons.inj h
      rw [List.nil_append] at hwhole
      rw [hwhole]
      simpa [textOf] using firstPiece_isNext before c rest
  | cons first done ih =>
    cases cs with
    | nil => simp [scan] at h
    | cons c rest =>
      rw [scan] at h
      obtain ⟨rfl, hrest⟩ := List.cons.inj h
      -- The other pieces are read from where the first one ends.
      have hposition (text : List Char) : (Position.advance {} before).advance text =
          Position.advance {} (before ++ text) := List.foldl_append.symm
      rw [hposition] at hrest
      have hnext := ih _ hrest
      rwa [List.append_assoc] at hnext

theorem lex_mem_texts {text : String} {t : Token} (h : t ∈ (lex text).tokens) : t.text.toList ∈ t.kind.texts := by
  obtain ⟨piece, hmem, htoken⟩ := List.mem_filterMap.1 h
  obtain ⟨done, after, hsplit⟩ := List.append_of_mem hmem
  have hnext := scan_isNext [] hsplit
  unfold Piece.token? at htoken
  split at htoken
  · exact nomatch htoken
  · exact nomatch htoken
  · next k _ hkind =>
    cases htoken
    rw [String.toList_ofList]
    exact (hnext.token k hkind).matched

/-- A text is cut into pieces that make it up again. All but comments and discarded pieces are its tokens, and the
discarded pieces are its errors. Each piece stands in the text as the next token or, where there is none, as a run of
characters that is discarded. -/
theorem lex_reads_longest_tokens (text : String) :
    ∃ pieces : List Piece, textOf pieces = text.toList ∧
      (lex text).tokens = pieces.filterMap Piece.token? ∧
      (lex text).errors = (pieces.filter fun piece => piece.kind?.isNone).map Piece.position ∧
      ∀ done piece after, pieces = done ++ piece :: after →
        piece.IsNext (textOf done) (textOf (piece :: after)) := by
  refine ⟨scan (Text.chars text) {}, (textOf_scan _ _).trans (Text.chars_eq text), rfl, rfl, fun done piece after h => ?_⟩
  have hnext := scan_isNext [] h
  rwa [List.nil_append] at hnext

-- A space belongs to the word in front of `a`, and one is lost with the sign that it follows.
example : (lex "int a=& 10").tokens.map Token.text = ["int ", "a", "=", "10"] ∧
    (lex "int a=& 10").errors = [⟨1, 6⟩] := by
  decide +kernel

end SwitchSynth.Alu
