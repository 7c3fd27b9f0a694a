import SwitchSynth.Alu.Repair
import SwitchSynth.Proofs.Alu.Recognition

/-!
# Names in the header of a description

The names that a description gives to its state variables, holes and packet fields are identifiers, also where the
description had to be mended. A token is put in, or its text is joined with that of the token before it, only where
nothing but that token is wanted, and nowhere in a header that token is a name. A failure behind the header leaves the
header as it is, and a header that was read once is read again in the same way, whatever comes behind it.
-/

namespace SwitchSynth.Alu

/-- A letter and then letters, digits and underscores. -/
def IsIdent (s : String) : Prop :=
  ∃ c rest, s.toList = c :: rest ∧ isLetter c = true ∧ ∀ x ∈ rest, isIdentRest x = true

/-- A token that is an identifier if it is read as a name. -/
def Token.Plain (t : Token) : Prop :=
  t.kind = .ident → IsIdent t.text

theorem lex_plain {text : String} {t : Token} (h : t ∈ (lex text).tokens) : t.Plain := by
  intro hkind
  have hmem := lex_mem_texts h
  rw [hkind] at hmem
  exact mem_runOf.1 hmem

/-! ### Failures in a header -/

namespace Parse

/-- Only where nothing but a name is wanted a name may be put in. -/
def NoName (wanted : Wanted) : Prop :=
  wanted ≠ .mark .ident

/-- Where a parser fails, it does not want a name and nothing else. -/
def NamesNothing {α : Type} (p : Parse α) : Prop :=
  ∀ ts e, p ts = .error e → NoName e.wanted

variable {α β : Type} {p : Parse α} {f : α → Parse β}

namespace NamesNothing

theorem bind (hp : NamesNothing p) (hf : ∀ a, NamesNothing (f a)) : NamesNothing (p >>= f) := by
  intro ts e h
  rcases bind_eq_error h with h | ⟨a, ts', -, h⟩
  · exact hp ts e h
  · exact hf a ts' e h

theorem pure (a : α) : NamesNothing (Pure.pure a : Parse α) := by
  rintro ts e ⟨⟩

theorem expect {k : Kind} (h : k ≠ .ident) : NamesNothing (expect k) := by
  intro ts e he
  cases ts with
  | nil =>
    cases he
    exact fun hwanted => h (Wanted.mark.inj hwanted)
  | cons t ts =>
    rw [Parse.expect] at he
    split at he
    · cases he
    · cases he
      exact fun hwanted => h (Wanted.mark.inj hwanted)

theorem accept (k : Kind) : NamesNothing (accept k) := by
  intro ts e he
  cases ts with
  | nil => cases he
  | cons t ts =>
    rw [Parse.accept] at he
    split at he <;> cases he

theorem names (fuel : Nat) : NamesNothing (names fuel) := by
  induction fuel with
  | zero =>
    rintro ts e ⟨⟩
    rintro ⟨⟩
  | succ fuel ih =>
    intro ts e h
    rcases names_cases fuel ts with ⟨t, ts, rfl, hkind⟩ | hfails
    · rw [names_cons hkind] at h
      refine (accept .comma).bind (fun more => ?_) ts e h
      split
      · exact ih.bind fun _ => .pure _
      · exact .pure _
    · rw [hfails] at h
      cases h
      rintro ⟨⟩

theorem nameSection (fuel : Nat) (s : Section) : NamesNothing (nameSection fuel s) := by
  have hwords : (sectionWords s).1 ≠ .ident ∧ (sectionWords s).2 ≠ .ident := by cases s <;> decide
  refine .bind (.expect hwords.1) fun _ => .bind (.expect hwords.2) fun _ => .bind (.expect (by decide)) fun _ => ?_
  refine .bind (.expect (by decide)) fun _ => .bind ?_ fun _ => .bind (.expect (by decide)) fun _ => .pure _
  intro ts e h
  rw [nameSeq, peek?_bind] at h
  generalize ts.head?.map Token.kind = next at h
  split at h
  · cases h
  · exact names fuel ts e h
  · cases h
    rintro ⟨⟩

theorem header (fuel : Nat) : NamesNothing (header fuel) :=
  .bind (nameSection fuel _) fun _ => .bind (nameSection fuel _) fun _ => .bind (nameSection fuel _) fun _ => .pure _

end NamesNothing

/-! ### Names of a header -/

def HeaderNames.Plain (names : HeaderNames) : Prop :=
  (∀ n ∈ names.1, IsIdent n) ∧ (∀ n ∈ names.2.1, IsIdent n) ∧ ∀ n ∈ names.2.2, IsIdent n

end Parse

open Parse (HeaderNames headers)

variable {ts us rest : List Token} {n : String} {names : HeaderNames} {i : Indicator} {f : Failure} {d : Description}

theorem Spells.isIdent {tips : List (Kind × String)} (h : Spells tips us) (hus : ∀ t ∈ us, t.Plain)
    (hn : (.ident, n) ∈ tips) : IsIdent n := by
  induction h with
  | nil => cases hn
  | @cons tip t tips us hshows _ ih =>
    obtain ⟨ht, hus⟩ := List.forall_mem_cons.1 hus
    rcases List.mem_cons.1 hn with rfl | hn
    · -- An identifier has no spelling of its own, so that of the token is taken.
      have hspelled : t.Spelled := by
        intro s hs
        rw [hshows.1] at hs
        exact nomatch hs
      have htext : t.text = n := hshows.2 hspelled
      exact htext ▸ ht hshows.1
    · exact ih hus hn

theorem Section.mem_tips (s : Section) {ns : List String} (h : n ∈ ns) : (.ident, n) ∈ (s.defTree ns).tips := by
  have hnames : (.ident, n) ∈ (s.namesTree ns).tips := by
    induction ns with
    | nil => cases h
    | cons m ns ih =>
      cases ns with
      | nil => simpa [namesTree, nameTree, Tree.tips, Tree.tipsAll] using h
      | cons m' ns =>
        rcases List.mem_cons.1 h with rfl | h
        · exact List.mem_cons_self
        · simp [namesTree, Tree.tips, Tree.tipsAll, ih h]
  simp [defTree, seqTree, Tree.tips, Tree.tipsAll, List.ne_nil_of_mem h, hnames]

theorem plain_of_spells (h : Spells (Tree.tipsAll names.trees) us) (hus : ∀ t ∈ us, t.Plain) : names.Plain := by
  refine ⟨fun n hn => h.isIdent hus ?_, fun n hn => h.isIdent hus ?_, fun n hn => h.isIdent hus ?_⟩ <;>
    simp [HeaderNames.trees, Tree.tipsAll, Section.mem_tips _ hn]

/-! ### Mending -/

/-- Tokens as they are while a description is mended: in all of them the names are as they were written, or there is
already a header in front. -/
def Opens (ts : List Token) : Prop :=
  ∃ before behind, ts = before ++ behind ∧ (∀ t ∈ before, t.Plain) ∧ (behind = [] ∨ kinds before ∈ headers)

def Mends (f : Failure) (rest : List Token) : Prop :=
  passOver f = some rest ∨ ∃ finish, putIn finish f = some rest

theorem Mends.plain (h : Mends f rest) (hwanted : Parse.NoName f.wanted) (hts : ∀ t ∈ f.rest, t.Plain) :
    ∀ t ∈ rest, t.Plain := by
  obtain ⟨ts, wanted⟩ := f
  rcases h with h | ⟨finish, h⟩
  · unfold passOver at h
    split at h
    · next bad next more k heq =>
      cases heq
      split at h
      · next hkind =>
        cases h
        have hpassed : (passedOver bad next).kind = k := by
          unfold passedOver
          split <;> exact hkind
        intro t ht
        rcases List.mem_cons.1 ht with rfl | ht
        · intro hident
          exact absurd (congrArg Wanted.mark (hpassed.symm.trans hident)) hwanted
        · exact hts t (by simp [ht])
      · exact nomatch h
    · next bad next more ks heq =>
      cases heq
      split at h
      · cases h
        exact fun t ht => hts t (List.mem_cons_of_mem _ ht)
      · exact nomatch h
    · exact nomatch h
  · unfold putIn at h
    split at h
    · next more k heq =>
      cases heq
      cases h
      intro t ht
      rcases List.mem_cons.1 ht with rfl | ht
      · intro hident
        exact absurd (congrArg Wanted.mark hident) hwanted
      · exact hts t ht
    · exact nomatch h

theorem readBefore_eq {before : List Token} (ts : List Token) (h : ts = before ++ f.rest) :
    readBefore ts f = before := by
  rw [readBefore, h, List.length_append, Nat.add_sub_cancel, List.take_left]

theorem length_lt_fuelFor (ts : List Token) : ts.length < fuelFor ts := by
  unfold fuelFor
  omega

/-- A header is read from tokens that are as they were written, or it is the one that stands in front. -/
theorem Opens.header (h : Opens ts) :
    (∃ before behind names, ts = before ++ behind ∧ Parse.header (fuelFor ts) ts = .ok (names, behind) ∧
      kinds before ∈ headers ∧ (∀ t ∈ before, t.Plain) ∧ names.Plain) ∨
    ∃ before f, ts = before ++ f.rest ∧ Parse.header (fuelFor ts) ts = .error f ∧ ∀ t ∈ ts, t.Plain := by
  obtain ⟨before, behind, hts, hplain, rfl | hword⟩ := h
  · rw [List.append_nil] at hts
    subst hts
    have houtcome := @Parse.header_outcome ts _ 0 (length_lt_fuelFor ts)
    generalize Parse.header (fuelFor ts) ts = r at houtcome ⊢
    cases houtcome with
    | @read names us rest hts hspells hword =>
      subst hts
      have hus : ∀ t ∈ us, t.Plain := fun t ht => hplain t (List.mem_append_left _ ht)
      exact .inl ⟨us, rest, names, rfl, rfl, hword, hus, plain_of_spells hspells hus⟩
    | @failed f us hts => exact .inr ⟨us, f, hts, rfl, hplain⟩
  · have houtcome := @Parse.header_outcome (before ++ behind) (fuelFor ts) {kinds behind}
      (hts ▸ length_lt_fuelFor ts)
    obtain ⟨names, hread, hspells⟩ := houtcome.reads_word hword
    subst hts
    exact .inl ⟨before, behind, names, rfl, hread, hword, hplain, plain_of_spells hspells hplain⟩

theorem body_suffix (h : Parse.body (fuelFor ts) rest = .error f) (hlength : rest.length ≤ ts.length) :
    ∃ before, rest = before ++ f.rest := by
  have hfuel : 2 * rest.length + 4 ≤ fuelFor ts := by
    unfold fuelFor
    omega
  have houtcome := (Parse.stmtFuel _ _ hfuel).body rest 0 le_rfl nofun nofun
  rw [h] at houtcome
  cases houtcome with
  | failed hrest => exact ⟨_, hrest⟩

/-- Mending keeps the header that there is, and as long as there is none it keeps the names as they were written. -/
theorem Opens.mends (h : Opens ts) (hfails : Parse.declared (fuelFor ts) i ts = .error f) (hrest : Mends f rest) :
    Opens (readBefore ts f ++ rest) := by
  rw [Parse.declared_eq] at hfails
  rcases h.header with ⟨before, behind, names, hts, hread, hword, hplain, -⟩ | ⟨before, f', hts, hread, hplain⟩
  · rcases Parse.bind_eq_error hfails with hheader | ⟨_, _, hheader, hbehind⟩
    · exact nomatch hread.symm.trans hheader
    · cases hread.symm.trans hheader
      rcases Parse.bind_eq_error hbehind with hbody | ⟨_, _, -, hlast⟩
      · obtain ⟨between, hbetween⟩ := body_suffix hbody (by simp [hts])
        refine ⟨before, between ++ rest, ?_, hplain, .inr hword⟩
        rw [readBefore_eq ts (hts.trans (by rw [hbetween, List.append_assoc])), List.append_assoc]
      · exact nomatch hlast
  · rcases Parse.bind_eq_error hfails with hheader | ⟨_, _, hheader, -⟩
    · cases hread.symm.trans hheader
      rw [readBefore_eq ts hts]
      rw [hts] at hplain
      refine ⟨before ++ rest, [], (List.append_nil _).symm, fun t ht => ?_, .inl rfl⟩
      rcases List.mem_append.1 ht with ht | ht
      · exact hplain t (List.mem_append_left _ ht)
      · exact hrest.plain (Parse.NamesNothing.header _ _ _ hread) (fun t ht => hplain t (List.mem_append_right _ ht)) t ht
    · exact nomatch hread.symm.trans hheader

/-- The names in the header of a description are identifiers. -/
def Description.Plain (d : Description) : Prop :=
  HeaderNames.Plain (d.stateVars, d.holeVars, d.packetFields)

theorem Opens.declared (h : Opens ts) (hd : Parse.declared (fuelFor ts) i ts = .ok (d, rest)) : d.Plain := by
  rw [Parse.declared_eq] at hd
  obtain ⟨names, ts', hheader, hd⟩ := Parse.bind_eq_ok.1 hd
  obtain ⟨statements, ts'', -, hd⟩ := Parse.bind_eq_ok.1 hd
  cases hd
  rcases h.header with ⟨_, _, _, -, hread, -, -, hplain⟩ | ⟨_, _, -, hread, -⟩
  · cases hread.symm.trans hheader
    exact hplain
  · exact nomatch hread.symm.trans hheader

theorem declaredMending_plain {finish : Position} {budget : Nat} (h : Opens ts)
    (hd : declaredMending finish i budget ts = some d) : d.Plain := by
  induction budget generalizing ts with
  | zero => exact nomatch hd
  | succ budget ih =>
    rw [declaredMending] at hd
    split at hd
    · next d' rest hdeclared =>
      cases hd
      exact h.declared hdeclared
    · next f hfails =>
      split at hd
      · next rest hpassed => exact ih (h.mends hfails (.inl hpassed)) hd
      · split at hd
        · exact nomatch hd
        · next rest hput =>
          have hopens := h.mends hfails (.inr ⟨finish, hput⟩)
          dsimp only at hd
          split at hd
          · next d' rest hdeclared =>
            cases hd
            exact hopens.declared hdeclared
          · split at hd
            · exact ih hopens hd
            · exact nomatch hd

theorem indicatorMending_suffix (ts : List Token) : (indicatorMending ts).2 <:+ ts := by
  unfold indicatorMending
  split
  · next result heq =>
    have houtcome := @Parse.indicator_outcome ts 0
    rw [heq] at houtcome
    cases houtcome with
    | read hts => exact ⟨_, hts.symm⟩
  · exact List.dropWhile_suffix _

/-- The names that a description declares are identifiers, however much of it had to be mended. -/
theorem Source.read_plain {text : String} (h : Source.read (lex text) = .whole d) : d.Plain := by
  unfold Source.read at h
  dsimp only at h
  split at h
  · next d' hd =>
    cases h
    refine declaredMending_plain ⟨_, [], (List.append_nil _).symm, fun t ht => ?_, .inl rfl⟩ hd
    exact lex_plain (List.mem_filter.1 ((indicatorMending_suffix _).subset ht)).1
  · exact nomatch h

end SwitchSynth.Alu
