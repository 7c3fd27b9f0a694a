import SwitchSynth.Proofs.Sketch.Meaning
import SwitchSynth.Proofs.Text

/-!
# Calls and the helpers they name

A call may name a helper other than its own. That is harmless if the helper takes as many operands and
returns the same for them. If each call in some code names such a helper, the code has the value it is meant
to have; and if all calls always have the values they are meant to have, each of them names such a helper.
-/

namespace SwitchSynth.Sketch

open Reading

variable {f f' : Family} {alu : String} {resolve : Resolve}

theorem Family.holeStem_inj (h : f.holeStem = f'.holeStem) : f = f' := by
  cases f <;> cases f' <;> first | rfl | exact absurd h (by decide)

theorem Family.helperStem_inj (h : f.helperStem = f'.helperStem) : f = f' := by
  cases f <;> cases f' <;> first | rfl | exact absurd h (by decide)

theorem Family.globalHole_inj {m n : Nat}
    (h : f.globalHole alu m = f'.globalHole alu n) : f = f' ∧ m = n := by
  have hhole : f.hole m = f'.hole n :=
    (String.append_right_inj _).1 ((String.append_left_inj _).1 h)
  obtain ⟨hstem, hnumber⟩ := Text.numbered_inj hhole
  exact ⟨Family.holeStem_inj hstem, hnumber⟩

theorem Family.helper_inj {m n : Nat}
    (h : f.helper alu m = f'.helper alu n) : f = f' ∧ m = n := by
  obtain ⟨hstem, hnumber⟩ := Text.numbered_inj h
  exact ⟨Family.helperStem_inj ((String.append_right_inj _).1 hstem), hnumber⟩

theorem namedHelper_family {helpers : List Helper} {p q : Primitive} {number : Nat}
    (h : namedHelper alu helpers p number = some q) : q.family = p.family := by
  obtain ⟨found, hfind, rfl⟩ := Option.map_eq_some_iff.1 h
  have hname : found.name alu = p.family.helper alu number := by
    simpa using List.find?_some hfind
  exact (Family.helper_inj hname).1

/-- The helper of a primitive can stand for that of another: it takes as many operands and returns the
same. -/
structure Primitive.Replaces (q p : Primitive) : Prop where
  arity_eq : q.arity = p.arity
  apply_eq : ∀ constants hole operands, q.apply constants hole operands = p.apply constants hole operands

theorem Primitive.replaces_refl (p : Primitive) : p.Replaces p :=
  ⟨rfl, fun _ _ _ => rfl⟩

/-- Code that stands somewhere in other code. -/
inductive Code.Part (c : Code) : Code → Prop where
  | self : Part c c
  | left {a b : Code} : Part c a → Part c (.append a b)
  | right {a b : Code} : Part c b → Part c (.append a b)
  | operand {p : Primitive} {helper hole : Nat} {operands : List Code} {o : Code} :
      o ∈ operands → Part c o → Part c (.call p helper operands hole)

/-- Each call names a helper that can stand for the one of its primitive. -/
def Code.CallsOwn (resolve : Resolve) (code : Code) : Prop :=
  ∀ p helper operands hole, Code.Part (.call p helper operands hole) code →
    ∃ q, resolve p helper = some q ∧ q.Replaces p

mutual
/-- Code all of whose calls name the right helpers has the symbols it is meant to have. -/
theorem Code.symbols_of_callsOwn (c : Circumstances) :
    ∀ code : Code, code.CallsOwn resolve → code.symbols resolve c = code.symbols ownHelper c
  | .text s, _ => by rw [Code.symbols, Code.symbols]
  | .append a b, h => by
    have ha := Code.symbols_of_callsOwn c a fun p k ops n hpart => h p k ops n (.left hpart)
    have hb := Code.symbols_of_callsOwn c b fun p k ops n hpart => h p k ops n (.right hpart)
    rw [Code.symbols, Code.symbols, ha, hb]
  | .call p helper operands hole, h => by
    have hvalues := Code.values_of_callsOwn c operands fun o ho p k ops n hpart =>
      h p k ops n (.operand ho hpart)
    obtain ⟨q, hq, hreplaces⟩ := h p helper operands hole .self
    rw [Code.symbols, Code.symbols, hvalues, hq]
    simp only [ownHelper, Option.bind_eq_bind, Option.bind_some, hreplaces.arity_eq,
      hreplaces.apply_eq]
  | .aluName, _ => by rw [Code.symbols, Code.symbols]
  | .parameters, _ => by rw [Code.symbols, Code.symbols]
theorem Code.values_of_callsOwn (c : Circumstances) :
    ∀ codes : List Code, (∀ o ∈ codes, o.CallsOwn resolve) →
      Code.values resolve c codes = Code.values ownHelper c codes
  | [], _ => by rw [Code.values, Code.values]
  | code :: rest, h => by
    have hcode := Code.symbols_of_callsOwn c code (h code List.mem_cons_self)
    have hrest := Code.values_of_callsOwn c rest fun o ho => h o (List.mem_cons_of_mem _ ho)
    rw [Code.values, Code.values, hcode, hrest]
end

variable {resolve : Resolve} {code : Code} {p q : Primitive}

theorem Code.value?_of_callsOwn (h : code.CallsOwn resolve)
    (c : Circumstances) : code.value? resolve c = code.value? ownHelper c := by
  rw [Code.value?, Code.value?, Code.symbols_of_callsOwn c code h]

theorem Code.Part.trans {a b c : Code} (hab : Code.Part a b) (hbc : Code.Part b c) :
    Code.Part a c := by
  induction hbc with
  | self => exact hab
  | left _ ih => exact .left ih
  | right _ ih => exact .right ih
  | operand ho _ ih => exact .operand ho ih

theorem Code.CallsOwn.part {a b : Code} (h : b.CallsOwn resolve)
    (hpart : Code.Part a b) : a.CallsOwn resolve :=
  fun p k ops n hcall => h p k ops n (hcall.trans hpart)

/-! ### Calls that have the right value name the right helper -/

/-- Values that the holes of a sketch can have. -/
structure Circumstances.Admissible (c : Circumstances) : Prop where
  within : ∀ (p : Primitive) (n : Nat), p ≠ .constant →
    (c.holes p.family n : Int) < Int.pow 2 (p.width 0).toNat
  constant : ∀ n, c.holes .constant n < c.constants.length

/-- The circumstances in which each three-way multiplexer passes on its last input. -/
def lastInputs : Circumstances where
  holes f _ := if f = .mux3 then 2 else 0
  constants := ["0"]
  names _ := 0

theorem lastInputs_admissible : lastInputs.Admissible where
  within p n _ := by cases p <;> exact of_decide_eq_true rfl
  constant _ := Nat.zero_lt_one

theorem Primitive.of_family_mux3 (h : p.family = .mux3) :
    p = .mux3 ∨ ∃ digits, p = .mux3Num digits := by
  cases p with
  | mux3 => exact .inl rfl
  | mux3Num digits => exact .inr ⟨digits, rfl⟩
  | _ => cases h

theorem Primitive.eq_or_mux3 (h : q.family = p.family) :
    q = p ∨ (q.family = .mux3 ∧ p.family = .mux3) := by
  by_cases hp : p.family = .mux3
  · exact .inr ⟨h.trans hp, hp⟩
  · refine .inl ?_
    cases p <;> cases q <;> first | rfl | exact absurd rfl hp | cases h

/-- Three-way multiplexers that take as many operands and have the same last input are the same. -/
theorem Primitive.replaces_of_last (hq : q.family = .mux3) (hp : p.family = .mux3)
    (harity : q.arity = p.arity) {constants : List String} {operands : List Int}
    (hlast : q.apply constants 2 operands = p.apply constants 2 operands) : q.Replaces p := by
  refine ⟨harity, fun constants hole vs => ?_⟩
  rcases Primitive.of_family_mux3 hp with rfl | ⟨d, rfl⟩
  · rcases Primitive.of_family_mux3 hq with rfl | ⟨d', rfl⟩
    · rfl
    · cases harity
  · rcases Primitive.of_family_mux3 hq with rfl | ⟨d', rfl⟩
    · cases harity
    · -- Both have a numeral as the last input, and it is what the value two selects.
      have hnumerals : numeral d' = numeral d := hlast
      rcases hole with _ | _ | hole
      · rfl
      · rfl
      · exact hnumerals

section Call

variable {resolve : Resolve} {c : Circumstances} {p : Primitive} {helper hole : Nat}
  {operands : List Code}

/-- A call has symbols if its operands have values and the helper it names takes as many. -/
theorem Code.symbols_call {symbols : List Symbol}
    (h : (Code.call p helper operands hole).symbols resolve c = some symbols) :
    ∃ vs q, Code.values resolve c operands = some vs ∧ resolve p helper = some q ∧
      vs.length = q.arity ∧
      symbols = .value (q.apply c.constants (c.holes p.family hole) vs) ::
        (if p.yieldsTruth then chars " == 1" else []) := by
  rw [Code.symbols] at h
  simp only [Option.bind_eq_bind, Option.bind_eq_some_iff] at h
  obtain ⟨vs, hvs, q, hq, h⟩ := h
  split at h
  next hlength =>
    cases h
    exact ⟨vs, q, hvs, hq, hlength, rfl⟩
  next => exact nomatch h

theorem Code.symbols_of_value? {code : Code} {v : Int} (h : code.value? resolve c = some v) :
    ∃ symbols, code.symbols resolve c = some symbols ∧ Reading.value? c.names symbols = some v :=
  Option.bind_eq_some_iff.1 h

theorem Code.symbols_of_values {codes : List Code} {vs : List Int}
    (h : Code.values resolve c codes = some vs) :
    ∀ o ∈ codes, ∃ symbols, o.symbols resolve c = some symbols := by
  induction codes generalizing vs with
  | nil => exact fun o ho => absurd ho List.not_mem_nil
  | cons code rest ih =>
    rw [Code.values_cons, Option.bind_eq_some_iff] at h
    obtain ⟨v, hv, h⟩ := h
    obtain ⟨ws, hws, -⟩ := Option.map_eq_some_iff.1 h
    obtain ⟨symbols, hsymbols, -⟩ := Code.symbols_of_value? hv
    intro o ho
    rcases List.mem_cons.1 ho with rfl | ho
    · exact ⟨symbols, hsymbols⟩
    · exact ih hws o ho

end Call

/-- In all circumstances, each call has the value it is meant to have. -/
def Code.Faithful (resolve : Resolve) (code : Code) : Prop :=
  ∀ p helper operands hole, Code.Part (.call p helper operands hole) code →
    ∀ c : Circumstances, c.Admissible →
      (Code.call p helper operands hole).value? resolve c =
        (Code.call p helper operands hole).value? ownHelper c

/-- A call whose operands are right, and that has the right value where the last inputs of multiplexers
count, names the right helper. -/
theorem Code.call_replaces {helper hole : Nat}
    {operands : List Code} (hfamily : ∀ {q}, resolve p helper = some q → q.family = p.family)
    {symbols : List Symbol}
    (hsymbols : (Code.call p helper operands hole).symbols ownHelper lastInputs = some symbols)
    (hoperands : ∀ o ∈ operands, o.CallsOwn resolve)
    (hvalue : (Code.call p helper operands hole).value? resolve lastInputs =
      (Code.call p helper operands hole).value? ownHelper lastInputs) :
    ∃ q, resolve p helper = some q ∧ q.Replaces p := by
  obtain ⟨vs, _, hvs, ⟨⟩, hlength, rfl⟩ := Code.symbols_call hsymbols
  have hown : (Code.call p helper operands hole).value? ownHelper lastInputs =
      some (p.apply lastInputs.constants (lastInputs.holes p.family hole) vs) := by
    rw [Code.value?, hsymbols, Option.bind_some]
    exact (reads_call lastInputs p _ vs).value?_eq (by split <;> decide)
  rw [hown] at hvalue
  obtain ⟨symbols', hsymbols', hread⟩ := Code.symbols_of_value? hvalue
  obtain ⟨vs', q, hvs', hq, hlength', rfl⟩ := Code.symbols_call hsymbols'
  refine ⟨q, hq, ?_⟩
  -- The operands have the same values for both helpers.
  rw [Code.values_of_callsOwn lastInputs operands hoperands, hvs] at hvs'
  cases hvs'
  rcases Primitive.eq_or_mux3 (hfamily hq) with rfl | ⟨hq3, hp3⟩
  · exact q.replaces_refl
  · have hplain : p.yieldsTruth = false := by
      rcases Primitive.of_family_mux3 hp3 with rfl | ⟨d, rfl⟩ <;> rfl
    have hhole : lastInputs.holes p.family hole = 2 := by rw [hp3]; rfl
    rw [hplain, hhole] at hread
    have hread' := Reads.value?_eq (σ := lastInputs.names)
      (reads_value (q.apply lastInputs.constants 2 vs)) (by decide)
    have hlast := Option.some.inj (hread'.symm.trans hread)
    exact Primitive.replaces_of_last hq3 hp3 (hlength'.symm.trans hlength) hlast

mutual
theorem Code.callsOwn_of_faithful
    (hfamily : ∀ {p k q}, resolve p k = some q → q.family = p.family) :
    ∀ code : Code, (∃ symbols, code.symbols ownHelper lastInputs = some symbols) →
      code.Faithful resolve → code.CallsOwn resolve
  | .text _, _, _ => fun _ _ _ _ hpart => nomatch hpart
  | .append a b, ⟨symbols, hsymbols⟩, hfaithful => by
    rw [Code.symbols] at hsymbols
    simp only [Option.bind_eq_bind, Option.bind_eq_some_iff] at hsymbols
    obtain ⟨as, has, bs, hbs, -⟩ := hsymbols
    have ha := Code.callsOwn_of_faithful hfamily a ⟨as, has⟩
      fun p k ops n hpart => hfaithful p k ops n (.left hpart)
    have hb := Code.callsOwn_of_faithful hfamily b ⟨bs, hbs⟩
      fun p k ops n hpart => hfaithful p k ops n (.right hpart)
    intro p k ops n hpart
    cases hpart with
    | left hpart => exact ha p k ops n hpart
    | right hpart => exact hb p k ops n hpart
  | .call p helper operands hole, ⟨symbols, hsymbols⟩, hfaithful => by
    obtain ⟨vs, _, hvs, -⟩ := Code.symbols_call hsymbols
    have hoperands := Code.operands_callsOwn hfamily operands (Code.symbols_of_values hvs)
      fun o ho p k ops n hpart => hfaithful p k ops n (.operand ho hpart)
    intro p' k ops n hpart
    cases hpart with
    | self =>
      exact Code.call_replaces hfamily hsymbols hoperands
        (hfaithful p helper operands hole .self lastInputs lastInputs_admissible)
    | operand ho hpart => exact hoperands _ ho p' k ops n hpart
  | .aluName, _, _ => fun _ _ _ _ hpart => nomatch hpart
  | .parameters, _, _ => fun _ _ _ _ hpart => nomatch hpart
theorem Code.operands_callsOwn
    (hfamily : ∀ {p k q}, resolve p k = some q → q.family = p.family) :
    ∀ codes : List Code,
      (∀ o ∈ codes, ∃ symbols, o.symbols ownHelper lastInputs = some symbols) →
      (∀ o ∈ codes, o.Faithful resolve) → ∀ o ∈ codes, o.CallsOwn resolve
  | [], _, _ => fun _ ho => absurd ho List.not_mem_nil
  | code :: rest, hsymbols, hfaithful => by
    have hcode := Code.callsOwn_of_faithful hfamily code (hsymbols code List.mem_cons_self)
      (hfaithful code List.mem_cons_self)
    have hrest := Code.operands_callsOwn hfamily rest
      (fun o ho => hsymbols o (List.mem_cons_of_mem _ ho))
      fun o ho => hfaithful o (List.mem_cons_of_mem _ ho)
    intro o ho
    rcases List.mem_cons.1 ho with rfl | ho
    · exact hcode
    · exact hrest o ho
end

/-- All calls always have the right value exactly if each names the right helper. -/
theorem Code.faithful_iff_callsOwn
    (hfamily : ∀ {p k q}, resolve p k = some q → q.family = p.family)
    (hsymbols : ∃ symbols, code.symbols ownHelper lastInputs = some symbols) :
    code.Faithful resolve ↔ code.CallsOwn resolve :=
  ⟨Code.callsOwn_of_faithful hfamily code hsymbols,
    fun h _ _ _ _ hpart c _ => Code.value?_of_callsOwn (h.part hpart) c⟩

end SwitchSynth.Sketch
