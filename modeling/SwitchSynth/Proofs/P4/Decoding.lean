import Mathlib.Data.List.Basic
import SwitchSynth.Proofs.P4.Forms
import SwitchSynth.Proofs.P4.Lowering

/-!
# Holes are decoded alike

A switch program replaces a primitive by a text, and a sketch calls a helper for it. Both go by the value of the
hole. Operands are any texts: an operand may be an expression that is read, or have a value that is known from
elsewhere. The text that takes the place of the primitive has the value that the helper returns, except that a
five-way multiplexer passes on its last two operands the other way round.
-/

namespace SwitchSynth.P4

open Reading
open Sketch (Primitive)

/-! ### Texts with values -/

/-- What a text is read as: its value where that is known from elsewhere, and its characters otherwise. -/
def symbolsOf (known : String → Option Int) (text : String) : List Symbol :=
  match known text with
  | some v => [.value v]
  | none => chars text

/-- Texts have values one by one. The text of zero has no other value than zero. -/
structure HaveValues (σ : String → Int) (known : String → Option Int) (texts : List String)
    (vs : List Int) : Prop where
  length_eq : texts.length = vs.length
  value?_eq : ∀ (n : Nat) (t : String) (v : Int), texts[n]? = some t → vs[n]? = some v →
    value? σ (symbolsOf known t) = some v
  zero : ∀ v, known "0" = some v → v = 0

namespace HaveValues

variable {σ : String → Int} {known : String → Option Int} {texts : List String} {vs : List Int} {n : Nat}
  {v : Int}

theorem text_of_value (h : HaveValues σ known texts vs) (hv : vs[n]? = some v) :
    ∃ t, texts[n]? = some t ∧ value? σ (symbolsOf known t) = some v := by
  have hlt : n < texts.length := by
    rw [h.length_eq]
    exact (List.getElem?_eq_some_iff.1 hv).1
  have ht := List.getElem?_eq_getElem hlt
  exact ⟨texts[n], ht, h.value?_eq n _ v ht hv⟩

theorem reads (h : HaveValues σ known texts vs) (n : Nat) (v : Int) (hv : vs[n]? = some v) :
    ∃ symbols, (texts.map (symbolsOf known))[n]? = some symbols ∧ Reads σ 1 symbols v := by
  obtain ⟨t, ht, hvalue⟩ := h.text_of_value hv
  exact ⟨symbolsOf known t, by simp [ht], reads_of_value? hvalue⟩

theorem eq_zero (h : HaveValues σ known texts vs) (hv : vs[n]? = some v)
    (htext : Form.pick (texts.map some) (n + 1) = some "0") : v = 0 := by
  obtain ⟨t, ht, hvalue⟩ := h.text_of_value hv
  obtain rfl : t = "0" := by simpa [Form.pick, ht] using htext
  unfold symbolsOf at hvalue
  cases hknown : known "0" with
  | some w =>
    rw [hknown] at hvalue
    have hw : w = v := Option.some.inj (((reads_value w).value?_eq (by decide)).symm.trans hvalue)
    rw [← hw, h.zero w hknown]
  | none =>
    rw [hknown] at hvalue
    have hzero : Reads σ atomLevel (chars "0") 0 := reads_numeral ⟨by decide, by decide⟩
    exact Option.some.inj (hvalue.symm.trans (hzero.value?_eq (by decide)))

end HaveValues

/-! ### The value of what takes the place of a primitive -/

/-- What the helper of a primitive returns, where the constants have any values. -/
def returned (constants : List String) (vector : List Int) (p : Primitive) (hole : Nat)
    (operands : List Int) : Int :=
  match p with
  | .constant => vector[hole]?.getD 0
  | p => p.apply constants hole operands

/-- How the text that takes the place of a primitive is read. -/
def evaluatedReading (known : String → Option Int) (constants texts : List String) (p : Primitive)
    (hole : Nat) : List Symbol :=
  match p with
  | .constant => (Form.operand (hole + 1)).reading (constants.map (symbolsOf known))
  | p => ((forms p (texts.map some)).select hole).reading (texts.map (symbolsOf known))

/-- Operands and constants with values: the operands of a boolean operator are bits. -/
structure Supplied (σ : String → Int) (known : String → Option Int) (p : Primitive)
    (constants texts : List String) (vector vs : List Int) : Prop where
  operands : HaveValues σ known texts vs
  arity : vs.length = p.arity
  bits : p = .boolOp → ∀ v ∈ vs, v = 0 ∨ v = 1
  constants : p = .constant → HaveValues σ known constants vector

theorem computes_apply {p : Primitive} {operands : List (Option String)} {vs : List Int} {n : Nat}
    (constants : List String) (hp : p ≠ .constant) (hswap : ¬ (p = .mux5 ∧ (n = 3 ∨ n = 4)))
    (hdigits : ∀ digits, p = .mux3Num digits → IsNumeral digits) (hlength : vs.length = p.arity)
    (hbits : p = .boolOp → ∀ v ∈ vs, v = 0 ∨ v = 1)
    (hzero : ∀ (k : Nat) (v : Int), vs[k]? = some v → Form.pick operands (k + 1) = some "0" → v = 0) :
    Form.Computes 1 vs 1 ((forms p operands).select n) (p.apply constants n vs) := by
  have hpasses (hbool : p ≠ .boolOp) (hpass : ∃ k < p.arity, Passes p operands n k) :
      Form.Computes 1 vs 1 ((forms p operands).select n) (p.apply constants n vs) := by
    obtain ⟨k, hk, hpass⟩ := hpass
    have hv : vs[k]? = some vs[k] := List.getElem?_eq_getElem (hlength ▸ hk)
    rw [hpass.apply_eq constants hbool hv]
    exact hpass.computes hv
  cases p with
  | constant => exact absurd rfl hp
  | mux2 => exact hpasses nofun (mux2_passes n operands)
  | mux3 => exact hpasses nofun (mux3_passes n operands)
  | mux4 => exact hpasses nofun (mux4_passes n operands)
  | mux5 => exact hpasses nofun (mux5_passes n operands fun hn => hswap ⟨rfl, hn⟩)
  | mux3Num digits =>
    rcases n with _ | _ | n
    · exact hpasses nofun ⟨0, Nat.zero_lt_two, rfl, rfl⟩
    · exact hpasses nofun ⟨1, Nat.one_lt_two, rfl, rfl⟩
    · exact .mono (.numeral (hdigits digits rfl)) (by decide)
  | opt =>
    rcases n with _ | n
    · exact hpasses nofun ⟨0, by decide, rfl, rfl⟩
    · exact .mono (.numeral ⟨by decide, by decide⟩) (by decide)
  | relOp =>
    obtain ⟨a, b, rfl⟩ := List.length_eq_two.1 hlength
    exact .mono (relOp_computes constants n (Nat.le_refl 1)) (by decide)
  | computeAlu =>
    obtain ⟨a, b, rfl⟩ := List.length_eq_two.1 hlength
    exact .mono (computeAlu_computes constants n (Nat.le_refl 1)) (by decide)
  | arithOp =>
    obtain ⟨a, b, rfl⟩ := List.length_eq_two.1 hlength
    exact .mono (arithOp_computes constants n (Nat.le_refl 1) (hzero 0 a rfl) (hzero 1 b rfl)) (by decide)
  | boolOp =>
    obtain ⟨a, b, rfl⟩ := List.length_eq_two.1 hlength
    obtain ⟨v, hv, htruth, hbit⟩ := boolOp_computes constants n a b operands
    -- An operand that is passed on is a bit, and so its own truth value.
    have hv' : v = bit (v ≠ 0) := by
      rcases hbit with hbit | hmem
      · exact hbit
      · rcases hbits rfl v hmem with rfl | rfl <;> rfl
    rw [← htruth, ← hv']
    exact hv

/-- A primitive is replaced by a text, which has the value that the helper of the primitive returns. -/
def Decoded (σ : String → Int) (known : String → Option Int) (p : Primitive)
    (constants texts : List String) (vector vs : List Int) (n : Nat) : Prop :=
  ∃ text, evaluated constants p (texts.map some) n = .ok (some text) ∧
    ((∀ t, known t = none) → evaluatedReading known constants texts p n = chars text) ∧
    value? σ (evaluatedReading known constants texts p n) = some (returned constants vector p n vs)

namespace Supplied

variable {σ : String → Int} {known : String → Option Int} {p : Primitive} {constants texts : List String}
  {vector vs : List Int} {n : Nat}

theorem constant_decoded (h : Supplied σ known .constant constants texts vector vs)
    (hn : n < constants.length) : Decoded σ known .constant constants texts vector vs n := by
  have hvalues := h.constants rfl
  have hc : constants[n]? = some constants[n] := List.getElem?_eq_getElem hn
  obtain ⟨v, hv⟩ : ∃ v, vector[n]? = some v :=
    ⟨_, List.getElem?_eq_getElem (hvalues.length_eq ▸ hn)⟩
  have hreading : evaluatedReading known constants texts .constant n = symbolsOf known constants[n] := by
    simp [evaluatedReading, Form.reading, hc]
  refine ⟨constants[n], ?_, fun hknown => ?_, ?_⟩
  · show (atPlace constants (Int.ofNat n)).map some = _
    rw [atPlace, hc]
    rfl
  · rw [hreading, symbolsOf, hknown]
  · rw [hreading, hvalues.value?_eq n _ v hc hv]
    simp [returned, hv]

theorem form_decoded (h : Supplied σ known p constants texts vector vs) (hp : p ≠ .constant)
    (hswap : ¬ (p = .mux5 ∧ (n = 3 ∨ n = 4)))
    (hdigits : ∀ digits, p = .mux3Num digits → IsNumeral digits) :
    Decoded σ known p constants texts vector vs n := by
  have hcomputes := computes_apply constants hp hswap hdigits h.arity h.bits
    fun k v hv htext => h.operands.eq_zero hv htext
  have hvalue := (hcomputes.reads_reading h.operands.reads).value?_eq (Nat.le_refl 1)
  have htexts (k : Nat) (v : Int) (hv : vs[k]? = some v) : ∃ t, (texts.map some)[k]? = some (some t) := by
    obtain ⟨t, ht, -⟩ := h.operands.text_of_value hv
    exact ⟨t, by simp [ht]⟩
  have htext := hcomputes.value_eq htexts
  have hreading (hknown : ∀ t, known t = none) :
      texts.map (symbolsOf known) = (texts.map some).map fun t => chars (t.getD "None") := by
    simp [symbolsOf, hknown]
  have hevaluated : evaluated constants p (texts.map some) n = .ok (resolve p (texts.map some) n) := by
    cases p with
    | constant => exact absurd rfl hp
    | _ => rfl
  have hsymbols : evaluatedReading known constants texts p n =
      ((forms p (texts.map some)).select n).reading (texts.map (symbolsOf known)) := by
    cases p with
    | constant => exact absurd rfl hp
    | _ => rfl
  have hreturned : returned constants vector p n vs = p.apply constants n vs := by
    cases p with
    | constant => exact absurd rfl hp
    | _ => rfl
  refine ⟨_, hevaluated.trans (congrArg Except.ok htext), fun hknown => ?_, ?_⟩
  · rw [hsymbols, hreading hknown, Form.reading_texts]
  · rw [hsymbols, hvalue, hreturned]

end Supplied

theorem haveValues_numerals : HaveValues (fun _ => 0) (fun _ => none) ["0", "1", "2", "3", "4"]
    [0, 1, 2, 3, 4] := by
  refine ⟨rfl, fun n t v ht hv => ?_, fun v hv => nomatch hv⟩
  rcases n with _ | _ | _ | _ | _ | n
  all_goals first | (cases ht; cases hv; decide) | exact nomatch ht

/-- The text that takes the place of a primitive has the value which the helper of the primitive returns, for
all operands and all values of the hole, except where a five-way multiplexer changes its last two operands. -/
theorem decoded_as_helper_returns_iff_not_swapped (p : Primitive) (constants : List String) (n : Nat)
    (hdigits : ∀ digits, p = .mux3Num digits → IsNumeral digits)
    (hn : p = .constant → n < constants.length) :
    (∀ σ known texts vector vs, Supplied σ known p constants texts vector vs →
      Decoded σ known p constants texts vector vs n) ↔ ¬ (p = .mux5 ∧ (n = 3 ∨ n = 4)) := by
  constructor
  · rintro h ⟨rfl, hswap⟩
    obtain ⟨_, -, -, hvalue⟩ := h _ _ _ [] _ ⟨haveValues_numerals, rfl, nofun, nofun⟩
    rcases hswap with rfl | rfl
    · have hfifth : value? (fun _ => 0) (chars "4") = some 3 := hvalue
      exact absurd hfifth (by decide)
    · have hfourth : value? (fun _ => 0) (chars "3") = some 4 := hvalue
      exact absurd hfourth (by decide)
  · intro hswap σ known texts vector vs h
    by_cases hp : p = .constant
    · subst hp
      exact h.constant_decoded (hn rfl)
    · exact h.form_decoded hp hswap hdigits

/-- The value 3 leads to the fourth operand in the helper and to the fifth one in the text. Literals and
constants are decoded as they should be. -/
theorem mux5_three_is_swapped_literals_and_constants_are_not :
    (¬ ∀ σ known texts vector vs, Supplied σ known .mux5 [] texts vector vs →
      Decoded σ known .mux5 [] texts vector vs 3) ∧
    (∀ σ known texts vector vs, Supplied σ known (.mux3Num "7") [] texts vector vs →
      Decoded σ known (.mux3Num "7") [] texts vector vs 3) ∧
    ∀ σ known texts vector vs, Supplied σ known .constant ["1", "x - 2"] texts vector vs →
      Decoded σ known .constant ["1", "x - 2"] texts vector vs 1 := by
  refine ⟨fun h => ?_, ?_, ?_⟩
  · exact (decoded_as_helper_returns_iff_not_swapped .mux5 [] 3 nofun nofun).1 h ⟨rfl, .inl rfl⟩
  · refine (decoded_as_helper_returns_iff_not_swapped (.mux3Num "7") [] 3 ?_ nofun).2 (by decide)
    rintro digits hdigits
    cases hdigits
    exact ⟨by decide, by decide⟩
  · exact (decoded_as_helper_returns_iff_not_swapped .constant ["1", "x - 2"] 1 nofun
      fun _ => by decide).2 (by decide)

end SwitchSynth.P4
