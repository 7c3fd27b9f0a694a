import SwitchSynth.P4.Form
import SwitchSynth.Proofs.Sketch.Meaning

/-!
# Forms mean their primitives

For each value of its hole a primitive is replaced by a form. `Form.Computes` says which value a form has for
the values of its operands, and how tightly it binds. The text of the form then reads as that value, and it
is the value that the primitive has in a sketch.
-/

namespace SwitchSynth.P4

open Alu (TempSort)
open Reading
open Sketch (Primitive Signature sortLevel)

namespace Form

/-- The value of a form for the values of its operands, which bind at a level, and the level at which the form
itself binds. -/
inductive Computes (operandLevel : Nat) (vs : List Int) : Nat → Form → Int → Prop where
  | operand {n : Nat} {v : Int} : vs[n]? = some v → Computes operandLevel vs operandLevel (operand (n + 1)) v
  | true : Computes operandLevel vs atomLevel (word "true") 1
  | false : Computes operandLevel vs atomLevel (word "false") 0
  | numeral {s : String} : IsNumeral s →
      Computes operandLevel vs atomLevel (word s) (Reading.numeral s)
  | group {level : Nat} {f : Form} {v : Int} : Computes operandLevel vs level f v → 1 ≤ level →
      Computes operandLevel vs atomLevel (group f) v
  | minus {level : Nat} {f : Form} {v : Int} : Computes operandLevel vs level f v → 1 ≤ level →
      Computes operandLevel vs 6 (minus (group f)) (-v)
  | not {level : Nat} {f : Form} {v : Int} : Computes operandLevel vs level f v → 1 ≤ level →
      Computes operandLevel vs 3 (not (group f)) (bit (v = 0))
  | join {o : Operator} {op : String} {a b : Form} {v w : Int} : Spells op.toList o →
      Computes operandLevel vs o.level a v → Computes operandLevel vs (o.level + 1) b w →
      Computes operandLevel vs o.level (join a op b) (o.apply v w)
  | mono {level level' : Nat} {f : Form} {v : Int} : Computes operandLevel vs level f v →
      level' ≤ level → Computes operandLevel vs level' f v

variable {σ : String → Int} {operandLevel level : Nat} {vs : List Int} {f : Form} {v : Int}
  {operands : List (Option String)}

def reading (operands : List (List Symbol)) : Form → List Symbol
  | operand 0 => chars "None"
  | operand (n + 1) => operands[n]?.getD (chars "None")
  | word s => chars s
  | group f => .char '(' :: f.reading operands ++ [.char ')']
  | minus f => .char '-' :: f.reading operands
  | not f => chars "not" ++ f.reading operands
  | join a op b =>
    a.reading operands ++ (.char ' ' :: (chars op ++ .char ' ' :: b.reading operands))

theorem chars_parentheses (s : String) :
    chars ("(" ++ s ++ ")") = .char '(' :: chars s ++ [.char ')'] := by
  rw [chars_append, chars_append]
  rfl

theorem reading_texts (operands : List (Option String)) (f : Form) :
    f.reading (operands.map fun t => chars (t.getD "None")) = chars (f.text operands) := by
  induction f with
  | operand n =>
    cases n with
    | zero => rfl
    | succ n => cases hn : operands[n]? <;> simp [reading, text, pick, hn]
  | word s => rfl
  | group f ih => rw [reading, text, chars_parentheses, ih]
  | minus f ih =>
    rw [reading, text, chars_append, ih]
    rfl
  | not f ih => rw [reading, text, chars_append, ih]
  | join a op b iha ihb =>
    rw [reading, iha, ihb]
    simp [text, chars]

theorem Computes.reads_reading {operands : List (List Symbol)} (h : Computes operandLevel vs level f v)
    (hoperands : ∀ (n : Nat) (v : Int), vs[n]? = some v →
      ∃ symbols, operands[n]? = some symbols ∧ Reads σ operandLevel symbols v) :
    Reads σ level (f.reading operands) v := by
  induction h with
  | @operand n v hv =>
    obtain ⟨symbols, hsymbols, hread⟩ := hoperands n v hv
    simpa [reading, hsymbols] using hread
  | true => exact reads_true
  | false => exact reads_false
  | numeral hs => exact reads_numeral hs
  | group _ hlevel ih => exact reads_group ih hlevel
  | minus _ hlevel ih => exact reads_minus ih hlevel
  | not _ hlevel ih => exact reads_not ih hlevel
  | join hop _ _ iha ihb => exact reads_spaced hop iha ihb
  | mono _ hle ih => exact ih.mono hle

def OperandsRead (σ : String → Int) (operandLevel : Nat) (vs : List Int)
    (operands : List (Option String)) : Prop :=
  ∀ (n : Nat) (v : Int), vs[n]? = some v →
    ∃ t, operands[n]? = some (some t) ∧ Reads σ operandLevel (chars t) v

theorem Computes.reads (h : Computes operandLevel vs level f v)
    (hoperands : OperandsRead σ operandLevel vs operands) :
    Reads σ level (chars (f.text operands)) v := by
  rw [← reading_texts]
  refine h.reads_reading fun n v hv => ?_
  obtain ⟨t, ht, hread⟩ := hoperands n v hv
  exact ⟨chars t, by simp [ht], hread⟩

theorem Computes.value_eq (h : Computes operandLevel vs level f v)
    (hoperands : ∀ (n : Nat) (v : Int), vs[n]? = some v → ∃ t, operands[n]? = some (some t)) :
    f.value operands = some (f.text operands) := by
  induction h with
  | @operand n v hv =>
    obtain ⟨t, ht⟩ := hoperands n v hv
    simp [Form.value, Form.text, Form.pick, ht]
  | mono _ _ ih => exact ih
  | _ => rfl

end Form

/-- Values of a sort that say the same: integers are equal, truth values are equally true. -/
def Agree : TempSort → Int → Int → Prop
  | .int, v, w => v = w
  | .bit, v, w => v = 0 ↔ w = 0

theorem agree_refl (s : TempSort) (v : Int) : Agree s v v := by
  cases s with
  | int => rfl
  | bit => exact Iff.rfl

/-- Values that agree one by one. -/
inductive AgreeAll (s : TempSort) : List Int → List Int → Prop where
  | nil : AgreeAll s [] []
  | cons {v w : Int} {vs ws : List Int} : Agree s v w → AgreeAll s vs ws →
      AgreeAll s (v :: vs) (w :: ws)

variable {s t : TempSort} {vs ws : List Int} {p : Primitive} {σ : String → Int} {operands : List (Option String)}

theorem AgreeAll.uncons {n : Nat} (h : AgreeAll s vs ws)
    (hlength : vs.length = n + 1) :
    ∃ v w vs' ws', vs = v :: vs' ∧ ws = w :: ws' ∧ Agree s v w ∧ AgreeAll s vs' ws' ∧
      vs'.length = n := by
  cases h with
  | nil => exact nomatch hlength
  | @cons v w vs' ws' hv h => exact ⟨v, w, vs', ws', rfl, rfl, hv, h, Nat.succ.inj hlength⟩

theorem AgreeAll.eq_nil (h : AgreeAll s vs ws)
    (hlength : vs.length = 0) : vs = [] ∧ ws = [] := by
  cases h with
  | nil => exact ⟨rfl, rfl⟩
  | cons _ _ => exact nomatch hlength

theorem AgreeAll.getElem? {k : Nat} {v : Int} (h : AgreeAll s vs ws)
    (hv : vs[k]? = some v) : ∃ w, ws[k]? = some w ∧ Agree s v w := by
  induction h generalizing k with
  | nil => exact nomatch hv
  | @cons v' w' _ _ hagree _ ih =>
    cases k with
    | zero =>
      cases hv
      exact ⟨w', rfl, hagree⟩
    | succ k => exact ih hv

theorem AgreeAll.two (h : AgreeAll s vs ws)
    (hlength : vs.length = 2) :
    ∃ a b a' b', vs = [a, b] ∧ ws = [a', b'] ∧ Agree s a a' ∧ Agree s b b' := by
  obtain ⟨a, a', _, _, rfl, rfl, ha, h, hlength⟩ := h.uncons hlength
  obtain ⟨b, b', _, _, rfl, rfl, hb, h, hlength⟩ := h.uncons hlength
  obtain ⟨rfl, rfl⟩ := h.eq_nil hlength
  exact ⟨a, b, a', b', rfl, rfl, ha, hb⟩

/-! ### One primitive after the other -/

section Primitives

variable {t : TempSort} {a b c d a' b' c' d' : Int} {operands : List (Option String)}
  (constants : List String) (n : Nat)

/-- The form for a value of the hole computes what the helper returns. -/
def Decodes (t s : TempSort) (vs ws : List Int) (p : Primitive) (operands : List (Option String))
    (constants : List String) (n : Nat) : Prop :=
  ∃ v, Form.Computes (sortLevel t) vs (sortLevel s) ((forms p operands).select n) v ∧
    Agree s v (p.apply constants n ws)

/-- For a value of the hole, the operand at a place is passed on, in the form and by the helper. -/
def Passes (p : Primitive) (operands : List (Option String)) (n k : Nat) : Prop :=
  (forms p operands).select n = .operand (k + 1) ∧ p.choice.select n = .operand (k + 1)

theorem mux2_passes (operands : List (Option String)) : ∃ k < 2, Passes .mux2 operands n k := by
  rcases n with _ | n
  · exact ⟨0, by decide, rfl, rfl⟩
  · exact ⟨1, by decide, rfl, rfl⟩

theorem mux3_passes (operands : List (Option String)) : ∃ k < 3, Passes .mux3 operands n k := by
  rcases n with _ | _ | n
  · exact ⟨0, by decide, rfl, rfl⟩
  · exact ⟨1, by decide, rfl, rfl⟩
  · exact ⟨2, by decide, rfl, rfl⟩

theorem mux4_passes (operands : List (Option String)) : ∃ k < 4, Passes .mux4 operands n k := by
  rcases n with _ | _ | _ | n
  · exact ⟨0, by decide, rfl, rfl⟩
  · exact ⟨1, by decide, rfl, rfl⟩
  · exact ⟨2, by decide, rfl, rfl⟩
  · exact ⟨3, by decide, rfl, rfl⟩

/-- The last two operands of a five-way multiplexer change places for two values of the hole. -/
theorem mux5_passes (operands : List (Option String)) (hn : ¬ (n = 3 ∨ n = 4)) : ∃ k < 5, Passes .mux5 operands n k := by
  rcases n with _ | _ | _ | _ | _ | n
  · exact ⟨0, by decide, rfl, rfl⟩
  · exact ⟨1, by decide, rfl, rfl⟩
  · exact ⟨2, by decide, rfl, rfl⟩
  · exact absurd (.inl rfl) hn
  · exact absurd (.inr rfl) hn
  · exact ⟨4, by decide, rfl, rfl⟩

section Passes

variable {p : Primitive} {n k : Nat} {v : Int} {vs ws : List Int}

theorem Passes.computes (h : Passes p operands n k) {level : Nat} (hv : vs[k]? = some v) :
    Form.Computes level vs level ((forms p operands).select n) v := by
  rw [h.1]
  exact .operand hv

theorem Passes.apply_eq (h : Passes p operands n k) (hp : p ≠ .boolOp) (hv : vs[k]? = some v) :
    p.apply constants n vs = v := by
  rw [Primitive.apply, h.2, Primitive.received, if_neg hp]
  simp [Sketch.Term.eval, hv]

theorem Passes.decodes (h : Passes p operands n k) (hp : p ≠ .boolOp) (hagree : AgreeAll t vs ws)
    (hk : k < vs.length) : Decodes t t vs ws p operands constants n := by
  have hv : vs[k]? = some vs[k] := List.getElem?_eq_getElem hk
  obtain ⟨w, hw, hvw⟩ := hagree.getElem? hv
  refine ⟨vs[k], h.computes hv, ?_⟩
  rw [h.apply_eq constants hp hw]
  exact hvw

end Passes

theorem mux3Num_decodes {digits : String} (hdigits : IsNumeral digits) (ha : Agree t a a')
    (hb : Agree t b b') :
    Decodes t t [a, b] [a', b'] (.mux3Num digits) operands constants n := by
  rcases n with _ | _ | n
  · exact ⟨a, .operand rfl, ha⟩
  · exact ⟨b, .operand rfl, hb⟩
  · exact ⟨numeral digits, .mono (.numeral hdigits) (Sketch.sortLevel_le_atomLevel t), agree_refl t _⟩

section Int

variable {a b : Int}

variable {level : Nat} {σ : String → Int}

theorem first_computes (hlevel : 1 ≤ level) : Form.Computes level [a, b] atomLevel .first a :=
  .group (.operand rfl) hlevel

theorem second_computes (hlevel : 1 ≤ level) :
    Form.Computes level [a, b] atomLevel .second b :=
  .group (.operand rfl) hlevel

theorem joined_computes (hlevel : 1 ≤ level) {o : Operator} {op : String}
    (hop : Spells op.toList o) :
    Form.Computes level [a, b] o.level (.join .first op .second) (o.apply a b) := by
  have hfirst := (first_computes (a := a) (b := b) hlevel).mono (Nat.le_of_lt o.level_lt_atomLevel)
  exact .join hop hfirst ((second_computes hlevel).mono o.level_lt_atomLevel)

theorem computeAlu_computes (hlevel : 1 ≤ level) :
    Form.Computes level [a, b] 5 ((forms .computeAlu operands).select n)
      (Primitive.computeAlu.apply constants n [a, b]) := by
  have hfirst := first_computes (a := a) (b := b) hlevel
  have hsecond := second_computes (a := a) (b := b) hlevel
  rcases n with _ | _ | _ | _ | _ | _ | n
  · exact joined_computes hlevel spells_add
  · exact joined_computes hlevel spells_sub
  · exact .join spells_sub (hsecond.mono (by decide)) (hfirst.mono (by decide))
  · exact hsecond.mono (by decide)
  · exact hfirst.mono (by decide)
  · exact .mono (.numeral ⟨by decide, by decide⟩) (by decide)
  · exact .mono (.numeral ⟨by decide, by decide⟩) (by decide)

theorem computeAlu_decodes : Decodes .int .int [a, b] [a, b] .computeAlu operands constants n :=
  ⟨_, computeAlu_computes constants n (Sketch.one_le_sortLevel .int), rfl⟩

theorem relOp_computes (hlevel : 1 ≤ level) :
    Form.Computes level [a, b] 4 ((forms .relOp operands).select n)
      (Primitive.relOp.apply constants n [a, b]) := by
  rcases n with _ | _ | _ | n
  · exact joined_computes hlevel spells_ne
  · exact joined_computes hlevel spells_lt
  · exact joined_computes hlevel spells_gt
  · exact joined_computes hlevel spells_eq

theorem relOp_decodes : Decodes .int .bit [a, b] [a, b] .relOp operands constants n :=
  ⟨_, .mono (relOp_computes constants n (Sketch.one_le_sortLevel .int)) (by decide), agree_refl .bit _⟩

theorem arithOp_computes (hlevel : 1 ≤ level)
    (hfirst : Form.pick operands 1 = some "0" → a = 0)
    (hsecond : Form.pick operands 2 = some "0" → b = 0) :
    Form.Computes level [a, b] 5 ((forms .arithOp operands).select n)
      (Primitive.arithOp.apply constants n [a, b]) := by
  have happly : Primitive.arithOp.apply constants n [a, b] = if n = 0 then a + b else a - b := by
    cases n <;> rfl
  rw [happly]
  unfold forms
  by_cases hzero : Form.pick operands 1 = some "0"
  · simp only [hzero, if_true, hfirst hzero]
    rcases n with _ | n
    · rw [if_pos rfl, Int.zero_add]
      exact .mono (second_computes hlevel) (by decide)
    · rw [if_neg (Nat.succ_ne_zero n), Int.zero_sub]
      exact .mono (.group (.minus (.operand rfl) hlevel) (by decide)) (by decide)
  · simp only [hzero, if_false]
    by_cases hzero : Form.pick operands 2 = some "0"
    · simp only [hzero, if_true, hsecond hzero, Int.add_zero, Int.sub_zero, ite_self]
      exact .mono (first_computes hlevel) (by decide)
    · simp only [hzero, if_false]
      rcases n with _ | n
      · exact joined_computes hlevel spells_add
      · exact joined_computes hlevel spells_sub

theorem eq_zero_of_text {vs : List Int} {k : Nat} {v : Int}
    (hoperands : Form.OperandsRead σ (sortLevel .int) vs operands) (hv : vs[k]? = some v)
    (htext : Form.pick operands (k + 1) = some "0") : v = 0 := by
  obtain ⟨s, hs, hread⟩ := hoperands k v hv
  simp only [Form.pick, hs, Option.join_some, Option.some.injEq] at htext
  subst htext
  exact hread.unique (by decide) (reads_numeral ⟨by decide, by decide⟩) (by decide)

theorem arithOp_decodes
    (hoperands : Form.OperandsRead σ (sortLevel .int) [a, b] operands) :
    Decodes .int .int [a, b] [a, b] .arithOp operands constants n :=
  ⟨_, arithOp_computes constants n (Sketch.one_le_sortLevel .int) (eq_zero_of_text hoperands rfl)
    (eq_zero_of_text hoperands rfl), rfl⟩

end Int

section Bit

variable {a b a' b' : Int}

theorem not_first_computes : Form.Computes 1 [a, b] 3 (.not .first) (bit (a = 0)) :=
  .not (.operand rfl) (by decide)

theorem not_second_computes : Form.Computes 1 [a, b] 3 (.not .second) (bit (b = 0)) :=
  .not (.operand rfl) (by decide)

/-- The first operand negated, in parentheses, and the second one behind an operator. -/
theorem not_first_joined {o : Operator} {op : String} (hop : Spells op.toList o) :
    Form.Computes 1 [a, b] o.level (.join (.group (.not .first)) op .second)
      (o.apply (bit (a = 0)) b) := by
  have hfirst : Form.Computes 1 [a, b] atomLevel (.group (.not .first)) (bit (a = 0)) :=
    .group not_first_computes (by decide)
  exact .join hop (hfirst.mono (Nat.le_of_lt o.level_lt_atomLevel))
    ((second_computes (by decide)).mono o.level_lt_atomLevel)

theorem not_second_joined {o : Operator} {op : String} (hop : Spells op.toList o) :
    Form.Computes 1 [a, b] o.level (.join .first op (.group (.not .second)))
      (o.apply a (bit (b = 0))) := by
  have hsecond : Form.Computes 1 [a, b] atomLevel (.group (.not .second)) (bit (b = 0)) :=
    .group not_second_computes (by decide)
  exact .join hop ((first_computes (by decide)).mono (Nat.le_of_lt o.level_lt_atomLevel))
    (hsecond.mono o.level_lt_atomLevel)

/-- The value is a truth value, except where the form is one of the operands. -/
theorem boolOp_computes (a b : Int) (operands : List (Option String)) :
    ∃ v, Form.Computes 1 [a, b] 1 ((forms .boolOp operands).select n) v ∧
      bit (v ≠ 0) = Primitive.boolOp.apply constants n [a, b] ∧ (v = bit (v ≠ 0) ∨ v ∈ [a, b]) := by
  have hone : 1 ≤ 1 := Nat.le_refl 1
  have htruth {f : Form} {p q : Prop} [Decidable p] [Decidable q]
      (hf : Form.Computes 1 [a, b] 1 f (bit p)) (hpq : p ↔ q) :
      ∃ v, Form.Computes 1 [a, b] 1 f v ∧ bit (v ≠ 0) = bit q ∧ (v = bit (v ≠ 0) ∨ v ∈ [a, b]) := by
    have hbit : bit (bit p ≠ 0) = bit p := by by_cases hp : p <;> simp [bit, hp]
    exact ⟨bit p, hf, hbit.trans (by simp only [hpq]), .inl hbit.symm⟩
  rcases n with _ | _ | _ | _ | _ | _ | _ | _ | _ | _ | _ | _ | _ | _ | _ | n
  · exact ⟨0, .mono .false (by decide), rfl, .inl rfl⟩
  · exact htruth (.mono (.not (joined_computes hone spells_or) (by decide)) (by decide))
      (by simp [Operator.apply, Sketch.Term.eval, Primitive.received])
  · exact htruth (.mono (not_first_joined spells_and) (by decide))
      (by simp [Sketch.Term.eval, Primitive.received])
  · exact htruth (.mono not_first_computes (by decide))
      (by simp [Sketch.Term.eval, Primitive.received])
  · exact htruth (.mono (not_second_joined spells_and) (by decide))
      (by simp [Sketch.Term.eval, Primitive.received])
  · exact htruth (.mono not_second_computes (by decide))
      (by simp [Sketch.Term.eval, Primitive.received])
  · exact htruth (.mono (joined_computes hone spells_and) (by decide))
      (by simp [Sketch.Term.eval, Primitive.received])
  · exact htruth (.mono (.not (joined_computes hone spells_and) (by decide)) (by decide))
      (by simp [Operator.apply, Sketch.Term.eval, Primitive.received])
  · exact htruth (.mono (joined_computes hone spells_and) (by decide))
      (by simp [Sketch.Term.eval, Primitive.received])
  · exact htruth (.mono (.not (joined_computes hone spells_and) (by decide)) (by decide))
      (by simp [Operator.apply, Sketch.Term.eval, Primitive.received])
  · exact ⟨b, .mono (second_computes hone) (by decide), rfl, .inr (by simp)⟩
  · exact htruth (.mono (not_first_joined spells_or) (by decide))
      (by simp [Sketch.Term.eval, Primitive.received])
  · exact ⟨a, .mono (first_computes hone) (by decide), rfl, .inr (by simp)⟩
  · exact htruth (.mono (not_second_joined spells_or) (by decide))
      (by simp [Sketch.Term.eval, Primitive.received])
  · exact htruth (.mono (joined_computes hone spells_or) (by decide))
      (by simp [Sketch.Term.eval, Primitive.received])
  · exact ⟨1, .mono .true (by decide), rfl, .inl rfl⟩

theorem boolOp_apply_eq (ha : Agree .bit a a') (hb : Agree .bit b b') :
    Primitive.boolOp.apply constants n [a, b] = Primitive.boolOp.apply constants n [a', b'] := by
  have ha : a = 0 ↔ a' = 0 := ha
  have hb : b = 0 ↔ b' = 0 := hb
  simp [Primitive.apply, Primitive.received, ha, hb]

theorem boolOp_decodes (ha : Agree .bit a a') (hb : Agree .bit b b') :
    Decodes .bit .bit [a, b] [a', b'] .boolOp operands constants n := by
  obtain ⟨v, hv, htruth, -⟩ := boolOp_computes constants n a b operands
  refine ⟨v, hv, ?_⟩
  rw [← boolOp_apply_eq constants n ha hb, ← htruth]
  show v = 0 ↔ bit (v ≠ 0) = 0
  simp

end Bit

end Primitives

/-- For every value of its hole, the form of a primitive computes what the helper of the primitive returns. -/
theorem decodes (hsig : Signature p t s) (hp : p ≠ .constant)
    (hagree : AgreeAll t vs ws) (hlength : vs.length = p.arity)
    (hoperands : Form.OperandsRead σ (sortLevel t) vs operands) (constants : List String) (n : Nat) :
    Decodes t s vs ws p operands constants n := by
  cases hsig with
  | constant => exact absurd rfl hp
  | mux2 =>
    obtain ⟨k, hk, hpass⟩ := mux2_passes n operands
    exact hpass.decodes constants nofun hagree (hlength ▸ hk)
  | mux3 =>
    obtain ⟨k, hk, hpass⟩ := mux3_passes n operands
    exact hpass.decodes constants nofun hagree (hlength ▸ hk)
  | mux3Num _ hdigits =>
    obtain ⟨a, b, a', b', rfl, rfl, ha, hb⟩ := hagree.two hlength
    exact mux3Num_decodes constants n hdigits ha hb
  | mux4 =>
    obtain ⟨k, hk, hpass⟩ := mux4_passes n operands
    exact hpass.decodes constants nofun hagree (hlength ▸ hk)
  | arithOp =>
    obtain ⟨a, b, _, _, rfl, rfl, rfl, rfl⟩ := hagree.two hlength
    exact arithOp_decodes constants n hoperands
  | computeAlu =>
    obtain ⟨a, b, _, _, rfl, rfl, rfl, rfl⟩ := hagree.two hlength
    exact computeAlu_decodes constants n
  | relOp =>
    obtain ⟨a, b, _, _, rfl, rfl, rfl, rfl⟩ := hagree.two hlength
    exact relOp_decodes constants n
  | boolOp =>
    obtain ⟨a, b, a', b', rfl, rfl, ha, hb⟩ := hagree.two hlength
    exact boolOp_decodes constants n ha hb

/-- A primitive is replaced by a text that reads as what its helper returns. -/
theorem resolve_reads (hsig : Signature p t s) (hp : p ≠ .constant)
    (hagree : AgreeAll t vs ws) (hlength : vs.length = p.arity)
    (hoperands : Form.OperandsRead σ (sortLevel t) vs operands) (constants : List String) (n : Nat) :
    ∃ text v, resolve p operands n = some text ∧ Reads σ (sortLevel s) (chars text) v ∧
      Agree s v (p.apply constants n ws) := by
  obtain ⟨v, hv, hagrees⟩ := decodes hsig hp hagree hlength hoperands constants n
  have hvalue := hv.value_eq fun k w hw => (hoperands k w hw).imp fun _ ht => ht.1
  exact ⟨_, v, hvalue, hv.reads hoperands, hagrees⟩

end SwitchSynth.P4
