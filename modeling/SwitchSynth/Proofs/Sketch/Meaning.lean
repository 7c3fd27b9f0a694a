import SwitchSynth.Proofs.Reading
import SwitchSynth.Sketch.StatefulAlu

/-!
# What the expressions of stateful ALUs mean

With values for the holes, the constants and the variables, an expression has a value: each primitive is
applied to the values of its operands as its hole says. The primitives are numbered in the order in which
their operands are done, and the hole of a primitive goes by its number.

The code of an expression has a value too. A call is evaluated by looking up the helper it names. If every
call named the helper of its own primitive, the code would mean the expression.
-/

namespace SwitchSynth.Sketch

open Alu (Expr TempSort)
open Reading

/-- The value of a term, for the value of the hole and those of the operands. -/
def Term.eval (constants : List String) (hole : Nat) (operands : List Int) : Term → Int
  | operand n => operands[n - 1]?.getD 0
  | numeral digits => Reading.numeral digits
  | constant => (constants[hole]?.map Reading.numeral).getD 0
  | sum a b => a.eval constants hole operands + b.eval constants hole operands
  | difference a b => a.eval constants hole operands - b.eval constants hole operands
  | compare .ne a b => bit (a.eval constants hole operands ≠ b.eval constants hole operands)
  | compare .lt a b => bit (a.eval constants hole operands < b.eval constants hole operands)
  | compare .gt a b => bit (a.eval constants hole operands > b.eval constants hole operands)
  | compare .eq a b => bit (a.eval constants hole operands = b.eval constants hole operands)
  | falsity => 0
  | truth => 1
  | not a => bit (a.eval constants hole operands = 0)
  | and a b => bit (a.eval constants hole operands ≠ 0 ∧ b.eval constants hole operands ≠ 0)
  | or a b => bit (a.eval constants hole operands ≠ 0 ∨ b.eval constants hole operands ≠ 0)

namespace Primitive

def arity : Primitive → Nat
  | mux5 => 5 | mux4 => 4 | mux3 => 3 | mux3Num _ => 2 | mux2 => 2 | relOp => 2 | arithOp => 2
  | opt => 1 | constant => 0 | computeAlu => 2 | boolOp => 2

/-- The operands as the helper receives them: those of a boolean operator are single bits. -/
def received (p : Primitive) (operands : List Int) : List Int :=
  if p = boolOp then operands.map fun v => bit (v ≠ 0) else operands

/-- What the helper of a primitive returns for a value of its hole. -/
def apply (p : Primitive) (constants : List String) (hole : Nat) (operands : List Int) : Int :=
  (p.choice.select hole).eval constants hole (p.received operands)

end Primitive

/-- Values for all that an expression does not decide by itself. -/
structure Circumstances where
  holes : Family → Nat → Nat
  constants : List String
  names : String → Int

/-- Apply a primitive to operands. Its number is the one that is free after them. -/
def applyPrimitive (c : Circumstances) (p : Primitive) (operands : List (StateM (List Helper) Int)) :
    StateM (List Helper) Int := do
  let values ← operands.mapM id
  let number := familyCount p.family (← get)
  modify fun helpers => helpers ++ [⟨p, number⟩]
  return p.apply c.constants (c.holes p.family number) values

def infixValue : Alu.BinaryOp → Int → Int → Int
  | .add, a, b => a + b
  | .sub, a, b => a - b
  | .mul, a, b => a * b
  | .div, a, b => a.tdiv b
  | .eq, a, b => bit (a = b)
  | .gt, a, b => bit (a > b)
  | .ge, a, b => bit (a ≥ b)
  | .lt, a, b => bit (a < b)
  | .le, a, b => bit (a ≤ b)
  | .ne, a, b => bit (a ≠ b)
  | .and, a, b => bit (a ≠ 0 ∧ b ≠ 0)
  | .or, a, b => bit (a ≠ 0 ∨ b ≠ 0)

/-- The value of an expression, behind the helpers of those before it. -/
def meaning (c : Circumstances) : Expr → StateM (List Helper) Int
  | .var name => return c.names name
  | .num digits => return numeral digits
  | .truth => return 1
  | .const => applyPrimitive c .constant []
  | .paren inner _ => meaning c inner
  | .binary op left right => do
    let l ← meaning c left
    let r ← meaning c right
    return infixValue op l r
  | .not operand => return bit ((← meaning c operand) = 0)
  | .ternary condition yes no => do
    let t ← meaning c condition
    let y ← meaning c yes
    let n ← meaning c no
    return if t ≠ 0 then y else n
  | .mux2 a b => applyPrimitive c .mux2 [meaning c a, meaning c b]
  | .mux3 a b d => applyPrimitive c .mux3 [meaning c a, meaning c b, meaning c d]
  | .mux3Num a b digits => applyPrimitive c (.mux3Num digits) [meaning c a, meaning c b]
  | .mux4 a b d e => applyPrimitive c .mux4 [meaning c a, meaning c b, meaning c d, meaning c e]
  | .mux5 a b d e f =>
    applyPrimitive c .mux5 [meaning c a, meaning c b, meaning c d, meaning c e, meaning c f]
  | .opt operand => applyPrimitive c .opt [meaning c operand]
  | .arith a b => applyPrimitive c .arithOp [meaning c a, meaning c b]
  | .compute a b => applyPrimitive c .computeAlu [meaning c a, meaning c b]
  | .rel a b => applyPrimitive c .relOp [meaning c a, meaning c b]
  | .bool a b => applyPrimitive c .boolOp [meaning c a, meaning c b]

def primitive? : Expr → Option (Primitive × List Expr)
  | .const => some (.constant, [])
  | .mux2 a b => some (.mux2, [a, b])
  | .mux3 a b c => some (.mux3, [a, b, c])
  | .mux3Num a b digits => some (.mux3Num digits, [a, b])
  | .mux4 a b c d => some (.mux4, [a, b, c, d])
  | .mux5 a b c d e => some (.mux5, [a, b, c, d, e])
  | .opt operand => some (.opt, [operand])
  | .arith a b => some (.arithOp, [a, b])
  | .compute a b => some (.computeAlu, [a, b])
  | .rel a b => some (.relOp, [a, b])
  | .bool a b => some (.boolOp, [a, b])
  | _ => none

section Primitives

variable {e : Expr} {p : Primitive} {es : List Expr}

theorem meaning_of_primitive (h : primitive? e = some (p, es)) (c : Circumstances) :
    meaning c e = applyPrimitive c p (es.map (meaning c)) := by
  cases e <;> cases h <;> rfl

theorem exprCode_of_primitive (h : primitive? e = some (p, es)) :
    StatefulAlu.exprCode e = StatefulAlu.call p (es.map StatefulAlu.exprCode) := by
  cases e <;> cases h <;> rfl

theorem length_of_primitive (h : primitive? e = some (p, es)) : es.length = p.arity := by
  cases e <;> cases h <;> rfl

end Primitives

/-! ### Behind some helpers -/

theorem familyCount_append_self (f : Family) (hs : List Helper) (p : Primitive) (n : Nat) :
    familyCount f (hs ++ [⟨p, n⟩]) = familyCount f hs + if p.family = f then 1 else 0 := by
  rw [familyCount, List.countP_append]
  by_cases h : p.family = f <;> simp [familyCount, h]

abbrev codeOf (e : Expr) (hs : List Helper) : Code :=
  ((StatefulAlu.exprCode e).run hs).1

abbrev helpersAfter (e : Expr) (hs : List Helper) : List Helper :=
  ((StatefulAlu.exprCode e).run hs).2

abbrev meaningOf (c : Circumstances) (e : Expr) (hs : List Helper) : Int :=
  ((meaning c e).run hs).1

def helpersAfterAll (es : List Expr) (hs : List Helper) : List Helper :=
  es.foldl (fun hs e => helpersAfter e hs) hs

def codesOf : List Expr → List Helper → List Code
  | [], _ => []
  | e :: es, hs => codeOf e hs :: codesOf es (helpersAfter e hs)

/-- The values of expressions one after the other. -/
def meaningsOf (c : Circumstances) : List Expr → List Helper → List Int
  | [], _ => []
  | e :: es, hs => meaningOf c e hs :: meaningsOf c es (helpersAfter e hs)

theorem run_codes (es : List Expr) (hs : List Helper) :
    ((es.map StatefulAlu.exprCode).mapM id).run hs = (codesOf es hs, helpersAfterAll es hs) := by
  induction es generalizing hs with
  | nil => rfl
  | cons e es ih =>
    rw [List.map_cons, List.mapM_cons]
    show ((codeOf e hs :: (((es.map StatefulAlu.exprCode).mapM id).run (helpersAfter e hs)).1,
      (((es.map StatefulAlu.exprCode).mapM id).run (helpersAfter e hs)).2) :
        List Code × List Helper) = _
    rw [ih]
    rfl

variable {es : List Expr} {p : Primitive} {t s : TempSort}

theorem run_meanings {c : Circumstances}
    (hes : ∀ e ∈ es, ∀ hs, ((meaning c e).run hs).2 = helpersAfter e hs) (hs : List Helper) :
    ((es.map (meaning c)).mapM id).run hs = (meaningsOf c es hs, helpersAfterAll es hs) := by
  induction es generalizing hs with
  | nil => rfl
  | cons e es ih =>
    rw [List.map_cons, List.mapM_cons]
    show ((meaningOf c e hs :: (((es.map (meaning c)).mapM id).run ((meaning c e).run hs).2).1,
      (((es.map (meaning c)).mapM id).run ((meaning c e).run hs).2).2) :
        List Int × List Helper) = _
    rw [hes e List.mem_cons_self, ih fun e he => hes e (List.mem_cons_of_mem _ he)]
    rfl

section Primitives

variable {e : Expr} {p : Primitive} {es : List Expr}

theorem run_exprCode_of_primitive (h : primitive? e = some (p, es)) (hs : List Helper) :
    (StatefulAlu.exprCode e).run hs =
      (.call p (familyCount p.family hs) (codesOf es hs)
          (familyCount p.family (helpersAfterAll es hs)),
        helpersAfterAll es hs ++ [⟨p, familyCount p.family (helpersAfterAll es hs)⟩]) := by
  have hrun := run_codes es hs
  rw [exprCode_of_primitive h]
  show ((.call p (familyCount p.family hs) (((es.map StatefulAlu.exprCode).mapM id).run hs).1
      (familyCount p.family (((es.map StatefulAlu.exprCode).mapM id).run hs).2),
    (((es.map StatefulAlu.exprCode).mapM id).run hs).2 ++
      [⟨p, familyCount p.family (((es.map StatefulAlu.exprCode).mapM id).run hs).2⟩]) :
        Code × List Helper) = _
  rw [hrun]

theorem run_meaning_of_primitive {c : Circumstances} (h : primitive? e = some (p, es))
    (hes : ∀ e ∈ es, ∀ hs, ((meaning c e).run hs).2 = helpersAfter e hs) (hs : List Helper) :
    (meaning c e).run hs =
      (p.apply c.constants (c.holes p.family (familyCount p.family (helpersAfterAll es hs)))
          (meaningsOf c es hs), helpersAfter e hs) := by
  have hrun := run_meanings hes hs
  have hafter : helpersAfter e hs = _ := congrArg Prod.snd (run_exprCode_of_primitive h hs)
  rw [meaning_of_primitive h, hafter]
  show ((p.apply c.constants
      (c.holes p.family (familyCount p.family (((es.map (meaning c)).mapM id).run hs).2))
      (((es.map (meaning c)).mapM id).run hs).1,
    (((es.map (meaning c)).mapM id).run hs).2 ++
      [⟨p, familyCount p.family (((es.map (meaning c)).mapM id).run hs).2⟩]) :
        Int × List Helper) = _
  rw [hrun]

end Primitives

/-! ### The fragment -/

/-- The sort of the operands of a primitive and that of its value. Multiplexers and constants have values of
any sort. -/
inductive Signature : Primitive → TempSort → TempSort → Prop where
  | constant (s : TempSort) : Signature .constant s s
  | mux2 (s : TempSort) : Signature .mux2 s s
  | mux3 (s : TempSort) : Signature .mux3 s s
  | mux3Num (s : TempSort) {digits : String} : IsNumeral digits → Signature (.mux3Num digits) s s
  | mux4 (s : TempSort) : Signature .mux4 s s
  | arithOp : Signature .arithOp .int .int
  | computeAlu : Signature .computeAlu .int .int
  | relOp : Signature .relOp .int .bit
  | boolOp : Signature .boolOp .bit .bit

/-- Expressions that stand by themselves in a sum. -/
def IsAtomic : Expr → Prop
  | .var _ | .num _ | .const | .paren _ _ => True
  | _ => False

/-- The expressions that stateful ALUs of switches are written in, by their sort. -/
inductive InFragment : TempSort → Expr → Prop where
  | var {s : TempSort} {name : String} : IsName name → InFragment s (.var name)
  | num {s : TempSort} {digits : String} : IsNumeral digits → InFragment s (.num digits)
  | paren {s : TempSort} {e : Expr} : InFragment s e → InFragment s (.paren e ")")
  | sum {op : Alu.BinaryOp} {l r : Expr} : op = .add ∨ op = .sub → InFragment .int l →
      InFragment .int r → IsAtomic r → InFragment .int (.binary op l r)
  | primitive {s t : TempSort} {e : Expr} {p : Primitive} {es : List Expr} :
      primitive? e = some (p, es) → Signature p t s → (∀ x ∈ es, InFragment t x) → InFragment s e

/-- How tightly the expressions of a sort bind at least. -/
def sortLevel : TempSort → Nat
  | .int => 5
  | .bit => 1

theorem Signature.sortLevel_le (h : Signature p t s) :
    sortLevel s ≤ if p.yieldsTruth then 4 else atomLevel := by
  cases h with
  | constant => cases t <;> decide
  | mux2 => cases t <;> decide
  | mux3 => cases t <;> decide
  | mux3Num => cases t <;> simp [sortLevel, Primitive.yieldsTruth, atomLevel]
  | mux4 => cases t <;> decide
  | arithOp => decide
  | computeAlu => decide
  | relOp => decide
  | boolOp => decide

theorem Signature.family_ne_opt (h : Signature p t s) :
    p.family ≠ .opt := by
  cases h <;> exact fun heq => nomatch heq

theorem one_le_sortLevel (s : TempSort) : 1 ≤ sortLevel s := by
  cases s <;> decide

theorem sortLevel_le_atomLevel (s : TempSort) : sortLevel s ≤ atomLevel := by
  cases s <;> decide

theorem helpersAfterAll_extends
    (hes : ∀ e ∈ es, ∀ hs, hs <+: helpersAfter e hs) (hs : List Helper) :
    hs <+: helpersAfterAll es hs := by
  induction es generalizing hs with
  | nil => exact List.prefix_refl hs
  | cons e es ih =>
    exact (hes e List.mem_cons_self hs).trans
      (ih (fun e he => hes e (List.mem_cons_of_mem _ he)) (helpersAfter e hs))

theorem helpersAfter_extends {e : Expr} (h : InFragment s e) (hs : List Helper) :
    hs <+: helpersAfter e hs := by
  induction h generalizing hs with
  | var => exact List.prefix_refl hs
  | num => exact List.prefix_refl hs
  | paren _ ih => exact ih hs
  | @sum op l r _ _ _ _ ihl ihr => exact (ihl hs).trans (ihr (helpersAfter l hs))
  | primitive hp _ _ ih =>
    have hafter : helpersAfter _ hs = _ := congrArg Prod.snd (run_exprCode_of_primitive hp hs)
    rw [hafter]
    exact (helpersAfterAll_extends (fun e he hs => ih e he hs) hs).trans (List.prefix_append _ _)

/-! ### The value of code -/

/-- Which primitive a call of a helper of a number stands for. -/
abbrev Resolve := Primitive → Nat → Option Primitive

mutual
/-- The symbols of code, in which every call is replaced by its value. A call needs a helper that takes as
many operands as there are. -/
def Code.symbols (resolve : Resolve) (c : Circumstances) : Code → Option (List Symbol)
  | .text s => some (chars s)
  | .append a b => do return (← a.symbols resolve c) ++ (← b.symbols resolve c)
  | .call p helper operands hole => do
    let values ← Code.values resolve c operands
    let q ← resolve p helper
    if values.length = q.arity then
      return .value (q.apply c.constants (c.holes p.family hole) values) ::
        (if p.yieldsTruth then chars " == 1" else [])
    else none
  | .aluName | .parameters => none
def Code.values (resolve : Resolve) (c : Circumstances) : List Code → Option (List Int)
  | [] => some []
  | code :: rest => do
    let v ← (← code.symbols resolve c) |> value? c.names
    return v :: (← Code.values resolve c rest)
end

def Code.value? (resolve : Resolve) (c : Circumstances) (code : Code) : Option Int :=
  (code.symbols resolve c).bind (Reading.value? c.names)

def ownHelper : Resolve := fun p _ => some p

/-- A call stands for the helper that has the name it calls. -/
def namedHelper (alu : String) (helpers : List Helper) : Resolve := fun p number =>
  (helpers.find? fun h => h.name alu = p.family.helper alu number).map Helper.primitive

/-! ### Code means its expression -/

theorem bit_eq_zero_or_one (p : Prop) [Decidable p] : bit p = 0 ∨ bit p = 1 := by
  unfold bit
  split
  · exact .inr rfl
  · exact .inl rfl

/-- The terms that have a truth value, for operands that are single bits. -/
def Term.IsTruth : Term → Prop
  | operand _ | compare _ _ _ | falsity | truth | not _ | and _ _ | or _ _ => True
  | _ => False

theorem Term.eval_truth {t : Term} (ht : t.IsTruth) {constants : List String} {hole : Nat}
    {operands : List Int} (hoperands : ∀ v ∈ operands, v = 0 ∨ v = 1) :
    t.eval constants hole operands = 0 ∨ t.eval constants hole operands = 1 := by
  cases t with
  | operand n =>
    unfold Term.eval
    cases hv : operands[n - 1]? with
    | none => exact .inl rfl
    | some v => exact hoperands v (List.mem_of_getElem? hv)
  | compare c a b => cases c <;> exact bit_eq_zero_or_one _
  | falsity => exact .inl rfl
  | truth => exact .inr rfl
  | not a => exact bit_eq_zero_or_one _
  | and a b => exact bit_eq_zero_or_one _
  | or a b => exact bit_eq_zero_or_one _
  | numeral digits => exact ht.elim
  | constant => exact ht.elim
  | sum a b => exact ht.elim
  | difference a b => exact ht.elim

theorem Choice.select_of_all {P : Term → Prop} {c : Choice} (hcases : ∀ t ∈ c.cases, P t)
    (hother : P c.otherwise) (n : Nat) : P (c.select n) := by
  unfold Choice.select
  cases h : c.cases[n]? with
  | none => exact hother
  | some t => exact hcases t (List.mem_of_getElem? h)

theorem Primitive.apply_truth {p : Primitive} (hp : p.yieldsTruth = true) (constants : List String)
    (hole : Nat) (operands : List Int) :
    p.apply constants hole operands = 0 ∨ p.apply constants hole operands = 1 := by
  cases p with
  | relOp =>
    -- All its terms are comparisons, whatever the operands are.
    have hcompare : ∃ c a b, Primitive.relOp.choice.select hole = .compare c a b :=
      Choice.select_of_all (P := fun t => ∃ c a b, t = .compare c a b)
        (by simp [Primitive.choice]) (by simp [Primitive.choice]) hole
    obtain ⟨c, a, b, hselect⟩ := hcompare
    unfold Primitive.apply
    rw [hselect]
    cases c <;> exact bit_eq_zero_or_one _
  | boolOp =>
    have htruth : (Primitive.boolOp.choice.select hole).IsTruth :=
      Choice.select_of_all (by simp [Primitive.choice, Term.IsTruth]) trivial hole
    refine Term.eval_truth htruth fun v hv => ?_
    obtain ⟨u, -, rfl⟩ := List.mem_map.1 hv
    exact bit_eq_zero_or_one _
  | _ => exact nomatch hp

variable {s : TempSort} {op : Alu.BinaryOp} {resolve : Resolve} {c : Circumstances}

theorem InFragment.helpers_eq {e : Expr} (h : InFragment s e) (c : Circumstances)
    (hs : List Helper) : ((meaning c e).run hs).2 = helpersAfter e hs := by
  induction h generalizing hs with
  | var => rfl
  | num => rfl
  | paren _ ih => exact ih hs
  | @sum op l r _ _ _ _ ihl ihr =>
    show ((meaning c r).run ((meaning c l).run hs).2).2 = helpersAfter r (helpersAfter l hs)
    rw [ihl, ihr]
  | primitive hp _ _ ih => rw [run_meaning_of_primitive hp fun e he hs => ih e he hs]

theorem meaningOf_sum {l : Expr} (hl : InFragment .int l) (r : Expr)
    (c : Circumstances) (hs : List Helper) :
    meaningOf c (.binary op l r) hs =
      infixValue op (meaningOf c l hs) (meaningOf c r (helpersAfter l hs)) := by
  rw [← hl.helpers_eq c hs]
  rfl

theorem length_meaningsOf (c : Circumstances) (es : List Expr) (hs : List Helper) :
    (meaningsOf c es hs).length = es.length := by
  induction es generalizing hs with
  | nil => rfl
  | cons e es ih => simp [meaningsOf, ih]

theorem Code.values_cons (code : Code) (rest : List Code) :
    Code.values resolve c (code :: rest) =
      (code.value? resolve c).bind fun v => (Code.values resolve c rest).map (v :: ·) := by
  rw [Code.values, Code.value?]
  cases code.symbols resolve c with
  | none => rfl
  | some symbols =>
    simp only [Option.bind_eq_bind, Option.bind_some, Option.pure_def]
    cases Reading.value? c.names symbols with
    | none => rfl
    | some v => cases Code.values resolve c rest <;> rfl

theorem values_codesOf {es : List Expr}
    (hes : ∀ e ∈ es, ∀ hs, (codeOf e hs).value? ownHelper c = some (meaningOf c e hs))
    (hs : List Helper) : Code.values ownHelper c (codesOf es hs) = some (meaningsOf c es hs) := by
  induction es generalizing hs with
  | nil => simp [codesOf, Code.values, meaningsOf]
  | cons e es ih =>
    rw [codesOf, Code.values_cons, hes e List.mem_cons_self,
      ih fun e he => hes e (List.mem_cons_of_mem _ he)]
    rfl

theorem reads_call (c : Circumstances) (p : Primitive) (hole : Nat) (operands : List Int) :
    Reads c.names (if p.yieldsTruth then 4 else atomLevel)
      (.value (p.apply c.constants hole operands) ::
        (if p.yieldsTruth then chars " == 1" else []))
      (p.apply c.constants hole operands) := by
  cases hp : p.yieldsTruth with
  | false => exact reads_value _
  | true =>
    have hone : Reads c.names 5 (chars "1") 1 :=
      (reads_numeral ⟨by decide, by decide⟩).mono (by decide)
    have hread := reads_spaced spells_eq
      ((reads_value (p.apply c.constants hole operands)).mono (by decide)) hone
    -- What is compared with one is zero or one.
    have hbit : Operator.eq.apply (p.apply c.constants hole operands) 1 =
        p.apply c.constants hole operands := by
      rcases Primitive.apply_truth hp c.constants hole operands with h | h <;> rw [h] <;> rfl
    rw [hbit] at hread
    exact hread

theorem Code.symbols_append {a b : Code}
    {as bs : List Symbol} (ha : a.symbols resolve c = some as) (hb : b.symbols resolve c = some bs) :
    (a ++ b).symbols resolve c = some (as ++ bs) := by
  show (Code.append a b).symbols resolve c = _
  rw [Code.symbols, ha, hb]
  rfl

theorem Code.symbols_text (s : String) :
    (Code.text s).symbols resolve c = some (chars s) := by
  rw [Code.symbols]

theorem reads_sum {σ : String → Int} (hop : op = .add ∨ op = .sub)
    {ls rs : List Symbol} {v w : Int} (hl : Reads σ 5 ls v) (hr : Reads σ atomLevel rs w)
    (hapart : Apart .sign rs) : Reads σ 5 (ls ++ chars op.text ++ rs) (infixValue op v w) := by
  rw [List.append_assoc]
  rcases hop with rfl | rfl
  · exact (introduces_joined (s := "+") (o := .add) rfl hapart).reads hl (hr.mono (by decide))
  · exact (introduces_joined (s := "-") (o := .sub) rfl hapart).reads hl (hr.mono (by decide))

/-- If every call stood for its own primitive, the code of an expression would mean the expression. -/
theorem InFragment.code_reads {e : Expr} (h : InFragment s e) (c : Circumstances)
    (hs : List Helper) : ∃ symbols,
      (codeOf e hs).symbols ownHelper c = some symbols ∧
      Reads c.names (sortLevel s) symbols (meaningOf c e hs) ∧
      (IsAtomic e → Reads c.names atomLevel symbols (meaningOf c e hs) ∧ Apart .sign symbols) := by
  induction h generalizing hs with
  | @var s name hname =>
    have hread : Reads c.names atomLevel (chars name) (c.names name) := reads_name hname
    refine ⟨chars name, Code.symbols_text name, hread.mono (sortLevel_le_atomLevel s),
      fun _ => ⟨hread, hname.isWord.apart⟩⟩
  | @num s digits hdigits =>
    have hread : Reads c.names atomLevel (chars digits) (numeral digits) := reads_numeral hdigits
    refine ⟨chars digits, Code.symbols_text digits, hread.mono (sortLevel_le_atomLevel s),
      fun _ => ⟨hread, hdigits.isWord.apart⟩⟩
  | @paren s e _ ih =>
    obtain ⟨symbols, hsymbols, hread, -⟩ := ih hs
    have hgroup := reads_group hread (one_le_sortLevel s)
    have hcode : (codeOf (.paren e ")") hs).symbols ownHelper c =
        some (.char '(' :: symbols ++ [.char ')']) :=
      Code.symbols_append (Code.symbols_append (Code.symbols_text "(") hsymbols)
        (Code.symbols_text ")")
    refine ⟨_, hcode, hgroup.mono (sortLevel_le_atomLevel s), fun _ => ⟨hgroup, ?_⟩⟩
    exact ⟨.char '(', symbols ++ [.char ')'], rfl, by rintro c hc; cases hc; decide⟩
  | @sum op l r hop hl hr hatomic ihl ihr =>
    obtain ⟨ls, hls, hleft, -⟩ := ihl hs
    obtain ⟨rs, hrs, -, hright⟩ := ihr (helpersAfter l hs)
    obtain ⟨hright, hapart⟩ := hright hatomic
    have hop' : StatefulAlu.operatorText op = op.text := by rcases hop with rfl | rfl <;> rfl
    have hcode : (codeOf (.binary op l r) hs).symbols ownHelper c =
        some (ls ++ chars (StatefulAlu.operatorText op) ++ rs) :=
      Code.symbols_append (Code.symbols_append hls (Code.symbols_text _)) hrs
    rw [hop'] at hcode
    rw [meaningOf_sum hl]
    exact ⟨_, hcode, reads_sum hop hleft hright hapart, fun hfalse => hfalse.elim⟩
  | @primitive s t e p es hp hsig hes ih =>
    have hvalues := values_codesOf (fun e he hs => by
      obtain ⟨symbols, hsymbols, hread, -⟩ := ih e he hs
      rw [Code.value?, hsymbols, Option.bind_some]
      exact hread.value?_eq (one_le_sortLevel t)) hs
    have hlength : (meaningsOf c es hs).length = p.arity := by
      rw [length_meaningsOf, length_of_primitive hp]
    have hcode : codeOf e hs = _ := congrArg Prod.fst (run_exprCode_of_primitive hp hs)
    have hmeaning : meaningOf c e hs = _ := congrArg Prod.fst
      (run_meaning_of_primitive hp (fun e he hs => (hes e he).helpers_eq c hs) hs)
    rw [hcode, hmeaning]
    refine ⟨_, ?_, (reads_call c p _ _).mono ?_, fun hatomic => ?_⟩
    · rw [Code.symbols, hvalues]
      simp only [ownHelper, Option.bind_eq_bind, Option.bind_some, hlength, if_true]
      rfl
    · exact hsig.sortLevel_le
    · -- The only primitive that stands by itself is a constant.
      have hconst : p.yieldsTruth = false := by
        cases e <;> first | exact hatomic.elim | (cases hp; rfl) | exact nomatch hp
      have hread := reads_call c p
        (c.holes p.family (familyCount p.family (helpersAfterAll es hs))) (meaningsOf c es hs)
      rw [hconst] at hread ⊢
      exact ⟨hread, ⟨_, _, rfl, fun _ h => nomatch h⟩⟩

end SwitchSynth.Sketch
