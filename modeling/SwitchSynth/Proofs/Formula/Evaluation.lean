import SwitchSynth.Formula.Circuit
import SwitchSynth.Proofs.Formula.Graph

/-!
# What circuits and formulas say

A circuit is evaluated directly, line by line: every node gets a value from the values of the nodes that its
line names. A quantified formula holds if its body is true for all values (or for some values) of the
variables that it binds. Neither speaks of the terms that reading a circuit builds.

## Main definitions

- `Evaluation.run`: the values of all nodes of a circuit
- `Evaluation.AssertionsHold`: every operand of an assertion is true
- `Quantified.Holds`: what a quantified formula says
-/

namespace SwitchSynth.Formula

/-- Values for the variables that a quantifier binds, in the order of their names. -/
def Valuation.binding (v : Valuation) (xs : List Int) : Valuation :=
  { v with bound := fun i => xs.reverse.getD i 0 }

/-- A quantified formula holds: its body is true for all, or for some, values of the bound variables. -/
def Quantified.Holds (f : Quantified) (v : Valuation) : Prop :=
  if f.universal then
    ∀ xs : List Int, xs.length = f.names.length →
      f.graph.valueAt (v.binding xs) f.body = .bool true
  else
    ∃ xs : List Int, xs.length = f.names.length ∧
      f.graph.valueAt (v.binding xs) f.body = .bool true

namespace Evaluation

abbrev Values := String → Option Value

/-- What a word for an operation on two operands means. -/
def binary? (v : Valuation) : String → Option (Value → Value → Value)
  | "AND" => some fun a b => .bool (a.toBool && b.toBool)
  | "OR" => some fun a b => .bool (a.toBool || b.toBool)
  | "XOR" => some fun a b => .bool (a.toBool != b.toBool)
  | "PLUS" => some fun a b => .int (a.toInt + b.toInt)
  | "TIMES" => some fun a b => .int (a.toInt * b.toInt)
  | "DIV" => some fun a b => .int (v.quotient a.toInt b.toInt)
  | "MOD" => some fun a b => .int (v.remainder a.toInt b.toInt)
  | "LT" => some fun a b => .bool (decide (a.toInt < b.toInt))
  | "EQ" => some fun a b => .bool (decide (a.toInt = b.toInt))
  | _ => none

def integer? (w : String) : Option Int :=
  (Text.readInt w).toOption

/-- The constant of a type that a word writes. -/
def constant? : String → String → Option Value
  | "INT", w => (integer? w).map .int
  | "BOOL", "0" => some (.bool false)
  | "BOOL", "1" => some (.bool true)
  | _, _ => none

/-- The operand whose number stands at a place of a line. -/
def operand? (env : Values) (words : List String) (i : Nat) : Option Value :=
  words[i]?.bind env

def value? (v : Valuation) (env : Values) (words : List String) : Option Value := do
  match ← words[2]? with
  | "S" => return .int (v.named (← words[4]?))
  | "CONST" => constant? (← words[3]?) (← words[4]?)
  | "NEG" => return .int (-(← operand? env words 4).toInt)
  | "NOT" => return .bool (!(← operand? env words 4).toBool)
  | "ARRACC" =>
    let selector ← operand? env words 4
    return Value.choose selector.toBool (← operand? env words 7) (← operand? env words 6)
  | "ARRASS" =>
    let selector ← operand? env words 4
    let literal ← integer? (← words[6]?)
    return Value.choose (selector.toInt = literal) (← operand? env words 8) (← operand? env words 7)
  | operation => return (← binary? v operation) (← operand? env words 4) (← operand? env words 5)

def isHeader (words : List String) : Bool :=
  words[0]? == some "dag" || words[0]? == some "TUPLE_DEF"

/-- The values of nodes after a line. The lines of the header and the assertions are no nodes. -/
def step (v : Valuation) (env : Values) (line : String) : Option Values := do
  let words := Text.words line
  if isHeader words || words[2]? == some "ASSERT" then return env
  let number ← words[0]?
  let x ← value? v env words
  return fun n => if n = number then some x else env n

def run (v : Valuation) (text : String) : Option Values :=
  (Text.lines text).foldlM (step v) fun _ => none

def fieldOf (operation : String) (i : Nat) (line : String) : Option String :=
  let words := Text.words line
  if !isHeader words && words[2]? == some operation then words[i]? else none

def sources (text : String) : List String :=
  (Text.lines text).filterMap (fieldOf "S" 4)

/-- The numbers of the nodes that a circuit asserts. -/
def asserted (text : String) : List String :=
  (Text.lines text).filterMap (fieldOf "ASSERT" 3)

/-- All nodes of a circuit have a value, and every node that it asserts is true. -/
def AssertionsHold (v : Valuation) (text : String) : Prop :=
  ∃ env, run v text = some env ∧ ∀ n ∈ asserted text, ∃ x, env n = some x ∧ x.toBool = true

/-! ### What the values depend on -/

section Congr

variable {v w : Valuation} (hq : v.quotientByZero = w.quotientByZero)
  (hr : v.remainderByZero = w.remainderByZero)

include hq hr

theorem binary?_congr : binary? v = binary? w := by
  have hquotient : v.quotient = w.quotient := by
    funext a b
    rw [Valuation.quotient, Valuation.quotient, hq]
  have hremainder : v.remainder = w.remainder := by
    funext a b
    rw [Valuation.remainder, Valuation.remainder, hr]
  funext operation
  simp only [binary?, hquotient, hremainder]

theorem value?_congr (env : Values) (words : List String)
    (hn : words[2]? = some "S" → ∀ s, words[4]? = some s → v.named s = w.named s) :
    value? v env words = value? w env words := by
  unfold value?
  cases hop : words[2]? with
  | none => rfl
  | some operation =>
    by_cases hS : operation = "S"
    · subst hS
      cases hs : words[4]? with
      | none => rfl
      | some s =>
        show some (Value.int (v.named s)) = some (Value.int (w.named s))
        rw [hn hop s hs]
    · rw [Option.bind_eq_bind, Option.bind_some, Option.bind_eq_bind, Option.bind_some,
        binary?_congr hq hr]
      split
      · exact absurd rfl hS
      all_goals rfl

theorem step_congr (env : Values) (line : String)
    (hn : ∀ s, fieldOf "S" 4 line = some s → v.named s = w.named s) :
    step v env line = step w env line := by
  unfold step
  cases hh : isHeader (Text.words line) with
  | true => simp only [hh, Bool.true_or, if_true]
  | false =>
    have hvalue := value?_congr hq hr env (Text.words line) fun hop s hs =>
      hn s (by simp [fieldOf, hh, hop, hs])
    simp only [hvalue]

theorem run_congr {text : String} (hn : ∀ s ∈ sources text, v.named s = w.named s) :
    run v text = run w text := by
  unfold run sources at *
  generalize Text.lines text = lines at hn ⊢
  generalize (fun _ => none : Values) = env
  induction lines generalizing env with
  | nil => rfl
  | cons line rest ih =>
    have hstep := step_congr hq hr env line fun s hs =>
      hn s (List.mem_filterMap.2 ⟨line, List.mem_cons_self, hs⟩)
    have hrest : ∀ s ∈ rest.filterMap (fieldOf "S" 4), v.named s = w.named s := by
      intro s hs
      obtain ⟨l, hl, hls⟩ := List.mem_filterMap.1 hs
      exact hn s (List.mem_filterMap.2 ⟨l, List.mem_cons_of_mem _ hl, hls⟩)
    rw [List.foldlM_cons, List.foldlM_cons, hstep]
    exact bind_congr fun env' => ih hrest env'

/-- Only the values of the sources matter, and what a division by zero gives. -/
theorem assertionsHold_congr {text : String} (hn : ∀ s ∈ sources text, v.named s = w.named s) :
    AssertionsHold v text ↔ AssertionsHold w text := by
  unfold AssertionsHold
  rw [run_congr hq hr hn]

end Congr

end Evaluation

end SwitchSynth.Formula
