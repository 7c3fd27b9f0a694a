import SwitchSynth.Alu.Tree
import SwitchSynth.Error

/-!
# The table of operator levels

While an expression of some precedence is read, an operator may continue it if its level is at least that
precedence. `mayContinue` answers this for the operators by their number, as the grammar counts them.
-/

namespace SwitchSynth.Alu

/-- The levels of the operators, in the order in which the grammar lists them. -/
def operatorLevels : List Nat :=
  [BinaryOp.add.level, BinaryOp.eq.level, BinaryOp.gt.level, BinaryOp.ge.level, BinaryOp.lt.level,
   BinaryOp.le.level, BinaryOp.ne.level, BinaryOp.and.level, BinaryOp.or.level, ternaryLevel]

/-- Whether an operator, by its number, may continue an expression of a precedence; no answer for a number
that belongs to no operator. -/
def operatorContinues (precedence : Int) (number : Int) : Option Bool :=
  match number with
  | .ofNat n => operatorLevels[n]?.map fun level => decide (precedence ≤ level)
  | .negSucc _ => none

/-- The predicates of a rule, by its index; only the rule of expressions has any. -/
def mayContinue (precedence rule number : Int) : Except Error (Option Bool) :=
  if rule = Rule.expr.index then .ok (operatorContinues precedence number)
  else .error (.noPredicate rule)

end SwitchSynth.Alu
