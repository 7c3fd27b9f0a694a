import SwitchSynth.Formula.Counterexample

/-!
# Solvers

A solver looks for values that refute a formula. It may find some, find that there are none, or give up.
Everything that depends on a solver takes it as a parameter; `Solver.bounded` decides formulas whose
variables have a number of bits.
-/

namespace SwitchSynth.Formula

/-- What a solver says about the negation of a formula. -/
inductive Verdict where
  /-- Values of variables that make it true. -/
  | sat (model : List (String × Int))
  | unsat
  | unknown
  deriving DecidableEq, Repr

def Verdict.text : Verdict → String
  | sat _ => "sat"
  | unsat => "unsat"
  | unknown => "unknown"

abbrev Solver := Quantified → Verdict

/-- The solver that searches all values of a number of bits. -/
def Solver.bounded (bits : Int) : Solver := fun f =>
  match f.refutation (inputBounds bits) with
  | some model => .sat model
  | none => .unsat

end SwitchSynth.Formula
