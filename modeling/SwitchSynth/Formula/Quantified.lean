import SwitchSynth.Error
import SwitchSynth.Formula.Graph

/-!
# Quantified formulas

A quantified formula binds integer variables. Its body refers to them by number, counted from the innermost
one, so the last name has number zero. The negated body speaks of the variables by name again: an
assignment that makes it true is a counterexample to the formula.
-/

namespace SwitchSynth.Formula

/-- A formula with a quantifier at its root. -/
structure Quantified where
  universal : Bool
  names : List String
  graph : Graph
  body : Nat
  deriving Repr

/-- Bind variables: a variable with one of the names is referred to by number. -/
def Node.bind (names : List String) : Node → Node
  | .var name =>
    match names.reverse.idxOf? name with
    | some i => .bound i
    | none => .var name
  | n => n

/-- Give a bound variable its name back. -/
def Node.free (names : List String) : Node → Node
  | .bound i =>
    match names.reverse[i]? with
    | some name => .var name
    | none => .bound i
  | n => n

/-- The term that a choice comes down to if its condition is a truth value. -/
def settled (g : Graph) : Op → List Nat → Option Nat
  | .ite, [c, a, b] =>
    match g[c]? with
    | some (.truth true) => some a
    | some (.truth false) => some b
    | _ => none
  | _, _ => none

/-- A body whose bound variables get their names back. -/
structure Opening where
  graph : Graph := #[]
  /-- For each node of the body, the node that takes its place. -/
  images : Array Nat := #[]
  /-- For each node of the body, whether it is free of bound variables. -/
  closed : Array Bool := #[]

/-- Open the next node of a body. A choice over bound variables that is settled is replaced by the term it
comes down to. -/
def Opening.next (names : List String) (o : Opening) (n : Node) : Opening :=
  let own := o.graph.size
  match n with
  | .app op arguments =>
    let images := arguments.map fun i => o.images.getD i 0
    let closed := arguments.all fun i => o.closed.getD i true
    let image := if closed then own else (settled o.graph op images).getD own
    ⟨o.graph.push (.app op images), o.images.push image, o.closed.push closed⟩
  | .bound _ => ⟨o.graph.push (n.free names), o.images.push own, o.closed.push false⟩
  | n => ⟨o.graph.push n, o.images.push own, o.closed.push true⟩

namespace Quantified

/-- Quantify over variables of a term. -/
def closing (universal : Bool) (names : List String) (graph : Graph) (body : Nat) : Quantified :=
  ⟨universal, names, graph.map (Node.bind names), body⟩

/-- The nodes of the body with variables by name. -/
def opening (f : Quantified) : Opening :=
  f.graph.foldl (Opening.next f.names) {}

/-- The body with variables by name, by its node in `opening`. -/
def openBody (f : Quantified) : Nat :=
  f.opening.images.getD f.body 0

def negatedBody (f : Quantified) : Graph :=
  f.opening.graph.push (.app .not [f.openBody])

end Quantified

end SwitchSynth.Formula
