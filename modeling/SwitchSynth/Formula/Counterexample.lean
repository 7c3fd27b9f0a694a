import SwitchSynth.Formula.Quantified
import SwitchSynth.Formula.Search
import SwitchSynth.Table
import SwitchSynth.Text.Digit

/-!
# Counterexamples

A counterexample gives values to packet fields and states. The variables of a formula carry the name of a
packet field or a state at the start of their own name; other variables are not reported.
-/

namespace SwitchSynth.Formula

/-- The names that a variable can stand for. -/
inductive Subject where
  | packetField (name : String)
  | state (name : String)
  deriving DecidableEq, Repr

/-- Read a fixed text and return what follows. -/
def afterText (text : String) (cs : List Char) : Option (List Char) :=
  if text.toList.isPrefixOf cs then some (cs.drop text.length) else none

/-- Read one digit or more and return what follows. -/
def afterDigits (cs : List Char) : Option (List Char) :=
  match cs with
  | c :: _ => if Text.isDigit c then some (cs.dropWhile Text.isDigit) else none
  | [] => none

def Subject.ofVariable? (name : String) : Option Subject :=
  let cs := name.toList
  let upTo (rest : List Char) := String.ofList (cs.take (cs.length - rest.length))
  match (do afterDigits (← afterText "pkt_" cs)) with
  | some rest => some (.packetField (upTo rest))
  | none =>
    match (do
      let rest ← afterDigits (← afterText "state_group_" cs)
      afterDigits (← afterText "_state_" rest)) with
    | some rest => some (.state (upTo rest))
    | none => none

/-- Values for packet fields and for states. -/
structure Counterexample where
  packetFields : Table Int := {}
  states : Table Int := {}

namespace Counterexample

def isEmpty (c : Counterexample) : Bool :=
  c.packetFields.size = 0 && c.states.size = 0

def add (c : Counterexample) (variableValue : String × Int) : Counterexample :=
  match Subject.ofVariable? variableValue.1 with
  | some (.packetField name) =>
    { c with packetFields := c.packetFields.insert name variableValue.2 }
  | some (.state name) => { c with states := c.states.insert name variableValue.2 }
  | none => c

def ofValues (values : List (String × Int)) : Counterexample :=
  values.foldl add {}

end Counterexample

namespace Quantified

def distinctNames (f : Quantified) : List String :=
  f.names.eraseDups

/-- Values for which the body does not hold. -/
def refutation (f : Quantified) (bounds : Interval) : Option (List (String × Int)) :=
  f.negatedBody.search (f.negatedBody.size - 1) f.distinctNames bounds

/-- Values for which the body holds. -/
def solution (f : Quantified) (bounds : Interval) : Option (List (String × Int)) :=
  f.opening.graph.search f.openBody f.distinctNames bounds

/-- Whether a formula holds, if values within bounds decide it. -/
def holds (f : Quantified) (bounds : Interval) : Bool :=
  if f.universal then (f.refutation bounds).isNone else (f.solution bounds).isSome

end Quantified

def inputBounds (bits : Int) : Interval :=
  ⟨0, Int.pow 2 bits.toNat - 1⟩

end SwitchSynth.Formula
