/-!
# Constraints on holes

What a sketch asserts of its holes. Most constraints bound a sum of holes that are bits; in a switch that
gives every container one writer, a constraint counts the writers of a container.
-/

namespace SwitchSynth.Sketch

/-- How the sum in a constraint is bounded. -/
inductive Bound where
  | atMost (n : Int)
  | exactly (n : Int)
  deriving DecidableEq, Repr

def Bound.text : Bound → String
  | atMost n => " <= " ++ toString n
  | exactly n => " == " ++ toString n

/-- How the terms of a sum are set. -/
inductive Spacing where
  /-- A space in front of each term. -/
  | leading
  | tight
  /-- A space on both sides of the plus sign. -/
  | wide
  deriving DecidableEq, Repr

/-- A term of a sum with the plus sign behind it. -/
def Spacing.term (s : Spacing) (hole : String) : String :=
  match s with
  | leading => " " ++ hole ++ "+"
  | tight => hole ++ "+"
  | wide => hole ++ " + "

/-- Constraints on holes. -/
inductive Constraint where
  | given (text : String)
  | sum (spacing : Spacing) (holes : List String) (bound : Bound)
  /-- Exactly one of the writers of a container writes it: its own stateless ALU, or one of the stateful
  ALUs, each with the hole that tells its container and the hole that tells whether it is active. -/
  | oneWriter (own : String) (others : List (String × String)) (container : Nat)
  deriving DecidableEq, Repr

namespace Constraint

def writerText (container : Nat) (writer : String × String) : String :=
  "((" ++ writer.1 ++ " == " ++ toString container ++ ")  && (" ++ writer.2 ++ "== 1)) + "

def text : Constraint → String
  | given s => s
  | sum spacing holes bound => "(" ++ String.join (holes.map spacing.term) ++ "0)" ++ bound.text
  | oneWriter own others container =>
    "(((" ++ own ++ " == 1 ) +" ++ String.join (others.map (writerText container)) ++ " 0) == 1)"

def assertion (c : Constraint) : String :=
  "assert(" ++ c.text ++ ");\n"

end Constraint

end SwitchSynth.Sketch
