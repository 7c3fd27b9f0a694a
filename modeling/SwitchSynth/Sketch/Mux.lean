/-!
# Multiplexers

A multiplexer passes on one of its inputs. The control value `i` selects input `i`, and every control value
beyond the last input selects the last one.
-/

namespace SwitchSynth.Sketch

/-- A multiplexer by its name and the number of its inputs. -/
structure Mux where
  name : String
  inputs : Nat
  deriving DecidableEq, Repr

namespace Mux

def control (m : Mux) : String :=
  m.name ++ "_ctrl"

def input (i : Nat) : String :=
  "input" ++ toString i

/-- The comparisons that a multiplexer makes one after the other, each a control value with the input that it
selects. The last input has none. -/
def cases (m : Mux) : List (Nat × Nat) :=
  (List.range (m.inputs - 1)).map fun i => (i, i)

/-- The input that is left when no comparison holds. -/
def lastInput (m : Mux) : Nat :=
  m.inputs - 1

def select (m : Mux) (control : Int) : Nat :=
  ((m.cases.find? fun c => (c.1 : Int) == control).map Prod.snd).getD m.lastInput

/-- A comparison behind another one. -/
def caseText (c : Nat × Nat) : String :=
  "      else if (mux_ctrl == " ++ toString c.1 ++ ") \x7b\n        return " ++ input c.2 ++
    ";\n      \x7d\n"

def bodyText (m : Mux) : String :=
  match m.cases with
  | [] => "    return " ++ input m.lastInput ++ ";\n"
  | first :: rest =>
    "    int mux_ctrl = " ++ m.name ++ "_ctrl_local;\n    if (mux_ctrl == " ++ toString first.1 ++
      ") \x7b\n      return " ++ input first.2 ++ ";\n    \x7d\n\n" ++
      String.join (rest.map caseText) ++
      "\n    else \x7b return " ++ input m.lastInput ++ "; \x7d\n"

def text (m : Mux) : String :=
  "int " ++ m.name ++ "(" ++
    String.intercalate "," ((List.range m.inputs).map fun i => "int " ++ input i) ++ ", int " ++
    m.name ++ "_ctrl_local) \x7b\n" ++ m.bodyText ++ "\x7d"

end Mux

end SwitchSynth.Sketch
