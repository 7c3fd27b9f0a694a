/-!
# Signals to children

Workers that are no longer needed are sent a signal. A child that is gone by then is passed over.
-/

namespace SwitchSynth.Signals

structure Child where
  pid : Int
  /-- Whether it has ended before the signal reaches it. -/
  gone : Bool
  deriving DecidableEq, Repr

/-- What is asked of the system. -/
inductive Request where
  | find (pid : Int)
  /-- List the children of the program with all of theirs. -/
  | descendants
  | send (pid sig : Int)
  deriving DecidableEq, Repr

/-- The signal that asks a program to end. -/
def terminate : Int := 15

def Child.report (c : Child) : String :=
  if c.gone then
    "send_signal didn't have any effect because process didn'texist\ngone (pid=" ++
      toString c.pid ++ ")\n"
  else "send_signal killed a child process <process " ++ toString c.pid ++ ">\n"

/-- Send a signal to all children of a program, which may not exist: what is asked of the system and what
is printed. -/
def sendAll (parent sig : Int) (children : Option (List Child)) : List Request × String :=
  match children with
  | none => ([.find parent], "")
  | some children =>
    (.find parent :: .descendants :: children.map fun c => .send c.pid sig,
     String.join (children.map Child.report))

end SwitchSynth.Signals
