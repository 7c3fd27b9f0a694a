import SwitchSynth.Table
import SwitchSynth.Text.Numeral
import SwitchSynth.Text.Pattern.Basic

/-!
# Specifications

The program that a pipeline has to compute. What it says about packet fields and states is read off the
names it uses: `state_and_packet.pkt_3` is a packet field, `state_and_packet.state_group_0_state_1` a state
of a state group.
-/

namespace SwitchSynth.Spec

open Text (Pattern)

/-- A state of a state group; the numbers of the group and of the state are kept. -/
def statePattern : Pattern :=
  .seqAll [.text "state_and_packet", .anyInLine, .text "state_group_", .group 1 .digits,
    .text "_state_", .group 2 .digits]

/-- A packet field; its number is kept. -/
def fieldPattern : Pattern :=
  .seqAll [.text "state_and_packet", .anyInLine, .text "pkt_", .group 1 .digits]

def addState (groups : Table (List String)) (group state : String) : Table (List String) :=
  let states := (groups.get? group).getD []
  groups.insert group (if state ∈ states then states else states ++ [state])

/-- The states of each state group, as the program writes their numbers, in order of first use. -/
def stateGroups (program : String) : Table (List String) :=
  (statePattern.findAll program).foldl
    (fun groups c =>
      match c.captures 2 with
      | [group, state] => addState groups group state
      | _ => groups)
    {}

/-- How many packet fields a program has. -/
def fieldCount (program : String) : Except Error Nat := do
  let numbers ← ((fieldPattern.findAll program).flatMap (·.captures 1)).mapM Text.readInt
  return numbers.eraseDups.length

end SwitchSynth.Spec
