import SwitchSynth.Sketch.Constraint
import SwitchSynth.Sketch.DataPath

/-!
# Allocations

Which container holds a packet field, and which stateful ALU a state group, may be left to holes of one bit
each. An allocation is such holes together with the constraints that keep what they say consistent.
-/

namespace SwitchSynth.Sketch

/-- Holes of one bit, and constraints on them. -/
structure Allocation where
  bits : List String
  constraints : List Constraint
  deriving Repr

namespace Allocation

/-- The allocation of packet fields to containers: each container takes at most one of the fields that are
read, and each of these has exactly one container. -/
def ofFields (s : Shape) : Allocation where
  bits := (upTo s.containers).flatMap fun j =>
    (upTo s.fields).map fun (k : Nat) => Plan.fieldConfig k j
  constraints :=
    (upTo s.containers).map (fun j =>
      .sum .leading (s.inputFields.map fun k => Plan.fieldConfig k j) (.atMost 1)) ++
    s.inputFields.map fun k =>
      .sum .leading ((upTo s.containers).map (Plan.fieldConfig k)) (.exactly 1)

/-- The hole that gives a state group to a stateful ALU of a container. -/
def groupBit (s : Shape) (group stage container : Nat) : String :=
  s.sketchName ++ "_salu_config_" ++ toString group ++ "_" ++ toString stage ++ "_" ++
    toString container

/-- The allocation of state groups to stateful ALUs: a group has at most one ALU, and an ALU at most one
group. -/
def ofGroups (s : Shape) : Allocation where
  bits := (upTo s.groups).flatMap fun i => (upTo s.stages).flatMap fun j =>
    (upTo s.containers).map fun k => groupBit s i j k
  constraints :=
    (upTo s.groups).map (fun i =>
      .sum .tight
        ((upTo s.stages).flatMap fun j => (upTo s.containers).map fun k => groupBit s i j k)
        (.atMost 1)) ++
    (upTo s.stages).flatMap fun j => (upTo s.containers).map fun k =>
      .sum .tight ((upTo s.groups).map fun i => groupBit s i j k) (.atMost 1)

/-- The hole that activates the stateful ALU of a group in a stage. -/
def activeBit (s : Shape) (stage group : Nat) : String :=
  s.sketchName ++ "_salu_config_" ++ toString stage ++ "_" ++ toString group

/-- The canonical allocation, in which each group has its own ALU in every stage: a stage has no more active
groups than ALUs, and a group is active in at most one stage. -/
def canonical (s : Shape) : Allocation where
  bits := (upTo s.stages).flatMap fun i => (upTo s.groups).map (activeBit s i)
  constraints :=
    (upTo s.stages).map (fun i =>
      .sum .wide ((upTo s.groups).map (activeBit s i)) (.atMost s.alus)) ++
    (upTo s.groups).map fun l =>
      .sum .wide ((upTo s.stages).map fun i => activeBit s i l) (.atMost 1)

end Allocation

end SwitchSynth.Sketch
