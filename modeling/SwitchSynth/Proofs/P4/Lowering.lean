import SwitchSynth.P4.StatefulAlu
import SwitchSynth.Proofs.Ends
import SwitchSynth.Proofs.Table

/-!
# Resolving primitives

Lowering a stateful ALU takes the values of its holes from a table and removes them there, one for each primitive
that is resolved.
-/

namespace SwitchSynth.P4

/-- What a primitive is replaced by, once the value of its hole is known. -/
def evaluated (constants : List String) (p : Sketch.Primitive) (operands : List (Option String)) (hole : Int) :
    Except Error (Option String) :=
  match p with
  | .constant => (atPlace constants hole).map some
  | p => .ok (resolve p operands hole)

namespace StatefulAlu

variable {r : Setting} {l l' : Lowering} {p : Sketch.Primitive} {operands : List (Option String)}

def nextHole (r : Setting) (l : Lowering) (p : Sketch.Primitive) : String :=
  p.family.globalHole r.alu (holeNumber l p.family)

/-- What is left once a primitive is resolved. -/
def afterPrimitive (r : Setting) (l : Lowering) (p : Sketch.Primitive) : Lowering :=
  { l with holes := l.holes.erase (nextHole r l p), resolved := l.resolved ++ [p.family] }

theorem endsIn_takeHole {hole : String} {v : Int} :
    EndsIn (takeHole hole) r l v l' ↔ l.holes.get? (fullHoleName r.alu hole) = some v ∧
      l' = { l with holes := l.holes.erase (fullHoleName r.alu hole) } := by
  unfold takeHole
  simp only [endsIn_bind, endsIn_read, endsIn_get, exists_and_left, exists_eq_left, and_assoc]
  cases l.holes.get? (fullHoleName r.alu hole) with
  | none => simp
  | some w =>
    simp only [endsIn_bind, endsIn_modify, endsIn_pure, exists_const, exists_eq_left, Option.some.injEq]
    rw [eq_comm]

theorem stopsIn_takeHole {hole : String} {e : Error} :
    StopsIn (takeHole hole) r l e l' ↔ l.holes.get? (fullHoleName r.alu hole) = none ∧
      e = .missingKey (fullHoleName r.alu hole) ∧ l' = l := by
  unfold takeHole
  simp only [stopsIn_bind, stopsIn_read, stopsIn_get, endsIn_read, endsIn_get, false_or,
    exists_and_left, exists_eq_left, and_assoc]
  cases l.holes.get? (fullHoleName r.alu hole) with
  | none => simp
  | some w => simp only [stopsIn_bind, stopsIn_modify, stopsIn_pure, and_false, exists_false, or_self,
      reduceCtorEq, false_and]

theorem resolvePrimitive_eq (p : Sketch.Primitive) (operands : List (Option String)) :
    resolvePrimitive p operands = (do
      let value ← takeHole (p.family.hole (holeNumber (← get) p.family))
      modify fun l => { l with resolved := l.resolved ++ [p.family] }
      match evaluated (← read).constants p operands value with
      | .ok text => pure text
      | .error e => throw e) := by
  cases p with
  | constant =>
    refine bind_congr fun l => bind_congr fun v => bind_congr fun _ => bind_congr fun r => ?_
    unfold evaluated
    cases atPlace r.constants v <;> rfl
  | _ => rfl

/-- Where the hole of a primitive is there, it is used up, and its value says what the primitive is replaced
by. -/
theorem endsIn_resolvePrimitive {text : Option String} :
    EndsIn (resolvePrimitive p operands) r l text l' ↔
      ∃ v, l.holes.get? (nextHole r l p) = some v ∧
        evaluated r.constants p operands v = .ok text ∧ l' = afterPrimitive r l p := by
  rw [resolvePrimitive_eq]
  simp only [endsIn_bind, endsIn_get, endsIn_modify, endsIn_takeHole, endsIn_read, exists_and_left,
    exists_eq_left, exists_const, and_assoc]
  refine exists_congr fun v => and_congr_right fun _ => ?_
  cases evaluated r.constants p operands v with
  | ok t =>
    rw [endsIn_pure, Except.ok.injEq, eq_comm]
    rfl
  | error e => simp

/-- Where the hole is not there, nothing is changed. A value that leads to no text is used up all the same. -/
theorem stopsIn_resolvePrimitive {e : Error} :
    StopsIn (resolvePrimitive p operands) r l e l' ↔
      (l.holes.get? (nextHole r l p) = none ∧ e = .missingKey (nextHole r l p) ∧ l' = l) ∨
      ∃ v, l.holes.get? (nextHole r l p) = some v ∧
        evaluated r.constants p operands v = .error e ∧ l' = afterPrimitive r l p := by
  rw [resolvePrimitive_eq]
  simp only [stopsIn_bind, stopsIn_get, stopsIn_modify, stopsIn_takeHole, stopsIn_read, endsIn_get,
    endsIn_modify, endsIn_takeHole, endsIn_read, false_or, exists_and_left, exists_eq_left, exists_const,
    and_assoc]
  refine or_congr Iff.rfl (exists_congr fun v => and_congr_right fun _ => ?_)
  cases evaluated r.constants p operands v with
  | ok t => simp
  | error e' =>
    rw [stopsIn_throw, Except.error.injEq, eq_comm]
    rfl

end StatefulAlu

end SwitchSynth.P4
