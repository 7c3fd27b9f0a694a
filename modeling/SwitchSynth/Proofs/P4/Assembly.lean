import SwitchSynth.P4.Generator
import SwitchSynth.Proofs.P4.Numbering

/-!
# Where the operands of a switch program come from

Every hole is used up at most once and no hole gets another value, so the operands of an ALU are the values
that its holes had at the start, however many ALUs are assembled before it.
-/

namespace SwitchSynth.P4

namespace Assemble

def UsesUp (holes left : Table Int) : Prop :=
  left.Within holes

theorem usesUp : Lasting UsesUp where
  refl := Table.within_refl
  trans h₁ h₂ := h₂.trans h₁

def operandHole (alu : String) (operand : Nat) : String :=
  alu ++ "_operand_mux_" ++ toString operand ++ "_ctrl"

theorem operandHole_zero (alu : String) : alu ++ "_operand_mux_0_ctrl" = operandHole alu 0 := by
  unfold operandHole
  rw [String.append_assoc, String.append_assoc]
  rfl

theorem operandHole_one (alu : String) : alu ++ "_operand_mux_1_ctrl" = operandHole alu 1 := by
  unfold operandHole
  rw [String.append_assoc, String.append_assoc]
  rfl

theorem of_pair {P : Nat → Int → Prop} {first second : Int} (hfirst : P 0 first)
    (hsecond : P 1 second) : ∀ k v, [first, second][k]? = some v → P k v := by
  intro k v hk
  rcases k with _ | _ | k
  · cases hk; exact hfirst
  · cases hk; exact hsecond
  · simp at hk

variable {r : Target × Files} {holes left : Table Int}

theorem take_run (hole : String) (s : Table Int) :
    ((take hole).run r).run.run s =
      match s.get? hole with
      | some v => (.ok v, s.erase hole)
      | none => (.error (.missingKey hole), s) := by
  show StateT.run (ExceptT.run (ReaderT.run (match s.get? hole with
    | some value => do
      set ((← get).erase hole)
      return value
    | none => throw (.missingKey hole) : Assemble Int) r)) s = _
  cases s.get? hole with
  | none => rfl
  | some v => rfl

@[simp] theorem endsIn_take {hole : String} {v : Int} :
    EndsIn (take hole) r holes v left ↔ holes.get? hole = some v ∧ left = holes.erase hole := by
  show ((take hole).run r).run.run holes = _ ↔ _
  rw [take_run]
  cases holes.get? hole with
  | none =>
    show ((.error (.missingKey hole), holes) : Except Error Int × Table Int) = (.ok v, left) ↔ _
    simp
  | some u =>
    show ((.ok u, holes.erase hole) : Except Error Int × Table Int) = (.ok v, left) ↔ _
    simp [eq_comm]

variable {α : Type} {width : Int} {i : Nat}

@[simp] theorem endsIn_ofExcept {result : Except Error α} {a : α} :
    EndsIn (ofExcept result) r holes a left ↔ result = .ok a ∧ left = holes := by
  cases result with
  | error e => simp [ofExcept]
  | ok b => simp [ofExcept, eq_comm]

theorem take_usesUp (hole : String) : Moves UsesUp ((take hole).run r) := by
  intro s
  rw [take_run]
  cases s.get? hole with
  | none => exact s.within_refl
  | some v => exact s.within_erase hole

theorem ofExcept_usesUp (result : Except Error α) :
    Moves UsesUp ((ofExcept result).run r) := by
  cases result with
  | error e => exact usesUp.throw e
  | ok a => exact usesUp.pure a

theorem grid_usesUp (width : Int) {f : Nat → Nat → Assemble α}
    (hf : ∀ i j, Moves UsesUp ((f i j).run r)) : Moves UsesUp ((grid width f).run r) :=
  usesUp.bindIn (usesUp.pure r) fun _ => usesUp.mapMIn _ fun i => usesUp.mapMIn _ (hf i)

/-- A row of a grid has all its places, each filled from holes that are left of those at the start. -/
theorem grid_row {f : Nat → Nat → Assemble α} {rows : List (List α)}
    (hf : ∀ i j, Moves UsesUp ((f i j).run r)) (h : EndsIn (grid width f) r holes rows left)
    (hi : i < r.1.stages.toNat) :
    ∃ row, rows[i]? = some row ∧ row.length = width.toNat ∧
      ∀ j place, row[j]? = some place → ∃ s s', s.Within holes ∧ EndsIn (f i j) r s place s' := by
  unfold grid at h
  simp only [endsIn_bind, endsIn_read] at h
  obtain ⟨_, _, ⟨rfl, rfl⟩, h⟩ := h
  obtain ⟨row, s₁, s₂, hrow, hs₁, hstage, -⟩ :=
    usesUp.endsIn_mapM (fun i => (usesUp.mapMIn _ (hf i)).related) h (List.getElem?_range hi)
  have hplaces := usesUp.forall₂_mapM (fun j => (hf i j).related) hstage
  have hlength : row.length = width.toNat := hplaces.length_eq.symm.trans List.length_range
  refine ⟨row, hrow, hlength, fun j place hplace => ?_⟩
  have hj : j < width.toNat := hlength ▸ (List.getElem?_eq_some_iff.1 hplace).1
  obtain ⟨place', hplace', s₃, s₄, hs₃, hend, -⟩ := getElem?_of_forall₂ hplaces (List.getElem?_range hj)
  obtain rfl : place = place' := Option.some.inj (hplace.symm.trans hplace')
  exact ⟨s₃, s₄, hs₃.trans hs₁, hend⟩

/-- A place of a grid is filled from holes that are left of those at the start. -/
theorem grid_place {f : Nat → Nat → Assemble α} {rows : List (List α)}
    (hf : ∀ i j, Moves UsesUp ((f i j).run r)) (h : EndsIn (grid width f) r holes rows left)
    {j : Nat} (hi : i < r.1.stages.toNat) (hj : j < width.toNat) :
    ∃ row place s s', rows[i]? = some row ∧ row[j]? = some place ∧ s.Within holes ∧
      EndsIn (f i j) r s place s' := by
  obtain ⟨row, hrow, hlength, hplaces⟩ := grid_row hf h hi
  have hplace : row[j]? = some (row.get ⟨j, hlength ▸ hj⟩) := List.getElem?_eq_getElem (hlength ▸ hj)
  obtain ⟨s, s', hs, hend⟩ := hplaces j _ hplace
  exact ⟨row, _, s, s', hrow, hplace, hs, hend⟩

theorem statelessAlu_usesUp (i j : Nat) : Moves UsesUp ((statelessAlu i j).run r) := by
  refine usesUp.bindIn (usesUp.pure r) fun _ => ?_
  refine usesUp.bindIn (take_usesUp _) fun _ => usesUp.bindIn (take_usesUp _) fun _ => ?_
  refine usesUp.bindIn (take_usesUp _) fun _ => usesUp.bindIn (take_usesUp _) fun _ => ?_
  refine usesUp.bindIn (take_usesUp _) fun _ => usesUp.bindIn (ofExcept_usesUp _) fun _ => ?_
  exact usesUp.pure _

theorem statefulAlu_usesUp (alu : String) : Moves UsesUp ((statefulAlu alu).run r) := by
  refine usesUp.bindIn (usesUp.pure r) fun (t, files) => ?_
  refine usesUp.bindIn (ofExcept_usesUp _) fun text => ?_
  refine usesUp.bindIn (take_usesUp _) fun low => usesUp.bindIn (take_usesUp _) fun high => ?_
  refine moves_get_bind fun s => ?_
  have hwithin := StatefulAlu.lower_within
    ⟨t.sketchName ++ "_" ++ alu, t.constants, containerText low, containerText high⟩ s
    (Alu.Source.read (Alu.lex text))
  dsimp only
  generalize StatefulAlu.lower _ s (Alu.Source.read (Alu.lex text)) = lowered at hwithin ⊢
  obtain ⟨result, l⟩ := lowered
  cases result with
  | error e => exact hwithin
  | ok u => exact hwithin

theorem statefulConfig_usesUp (i j : Nat) : Moves UsesUp ((statefulConfig i j).run r) := by
  refine usesUp.bindIn (statefulAlu_usesUp _) fun _ => usesUp.bindIn (usesUp.pure r) fun _ => ?_
  exact usesUp.bindIn (take_usesUp _) fun _ => usesUp.pure _

theorem statelessAlu_operands {j : Nat} {c : StatelessConfig}
    (h : EndsIn (statelessAlu i j) r holes c left) :
    c.result = j ∧
      ∀ k v, [c.first, c.second][k]? = some v →
        holes.get? (operandHole (aluName r.1.sketchName "stateless" i j) k) = some v := by
  unfold statelessAlu at h
  simp only [endsIn_bind, endsIn_read, endsIn_pure, endsIn_take, endsIn_ofExcept] at h
  obtain ⟨_, _, ⟨rfl, rfl⟩, enable, _, ⟨-, rfl⟩, opcode, _, ⟨-, rfl⟩, first, _, ⟨hfirst, rfl⟩,
    second, _, ⟨hsecond, rfl⟩, place, _, ⟨-, rfl⟩, immediate, _, ⟨-, rfl⟩, rfl, -⟩ := h
  rw [operandHole_zero] at hfirst
  rw [operandHole_one] at hsecond
  -- What is found after some holes are gone was there before.
  have hfirst := Table.within_erase _ _ _ _ (Table.within_erase _ _ _ _ hfirst)
  have hsecond := Table.within_erase _ _ _ _ (Table.within_erase _ _ _ _
    (Table.within_erase _ _ _ _ hsecond))
  exact ⟨rfl, of_pair hfirst hsecond⟩

/-- A stateful ALU is lowered with the values of its two holes as operands. -/
theorem statefulAlu_operands {alu : String} {expressions : Table String}
    (h : EndsIn (statefulAlu alu) r holes expressions left) :
    ∃ text low high rest,
      r.2.readAscii r.1.statefulFile = .ok text ∧
      expressions = (StatefulAlu.lower ⟨r.1.sketchName ++ "_" ++ alu, r.1.constants,
        containerText low, containerText high⟩ rest (Alu.Source.read (Alu.lex text))).2.expressions ∧
      ∀ k v, [low, high][k]? = some v →
        holes.get? (operandHole (r.1.sketchName ++ "_" ++ alu) k) = some v := by
  obtain ⟨t, files⟩ := r
  unfold statefulAlu at h
  simp only [endsIn_bind, endsIn_read, endsIn_get, endsIn_set, endsIn_pure, endsIn_take,
    endsIn_ofExcept] at h
  obtain ⟨_, _, ⟨rfl, rfl⟩, text, _, ⟨htext, rfl⟩, low, _, ⟨hlow, rfl⟩, high, _, ⟨hhigh, rfl⟩,
    rest, _, ⟨rfl, rfl⟩, _, _, -, _, _, -, rfl, -⟩ := h
  rw [operandHole_zero] at hlow
  rw [operandHole_one] at hhigh
  have hhigh := Table.within_erase _ _ _ _ hhigh
  exact ⟨text, low, high, _, htext, rfl, of_pair hlow hhigh⟩

end Assemble

open Assemble

variable {t : Target} {files : Files} {holes left : Table Int} {a : Assembly}

/-- The hole that says whether a stateful ALU is active. -/
def configurationHole (t : Target) (stage group : Nat) : String :=
  t.sketchName ++ "_salu_config_" ++ toString stage ++ "_" ++ toString group

/-- A whole assembly goes through its three grids one after the other. -/
theorem assemble_parts (h : EndsIn assemble (t, files) holes a left) :
    ∃ s₁ s₂, s₁.Within holes ∧ EndsIn (grid t.groups statefulConfig) (t, files) holes a.stateful s₁ ∧
      EndsIn (grid t.alus statelessAlu) (t, files) s₁ a.stateless s₂ ∧ s₂.Within holes ∧
      EndsIn (grid t.groups fun i k => take (configurationHole t i k)) (t, files) s₂ a.configurations left := by
  unfold assemble statefulAlus statelessAlus configurations at h
  simp only [endsIn_bind, endsIn_read, endsIn_pure] at h
  obtain ⟨stateful, s₁, ⟨_, _, ⟨rfl, rfl⟩, hstateful⟩, stateless, s₂,
    ⟨_, _, ⟨rfl, rfl⟩, hstateless⟩, configurations, _, ⟨_, _, ⟨rfl, rfl⟩, hconfigurations⟩, rfl, rfl⟩ := h
  have hwithin := (grid_usesUp t.groups statefulConfig_usesUp).related hstateful
  have hwithin' := (grid_usesUp t.alus statelessAlu_usesUp).related hstateless
  exact ⟨_, _, hwithin, hstateful, hstateless, hwithin'.trans hwithin, hconfigurations⟩

theorem assemble_stateless_operands (h : EndsIn assemble (t, files) holes a left) {i j : Nat}
    (hi : i < t.stages.toNat) (hj : j < t.alus.toNat) :
    ∃ row c, a.stateless[i]? = some row ∧ row[j]? = some c ∧ c.result = j ∧
      ∀ k v, [c.first, c.second][k]? = some v →
        holes.get? (operandHole (aluName t.sketchName "stateless" i j) k) = some v := by
  obtain ⟨s₁, s₂, hs₁, -, hgrid, -⟩ := assemble_parts h
  obtain ⟨row, c, s, s', hrow, hc, hs, hend⟩ := grid_place statelessAlu_usesUp hgrid hi hj
  obtain ⟨hresult, hoperands⟩ := statelessAlu_operands hend
  exact ⟨row, c, hrow, hc, hresult, fun k v hk => hs₁ _ _ (hs _ _ (hoperands k v hk))⟩

/-- A stateful ALU in an assembly is lowered with the values of its holes at the start. -/
theorem assemble_stateful_operands (h : EndsIn assemble (t, files) holes a left) {i l : Nat}
    (hi : i < t.stages.toNat) (hl : l < t.groups.toNat) :
    ∃ row c text low high rest, a.stateful[i]? = some row ∧ row[l]? = some c ∧
      files.readAscii t.statefulFile = .ok text ∧
      c.expressions = (StatefulAlu.lower ⟨aluName t.sketchName "stateful" i l, t.constants,
        containerText low, containerText high⟩ rest (Alu.Source.read (Alu.lex text))).2.expressions ∧
      ∀ k v, [low, high][k]? = some v →
        holes.get? (operandHole (aluName t.sketchName "stateful" i l) k) = some v := by
  obtain ⟨s₁, s₂, -, hgrid, -⟩ := assemble_parts h
  obtain ⟨row, c, s, s', hrow, hc, hs, hend⟩ := grid_place statefulConfig_usesUp hgrid hi hl
  unfold statefulConfig at hend
  simp only [endsIn_bind, endsIn_read, endsIn_pure, endsIn_take] at hend
  obtain ⟨expressions, s₃, halu, _, _, ⟨rfl, rfl⟩, output, _, -, rfl, -⟩ := hend
  have hname : t.sketchName ++ "_" ++ ("stateful_alu_" ++ toString i ++ "_" ++ toString l) =
      aluName t.sketchName "stateful" i l := by
    rw [aluName, show "stateful_alu_" = "stateful" ++ "_alu_" from rfl]
    simp only [String.append_assoc]
  obtain ⟨text, low, high, rest, htext, hexpressions, hoperands⟩ := statefulAlu_operands halu
  dsimp only at hexpressions hoperands
  rw [hname] at hexpressions
  simp only [hname] at hoperands
  exact ⟨row, _, text, low, high, rest, hrow, hc, htext, hexpressions,
    fun k v hk => hs _ _ (hoperands k v hk)⟩

end SwitchSynth.P4
