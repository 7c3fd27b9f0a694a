import SwitchSynth.Proofs.P4.Statements

/-!
# Switch programs keep the meaning of temporaries

The switch program needs the expressions of some temporaries of a stateful ALU as texts. With the values that
a synthesiser found for the holes, each text reads as the value that the temporary is meant to have in the
sketch. Whether the sketch gives the temporary this value depends on its calls: it does if each of them names
a helper that can stand for its own, and otherwise some call has another value than it is meant to have.
-/

namespace SwitchSynth

namespace Sketch

theorem StatefulAlu.ofSource_ends {name : String} {bits : Int} {source : Alu.Source}
    {alu : StatefulAlu} (h : ofSource name bits source = .ok alu) :
    ∃ draft, Ends (putSource source) {} () draft ∧ alu.name = name ∧ alu.helpers = draft.helpers ∧
      alu.code = draft.main := by
  unfold ofSource at h
  generalize hrun : (putSource source).run.run {} = result at h
  obtain ⟨_ | ⟨⟨⟩⟩, draft⟩ := result
  · exact nomatch h
  · cases h
    exact ⟨draft, hrun, rfl, rfl, rfl⟩

end Sketch

namespace P4.StatefulAlu

open Alu (TempSort Temporary)
open Reading (chars kind_eq_of_all)
open Sketch (Code Resolve ownHelper namedHelper)

/-- Whatever the names stand for, a text of a switch program and code of a sketch have values that say the
same. -/
def SaysTheSame (r : Setting) (holes : Table Int) (resolve : Resolve) (s : TempSort) (text : String)
    (code : Code) : Prop :=
  ∀ σ, ∃ v w, Reading.value? σ (chars text) = some v ∧
    code.value? resolve (circumstances r holes σ) = some w ∧ Agree s v w

variable {r : Setting} {holes : Table Int}

theorem LowersTo.saysTheSame {t : Temporary} {hs : List Sketch.Helper} {text : String}
    (h : LowersTo r holes t.sort t.value hs text) (hfragment : Sketch.InFragment t.sort t.value) :
    SaysTheSame r holes ownHelper t.sort text (Sketch.codeOf t.value hs) := by
  intro σ
  have hlevel := Sketch.one_le_sortLevel t.sort
  obtain ⟨v, hv, hagree⟩ := h.reads σ
  obtain ⟨symbols, hsymbols, hcode, -⟩ := hfragment.code_reads (circumstances r holes σ) hs
  refine ⟨v, _, hv.value?_eq hlevel, ?_, hagree⟩
  rw [Code.value?, hsymbols, Option.bind_some]
  exact hcode.value?_eq hlevel

/-- For every temporary that the switch program needs and that is declared once, lowering keeps a text that
says what the code of its declaration is meant to say. The code itself says so if its calls name helpers
that can stand for their own, and this is exactly when each call has the value it is meant to have. -/
theorem temporaries_keep_meaning_iff_calls_name_own_helpers (hr : r.WellFormed) {bits : Int}
    {d : Alu.Description} {alu : Sketch.StatefulAlu}
    (hsketch : Sketch.StatefulAlu.ofSource r.alu bits (.whole d) = .ok alu)
    (hbody : d.body.InFragment) (hholes : Assigned r holes alu.helpers) {t : Temporary}
    (hneeded : t.name ∈ neededNames) (honce : declarations t.name d.body.temporaries = [t]) :
    ∃ l text code, lower r holes (.whole d) = (.ok (), l) ∧
      l.expressions.get? (t.name ++ "_expr") = some text ∧
      alu.code.Declares t.sort t.name code ∧
      SaysTheSame r holes ownHelper t.sort text code ∧
      (code.CallsOwn (namedHelper alu.name alu.helpers) →
        SaysTheSame r holes (namedHelper alu.name alu.helpers) t.sort text code) ∧
      (code.Faithful (namedHelper alu.name alu.helpers) ↔
        code.CallsOwn (namedHelper alu.name alu.helpers)) := by
  obtain ⟨draft, hend, -, hhelpers, hcode⟩ := Sketch.StatefulAlu.ofSource_ends hsketch
  rw [hhelpers] at hholes
  -- Nothing is written and no hole is used up at first.
  have hstart : Synced r holes [] { holes := holes } := ⟨rfl, fun _ _ _ => rfl⟩
  obtain ⟨l, hlower, hstep⟩ := (simulates_description hr hbody).simulates hstart hend hholes
  obtain ⟨hs, text, hget, hdeclares, hfragment, hlowers⟩ := hstep.kept t hneeded honce
  have hsame := hlowers.saysTheSame hfragment
  refine ⟨l, text, Sketch.codeOf t.value hs, hlower, hget, hcode ▸ hdeclares, hsame,
    fun hown σ => ?_, ?_⟩
  · rw [Code.value?_of_callsOwn hown]
    exact hsame σ
  · obtain ⟨symbols, hsymbols, -⟩ := hfragment.code_reads Sketch.lastInputs hs
    exact Code.faithful_iff_callsOwn Sketch.namedHelper_family ⟨symbols, hsymbols⟩

/-! ### Three-way multiplexers in one another -/

namespace NestedMultiplexers

/-- `Mux3(Mux3(metadata_lo, metadata_hi, 5), metadata_hi, 7)` -/
def value : Alu.Temporary where
  sort := .int
  name := "update_lo_1_value"
  value := .mux3Num (.mux3Num (.var "metadata_lo") (.var "metadata_hi") "5") (.var "metadata_hi") "7"

def description : Alu.Description where
  indicator := .stateful
  stateVars := ["state_lo"]
  holeVars := []
  packetFields := ["metadata_lo", "metadata_hi"]
  body := .cons (.temp value.sort value.name value.value ";") (.last (.ret (.num "0") ";"))

def setting : Setting :=
  ⟨"alu", [], containerText 0, containerText 1⟩

/-- The outer multiplexer passes on its last input. -/
def holeValues : Table Int :=
  .ofList [("alu_Mux3_0_global", 0), ("alu_Mux3_1_global", 2)]

def draft : Sketch.StatefulAlu.Draft :=
  ((Sketch.StatefulAlu.putSource (.whole description)).run.run {}).2

def sketch : Sketch.StatefulAlu :=
  ⟨"alu", 2, draft.helpers, draft.main, draft.packetFields, draft.stateVars⟩

/-- The code of the declaration. Its outer call names the helper of the inner multiplexer. -/
def declared : Code :=
  .call (.mux3Num "7") 0
    [.call (.mux3Num "5") 0 [.text "metadata_lo", .text "metadata_hi"] 0, .text "metadata_hi"] 1

theorem setting_wellFormed : setting.WellFormed where
  low := ⟨⟨by decide, kind_eq_of_all rfl⟩, rfl, rfl⟩
  high := ⟨⟨by decide, kind_eq_of_all rfl⟩, rfl, rfl⟩
  constants := fun _ h => nomatch h

theorem holeValues_assigned : Assigned setting holeValues sketch.helpers := by
  intro h hmem
  have hhelpers : sketch.helpers = [⟨.mux3Num "5", 0⟩, ⟨.mux3Num "7", 1⟩] := rfl
  rw [hhelpers] at hmem
  rcases List.mem_cons.1 hmem with rfl | hmem
  · exact ⟨0, by decide +kernel, fun h => nomatch h⟩
  · obtain rfl := List.mem_singleton.1 hmem
    exact ⟨2, by decide +kernel, fun h => nomatch h⟩

theorem description_inFragment : description.body.InFragment := by
  have hlow : Sketch.InFragment .int (.var "metadata_lo") :=
    .var ⟨⟨by decide, kind_eq_of_all rfl⟩, rfl, rfl⟩
  have hhigh : Sketch.InFragment .int (.var "metadata_hi") :=
    .var ⟨⟨by decide, kind_eq_of_all rfl⟩, rfl, rfl⟩
  have hinner : Sketch.InFragment .int
      (.mux3Num (.var "metadata_lo") (.var "metadata_hi") "5") :=
    .primitive rfl (.mux3Num .int ⟨by decide, rfl⟩) (by simp [hlow, hhigh])
  have houter : Sketch.InFragment .int value.value :=
    .primitive rfl (.mux3Num .int ⟨by decide, rfl⟩) (by simp [hinner, hhigh])
  exact ⟨houter, trivial⟩

/-- The text reads as seven, and so is the code meant, but with the helper it names the code is five. -/
theorem text_is_seven_code_is_five :
    (∃ l text code, lower setting holeValues (.whole description) = (.ok (), l) ∧
      l.expressions.get? (value.name ++ "_expr") = some text ∧
      sketch.code.Declares value.sort value.name code ∧
      SaysTheSame setting holeValues ownHelper value.sort text code ∧
      (code.CallsOwn (namedHelper sketch.name sketch.helpers) →
        SaysTheSame setting holeValues (namedHelper sketch.name sketch.helpers) value.sort text
          code) ∧
      (code.Faithful (namedHelper sketch.name sketch.helpers) ↔
        code.CallsOwn (namedHelper sketch.name sketch.helpers))) ∧
    (lower setting holeValues (.whole description)).2.expressions.get? (value.name ++ "_expr") =
      some "7" ∧
    sketch.code.Declares value.sort value.name declared ∧
    declared.value? ownHelper (circumstances setting holeValues fun _ => 0) = some 7 ∧
    declared.value? (namedHelper sketch.name sketch.helpers)
      (circumstances setting holeValues fun _ => 0) = some 5 :=
  ⟨temporaries_keep_meaning_iff_calls_name_own_helpers setting_wellFormed (t := value) rfl
      description_inFragment holeValues_assigned (by decide) (by decide),
    by decide +kernel, ⟨_, .append (.append (.append (.append (.append .refl))))⟩,
    by decide +kernel, by decide +kernel⟩

end NestedMultiplexers

end P4.StatefulAlu

end SwitchSynth
