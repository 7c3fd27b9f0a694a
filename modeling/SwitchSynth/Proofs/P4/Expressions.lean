import SwitchSynth.P4.Program
import SwitchSynth.Proofs.P4.Forms
import SwitchSynth.Proofs.P4.Lowering
import SwitchSynth.Proofs.Sketch.Helpers

/-!
# Lowered expressions mean what the sketch means

A sketch and a switch program number the primitives of a stateful ALU alike, so the hole of a primitive is
still there when it is resolved. Every expression is lowered to a text that reads as the value which the
expression has in the sketch.
-/

namespace SwitchSynth.P4

open Alu (Expr TempSort)
open Reading
open Sketch (Primitive Family Helper Circumstances familyCount helpersAfter helpersAfterAll meaningOf
  meaningsOf primitive? InFragment IsAtomic Signature sortLevel)

/-- What a variable of an ALU is called in the switch program. -/
def Setting.textOf (r : Setting) (name : String) : String :=
  if name = "metadata_lo" then r.lowOperand
  else if name = "metadata_hi" then r.highOperand
  else name

/-- Operands are names and constants are numerals. -/
structure Setting.WellFormed (r : Setting) : Prop where
  low : IsName r.lowOperand
  high : IsName r.highOperand
  constants : ∀ c ∈ r.constants, IsNumeral c

variable {r : Setting} {holes : Table Int} {hs : List Helper} {l : Lowering}

theorem Setting.WellFormed.textOf_isName (hr : r.WellFormed) {name : String}
    (hname : IsName name) : IsName (r.textOf name) := by
  unfold Setting.textOf
  split
  · exact hr.low
  · split
    · exact hr.high
    · exact hname

/-- What the values of holes, and those of the names of a switch program, mean in the sketch. -/
def circumstances (r : Setting) (holes : Table Int) (σ : String → Int) : Circumstances where
  holes f n := ((holes.get? (f.globalHole r.alu n)).getD 0).toNat
  constants := r.constants
  names x := σ (r.textOf x)

/-- As many primitives have been resolved as there are helpers, and the other holes are untouched. -/
structure Synced (r : Setting) (holes : Table Int) (hs : List Helper) (l : Lowering) : Prop where
  resolved : l.resolved = hs.map fun h => h.primitive.family
  untouched : ∀ f n, familyCount f hs ≤ n →
    l.holes.get? (f.globalHole r.alu n) = holes.get? (f.globalHole r.alu n)

/-- The holes of helpers have values, and those of constants lead to one. -/
def Assigned (r : Setting) (holes : Table Int) (hs : List Helper) : Prop :=
  ∀ h ∈ hs, ∃ n : Nat, holes.get? (h.globalHole r.alu) = some (n : Int) ∧
    (h.primitive = .constant → n < r.constants.length)

theorem Assigned.mono {hs' : List Helper}
    (h : Assigned r holes hs') (hextends : hs <+: hs') : Assigned r holes hs :=
  fun x hx => h x (hextends.subset hx)

theorem Synced.count_eq
    (h : Synced r holes hs l) (f : Family) : l.count f = familyCount f hs := by
  rw [Lowering.count, h.resolved, List.count_eq_countP, List.countP_map, familyCount]
  rfl

theorem Synced.resolve
    (h : Synced r holes hs l) (p : Primitive) :
    Synced r holes (hs ++ [⟨p, familyCount p.family hs⟩])
      { l with
        holes := l.holes.erase (p.family.globalHole r.alu (familyCount p.family hs))
        resolved := l.resolved ++ [p.family] } := by
  refine ⟨by rw [List.map_append, h.resolved]; rfl, fun f n hn => ?_⟩
  rw [Sketch.familyCount_append_self] at hn
  -- A hole that comes later has another number or another family.
  have hne : p.family.globalHole r.alu (familyCount p.family hs) ≠ f.globalHole r.alu n := by
    intro heq
    obtain ⟨rfl, rfl⟩ := Sketch.Family.globalHole_inj heq
    rw [if_pos rfl] at hn
    omega
  rw [Table.get?_erase, if_neg hne]
  exact h.untouched f n (by omega)

namespace StatefulAlu

variable {r : Setting} {holes : Table Int} {hs : List Helper} {l : Lowering}

variable {p : Primitive} {text : String} {e : Expr} {es : List Expr} {s : TempSort}

theorem resolvePrimitive_ends (hp : p.family ≠ .opt) (hsync : Synced r holes hs l)
    {n : Nat} {operands : List (Option String)}
    (hvalue : holes.get? (p.family.globalHole r.alu (familyCount p.family hs)) = some (n : Int))
    (hconstant : p = .constant → r.constants[n]? = some text)
    (hresolve : p ≠ .constant → P4.resolve p operands n = some text) :
    ∃ l', EndsIn (resolvePrimitive p operands) r l (some text) l' ∧
      Synced r holes (hs ++ [⟨p, familyCount p.family hs⟩]) l' ∧ l'.expressions = l.expressions := by
  have hnumber : holeNumber l p.family = familyCount p.family hs := by
    rw [← hsync.count_eq]
    cases hf : p.family with
    | opt => exact absurd hf hp
    | _ => rfl
  have hhole : nextHole r l p = p.family.globalHole r.alu (familyCount p.family hs) := by
    rw [nextHole, hnumber]
  have hthere : l.holes.get? (nextHole r l p) = some (n : Int) := by
    rw [hhole]
    exact (hsync.untouched _ _ (Nat.le_refl _)).trans hvalue
  have hevaluated : evaluated r.constants p operands n = .ok (some text) := by
    by_cases hconst : p = .constant
    · subst hconst
      show (atPlace r.constants (Int.ofNat n)).map some = .ok (some text)
      rw [atPlace, hconstant rfl]
      rfl
    · have htext := hresolve hconst
      cases p with
      | constant => exact absurd rfl hconst
      | _ => exact congrArg Except.ok htext
  refine ⟨_, endsIn_resolvePrimitive.2 ⟨n, hthere, hevaluated, rfl⟩, ?_, rfl⟩
  rw [afterPrimitive, hhole]
  exact hsync.resolve p

theorem variableText_ends (r : Setting) (l : Lowering) (name : String) :
    EndsIn (variableText name) r l (r.textOf name) l := by
  unfold variableText Setting.textOf
  split
  · exact endsIn_bind.2 ⟨r, l, endsIn_read.2 ⟨rfl, rfl⟩, endsIn_pure.2 ⟨rfl, rfl⟩⟩
  · split
    · exact endsIn_bind.2 ⟨r, l, endsIn_read.2 ⟨rfl, rfl⟩, endsIn_pure.2 ⟨rfl, rfl⟩⟩
    · exact endsIn_pure.2 ⟨rfl, rfl⟩

theorem lowerExpr_of_primitive
    (h : primitive? e = some (p, es)) :
    lowerExpr e = es.mapM lowerExpr >>= resolvePrimitive p := by
  cases e <;> cases h <;> simp [lowerExpr, List.mapM_cons]

/-- An expression is lowered to a text that reads as its value. -/
structure LowersTo (r : Setting) (holes : Table Int) (s : TempSort) (e : Expr) (hs : List Helper)
    (text : String) : Prop where
  reads : ∀ σ, ∃ v, Reads σ (sortLevel s) (chars text) v ∧
    Agree s v (meaningOf (circumstances r holes σ) e hs)
  atomic : IsAtomic e → Apart .sign (chars text) ∧ ∀ σ, ∃ v, Reads σ atomLevel (chars text) v ∧
    Agree s v (meaningOf (circumstances r holes σ) e hs)

/-- Lowering an expression ends with its text, and uses up the holes of its primitives. -/
def Lowers (r : Setting) (holes : Table Int) (s : TempSort) (e : Expr) : Prop :=
  ∀ {hs l}, Synced r holes hs l → Assigned r holes (helpersAfter e hs) → ∃ text l',
    EndsIn (lowerExpr e) r l (some text) l' ∧ Synced r holes (helpersAfter e hs) l' ∧
    l'.expressions = l.expressions ∧ LowersTo r holes s e hs text

theorem operands_lower {t : TempSort}
    (hes : ∀ e ∈ es, InFragment t e) (hlowers : ∀ e ∈ es, Lowers r holes t e)
    (hsync : Synced r holes hs l) (hassigned : Assigned r holes (helpersAfterAll es hs)) :
    ∃ texts l', EndsIn (es.mapM lowerExpr) r l texts l' ∧
      Synced r holes (helpersAfterAll es hs) l' ∧ l'.expressions = l.expressions ∧
      ∀ σ, ∃ vs, vs.length = es.length ∧ Form.OperandsRead σ (sortLevel t) vs texts ∧
        AgreeAll t vs (meaningsOf (circumstances r holes σ) es hs) := by
  induction es generalizing hs l with
  | nil =>
    refine ⟨[], l, by simp, hsync, rfl, fun σ => ⟨[], rfl, ?_, .nil⟩⟩
    intro n v hv
    simp at hv
  | cons e es ih =>
    have htail : ∀ e' ∈ es, ∀ hs, hs <+: helpersAfter e' hs := fun e' he' =>
      Sketch.helpersAfter_extends (hes e' (List.mem_cons_of_mem _ he'))
    have hfirst : Assigned r holes (helpersAfter e hs) :=
      hassigned.mono (Sketch.helpersAfterAll_extends htail _)
    obtain ⟨text, l₁, hend, hsync₁, hexpr₁, hreads⟩ := hlowers e List.mem_cons_self hsync hfirst
    obtain ⟨texts, l₂, hends, hsync₂, hexpr₂, hrest⟩ :=
      ih (fun e' he' => hes e' (List.mem_cons_of_mem _ he'))
        (fun e' he' => hlowers e' (List.mem_cons_of_mem _ he')) hsync₁ hassigned
    refine ⟨some text :: texts, l₂, ?_, hsync₂, hexpr₂.trans hexpr₁, fun σ => ?_⟩
    · rw [List.mapM_cons]
      simp only [endsIn_bind, endsIn_pure]
      exact ⟨some text, l₁, hend, texts, l₂, hends, rfl, rfl⟩
    · obtain ⟨v, hv, hagree⟩ := hreads.reads σ
      obtain ⟨vs, hlength, hoperands, hagrees⟩ := hrest σ
      refine ⟨v :: vs, by simp [hlength], fun n w hw => ?_, .cons hagree hagrees⟩
      cases n with
      | zero =>
        obtain rfl : v = w := by simpa using hw
        exact ⟨text, rfl, hv⟩
      | succ n => exact hoperands n w (by simpa using hw)

theorem LowersTo.of_atom
    (happart : Apart .sign (chars text))
    (h : ∀ σ, ∃ v, Reads σ atomLevel (chars text) v ∧
      Agree s v (meaningOf (circumstances r holes σ) e hs)) : LowersTo r holes s e hs text := by
  refine ⟨fun σ => ?_, fun _ => ⟨happart, h⟩⟩
  obtain ⟨v, hv, hagree⟩ := h σ
  exact ⟨v, hv.mono (Sketch.sortLevel_le_atomLevel s), hagree⟩

theorem apart_parentheses (text : String) : Apart .sign (chars ("(" ++ text ++ ")")) := by
  rw [Form.chars_parentheses]
  exact ⟨.char '(', chars text ++ [.char ')'], rfl, by rintro c hc; cases hc; decide⟩

theorem sum_lowersTo {op : Alu.BinaryOp} {left right : Expr} {a b : String}
    (hop : op = .add ∨ op = .sub) (hleft : InFragment .int left)
    (hright : IsAtomic right) (ha : LowersTo r holes .int left hs a)
    (hb : LowersTo r holes .int right (helpersAfter left hs) b) :
    LowersTo r holes .int (.binary op left right) hs (a ++ op.text ++ b) := by
  refine ⟨fun σ => ?_, fun hfalse => hfalse.elim⟩
  obtain ⟨v, hv, hva⟩ := ha.reads σ
  obtain ⟨happart, hreads⟩ := hb.atomic hright
  obtain ⟨w, hw, hwb⟩ := hreads σ
  cases hva
  cases hwb
  refine ⟨_, ?_, rfl⟩
  rw [Sketch.meaningOf_sum hleft, chars_append, chars_append]
  exact Sketch.reads_sum hop hv hw happart

section Primitives

variable {s t : TempSort} {e : Expr} {p : Primitive} {es : List Expr} {k : Nat}

theorem circumstances_hole {f : Family} {n : Nat} {σ : String → Int}
    (h : holes.get? (f.globalHole r.alu n) = some (k : Int)) :
    (circumstances r holes σ).holes f n = k := by
  simp [circumstances, h]

theorem meaningOf_primitive (hp : primitive? e = some (p, es)) (hes : ∀ x ∈ es, InFragment t x)
    (h : holes.get? (p.family.globalHole r.alu (familyCount p.family (helpersAfterAll es hs))) =
      some (k : Int)) (σ : String → Int) :
    meaningOf (circumstances r holes σ) e hs =
      p.apply r.constants k (meaningsOf (circumstances r holes σ) es hs) := by
  have hrun : meaningOf (circumstances r holes σ) e hs = _ := congrArg Prod.fst
    (Sketch.run_meaning_of_primitive hp (fun x hx hs => (hes x hx).helpers_eq _ hs) hs)
  rw [hrun, circumstances_hole h]
  rfl

theorem constant_lowersTo (hr : r.WellFormed) (hp : primitive? e = some (.constant, es))
    (hes : ∀ x ∈ es, InFragment t x) {c : String} (hc : r.constants[k]? = some c)
    (h : holes.get? (Family.globalHole .constant r.alu
      (familyCount .constant (helpersAfterAll es hs))) = some (k : Int)) :
    LowersTo r holes s e hs c := by
  have hnumeral := hr.constants c (List.mem_of_getElem? hc)
  refine .of_atom hnumeral.isWord.apart fun σ => ⟨numeral c, reads_numeral hnumeral, ?_⟩
  have hvalue : meaningOf (circumstances r holes σ) e hs = numeral c := by
    rw [meaningOf_primitive hp hes h σ]
    show (r.constants[k]?.map numeral).getD 0 = numeral c
    rw [hc]
    rfl
  rw [hvalue]
  exact agree_refl s _

theorem resolved_lowersTo (hp : primitive? e = some (p, es)) (hsig : Signature p t s)
    (hconst : p ≠ .constant) (hes : ∀ x ∈ es, InFragment t x) {texts : List (Option String)}
    (hoperands : ∀ σ, ∃ vs, vs.length = es.length ∧ Form.OperandsRead σ (sortLevel t) vs texts ∧
      AgreeAll t vs (meaningsOf (circumstances r holes σ) es hs))
    (h : holes.get? (p.family.globalHole r.alu (familyCount p.family (helpersAfterAll es hs))) =
      some (k : Int)) :
    ∃ text, P4.resolve p texts k = some text ∧ LowersTo r holes s e hs text := by
  have hreads (σ : String → Int) : ∃ text v, P4.resolve p texts k = some text ∧
      Reads σ (sortLevel s) (chars text) v ∧
      Agree s v (meaningOf (circumstances r holes σ) e hs) := by
    obtain ⟨vs, hlength, hvs, hagree⟩ := hoperands σ
    rw [meaningOf_primitive hp hes h σ]
    exact resolve_reads hsig hconst hagree
      (hlength.trans (Sketch.length_of_primitive hp)) hvs r.constants k
  obtain ⟨text, _, htext, -⟩ := hreads fun _ => 0
  refine ⟨text, htext, fun σ => ?_, fun hatomic => ?_⟩
  · -- The text does not depend on the values of the names.
    obtain ⟨text', v, htext', hv, hagree⟩ := hreads σ
    rw [htext] at htext'
    cases htext'
    exact ⟨v, hv, hagree⟩
  · -- The only primitive that stands by itself is a constant.
    cases e with
    | const => cases hp; exact absurd rfl hconst
    | var | num | paren => exact nomatch hp
    | _ => exact hatomic.elim

end Primitives

/-- Every expression of the fragment is lowered to a text that reads as the value it has in the sketch. -/
theorem lowers (hr : r.WellFormed) (h : InFragment s e) :
    Lowers r holes s e := by
  induction h with
  | @var s name hname =>
    intro hs l hsync _
    have htext := hr.textOf_isName hname
    refine ⟨r.textOf name, l, ?_, hsync, rfl,
      .of_atom htext.isWord.apart fun σ => ⟨_, reads_name htext, agree_refl s _⟩⟩
    unfold lowerExpr
    exact endsIn_bind.2 ⟨_, l, variableText_ends r l name, endsIn_pure.2 ⟨rfl, rfl⟩⟩
  | @num s digits hdigits =>
    intro hs l hsync _
    refine ⟨digits, l, ?_, hsync, rfl,
      .of_atom hdigits.isWord.apart fun σ => ⟨_, reads_numeral hdigits, agree_refl s _⟩⟩
    unfold lowerExpr
    exact endsIn_pure.2 ⟨rfl, rfl⟩
  | @paren s e _ ih =>
    intro hs l hsync hassigned
    obtain ⟨text, l', hend, hsync', hexpr, hlowers⟩ := ih hsync hassigned
    refine ⟨"(" ++ text ++ ")", l', ?_, hsync', hexpr,
      .of_atom (apart_parentheses text) fun σ => ?_⟩
    · unfold lowerExpr
      simp only [endsIn_bind]
      exact ⟨_, l', hend, text, l', endsIn_pure.2 ⟨rfl, rfl⟩, endsIn_pure.2 ⟨rfl, rfl⟩⟩
    · obtain ⟨v, hv, hagree⟩ := hlowers.reads σ
      rw [Form.chars_parentheses]
      exact ⟨v, reads_group hv (Sketch.one_le_sortLevel s), hagree⟩
  | @sum op left right hop hleft hright hatomic ihl ihr =>
    intro hs l hsync hassigned
    have hassigned' : Assigned r holes (helpersAfter left hs) :=
      hassigned.mono (Sketch.helpersAfter_extends hright _)
    obtain ⟨a, l₁, hend₁, hsync₁, hexpr₁, ha⟩ := ihl hsync hassigned'
    obtain ⟨b, l₂, hend₂, hsync₂, hexpr₂, hb⟩ := ihr hsync₁ hassigned
    refine ⟨a ++ op.text ++ b, l₂, ?_, hsync₂, hexpr₂.trans hexpr₁,
      sum_lowersTo hop hleft hatomic ha hb⟩
    unfold lowerExpr
    rcases hop with rfl | rfl <;>
    · simp only [endsIn_bind]
      exact ⟨_, l₁, hend₁, a, l₁, endsIn_pure.2 ⟨rfl, rfl⟩, _, l₂, hend₂, b, l₂,
        endsIn_pure.2 ⟨rfl, rfl⟩, endsIn_pure.2 ⟨rfl, rfl⟩⟩
  | @primitive s t e p es hp hsig hes ih =>
    -- The operands are lowered first; the hole of the primitive is the one that is free after them.
    intro hs l hsync hassigned
    have hafter : helpersAfter e hs = _ := congrArg Prod.snd (Sketch.run_exprCode_of_primitive hp hs)
    rw [hafter] at hassigned ⊢
    obtain ⟨k, hk, hplace⟩ := hassigned _ (List.mem_append_right _ (List.mem_singleton.2 rfl))
    obtain ⟨texts, l₁, hends, hsync₁, hexpr₁, hoperands⟩ :=
      operands_lower hes ih hsync (hassigned.mono (List.prefix_append _ _))
    have htext : ∃ text, (p = .constant → r.constants[k]? = some text) ∧
        (p ≠ .constant → P4.resolve p texts k = some text) ∧ LowersTo r holes s e hs text := by
      by_cases hconst : p = .constant
      · subst hconst
        obtain ⟨c, hc⟩ : ∃ c, r.constants[k]? = some c :=
          ⟨_, List.getElem?_eq_getElem (hplace rfl)⟩
        exact ⟨c, fun _ => hc, fun hne => absurd rfl hne, constant_lowersTo hr hp hes hc hk⟩
      · obtain ⟨text, htext, hlowers⟩ := resolved_lowersTo hp hsig hconst hes hoperands hk
        exact ⟨text, fun hp => absurd hp hconst, fun _ => htext, hlowers⟩
    obtain ⟨text, hconstant, hresolve, hlowers⟩ := htext
    obtain ⟨l₂, hend, hsync₂, hexpr₂⟩ :=
      resolvePrimitive_ends hsig.family_ne_opt hsync₁ hk hconstant hresolve
    refine ⟨text, l₂, ?_, hsync₂, hexpr₂.trans hexpr₁, hlowers⟩
    rw [lowerExpr_of_primitive hp]
    exact endsIn_bind.2 ⟨texts, l₁, hends, hend⟩

end StatefulAlu

end SwitchSynth.P4
