import Mathlib.Data.List.Nodup
import SwitchSynth.Proofs.Sketch.Functions

/-!
# The calls of primitives

Every use of a primitive in a stateful ALU becomes a call. The call passes the hole of its own use, but it goes by
the number that was free before its operands: where an operand uses a primitive of the same family, the call names
the helper of the first such one. That is a helper with other parameters or another numeral for some nested three-way
multiplexers, and one that computes the same everywhere else.
-/

namespace SwitchSynth

open Alu (Expr Stmt Body Else)

namespace Sketch

open Text (Lists Blank)

/-! ### Calls in code -/

mutual
theorem Code.contains_of_mem_calls (alu parameters : String) {call : Code} :
    ∀ {code : Code}, call ∈ code.calls →
      Text.Contains (code.render alu parameters) (call.render alu parameters)
  | .text _, h | .aluName, h | .parameters, h => by simp [Code.calls] at h
  | .append a b, h => by
    rw [Code.calls, List.mem_append] at h
    rw [Code.render]
    rcases h with h | h
    · exact (Code.contains_of_mem_calls alu parameters h).append_left
    · exact (Code.contains_of_mem_calls alu parameters h).append_right
  | .call p helper operands hole, h => by
    rw [Code.calls, List.mem_cons] at h
    rcases h with rfl | h
    · exact .refl _
    · rw [Code.render]
      exact (Code.contains_of_mem_callsAll alu parameters h).append_right.append_left.append_left
theorem Code.contains_of_mem_callsAll (alu parameters : String) {call : Code} :
    ∀ {codes : List Code}, call ∈ Code.callsAll codes →
      Text.Contains (Code.renderOperands alu parameters codes) (call.render alu parameters)
  | [], h => by simp [Code.callsAll] at h
  | c :: cs, h => by
    rw [Code.callsAll, List.mem_append] at h
    rw [Code.renderOperands]
    rcases h with h | h
    · exact (Code.contains_of_mem_calls alu parameters h).append_left.append_left
    · exact (Code.contains_of_mem_callsAll alu parameters h).append_right
end

theorem Code.renderOperands_eq_join (alu parameters : String) (codes : List Code) :
    Code.renderOperands alu parameters codes =
      String.join ((codes.map (Code.render alu parameters)).map fun w => "" ++ w ++ "," ++ "") := by
  induction codes with
  | nil => rfl
  | cons c cs ih =>
    rw [Code.renderOperands, ih]
    simp

/-! ### Uses of primitives -/

/-- A use of a primitive in an expression that is written behind some helpers. -/
structure Use where
  primitive : Primitive
  operands : List Expr
  /-- The helpers there are before the operands. -/
  before : List Helper

namespace Use

def site (u : Use) : Primitive × List Expr :=
  (u.primitive, u.operands)

/-- The helper that is made for a use, behind those for its operands. -/
def own (u : Use) : Helper :=
  ⟨u.primitive, familyCount u.primitive.family (helpersAfterAll u.operands u.before)⟩

def number (u : Use) : Nat :=
  familyCount u.primitive.family u.before

def codes (u : Use) : List Code :=
  codesOf u.operands u.before

def call (u : Use) : Code :=
  .call u.primitive u.number u.codes u.own.number

/-- A use is met when there are some helpers and there will be others. -/
def Between (u : Use) (hs hs' : List Helper) : Prop :=
  ∃ earlier later, u.before = numbered hs earlier ∧
    hs' = numbered u.before (u.operands.flatMap primitives ++ u.primitive :: later)

end Use

/-- Going from some helpers to others, the uses of primitives at some sites are met. They are what the calls are
written for and what the additional helpers are made for. -/
def Accounts (hs : List Helper) (sites : List (Primitive × List Expr)) (calls : List Code)
    (hs' : List Helper) : Prop :=
  (∃ ps, hs' = numbered hs ps) ∧
  ∃ us : List Use, us.map Use.site = sites ∧ us.map Use.call = calls ∧
    hs'.Perm (hs ++ us.map Use.own) ∧ ∀ u ∈ us, u.Between hs hs'

namespace Accounts

variable {hs hs₁ hs₂ : List Helper} {sites sites' : List (Primitive × List Expr)} {calls calls' : List Code}

theorem nil (hs : List Helper) : Accounts hs [] [] hs :=
  ⟨⟨[], rfl⟩, [], rfl, rfl, by simp, nofun⟩

theorem append (h : Accounts hs sites calls hs₁) (h' : Accounts hs₁ sites' calls' hs₂) :
    Accounts hs (sites ++ sites') (calls ++ calls') hs₂ := by
  obtain ⟨⟨ps, hps⟩, us, hsites, hcalls, hperm, hbetween⟩ := h
  obtain ⟨⟨qs, hqs⟩, vs, hsites', hcalls', hperm', hbetween'⟩ := h'
  refine ⟨⟨ps ++ qs, by rw [hqs, hps, numbered_append]⟩, us ++ vs, ?_, ?_, ?_, ?_⟩
  · rw [List.map_append, hsites, hsites']
  · rw [List.map_append, hcalls, hcalls']
  · rw [List.map_append, ← List.append_assoc]
    exact hperm'.trans (hperm.append_right _)
  · intro u hu
    rcases List.mem_append.1 hu with hu | hu
    · obtain ⟨earlier, later, hbefore, hafter⟩ := hbetween u hu
      refine ⟨earlier, later ++ qs, hbefore, ?_⟩
      rw [hqs, hafter, ← numbered_append, List.append_assoc, List.cons_append]
    · obtain ⟨earlier, later, hbefore, hafter⟩ := hbetween' u hu
      exact ⟨ps ++ earlier, later, by rw [hbefore, hps, numbered_append], hafter⟩

end Accounts

theorem accounts_codes {es : List Expr}
    (hes : ∀ e ∈ es, ∀ hs, Accounts hs (e.parts.filterMap primitive?) (codeOf e hs).calls (helpersAfter e hs))
    (hs : List Helper) :
    Accounts hs (es.flatMap fun e => e.parts.filterMap primitive?) (Code.callsAll (codesOf es hs))
      (helpersAfterAll es hs) := by
  induction es generalizing hs with
  | nil => exact .nil hs
  | cons e es ih =>
    exact (hes e List.mem_cons_self hs).append
      (ih (fun e' he' => hes e' (List.mem_cons_of_mem e he')) (helpersAfter e hs))

theorem accounts_exprCode (e : Expr) (hs : List Helper) :
    Accounts hs (e.parts.filterMap primitive?) (codeOf e hs).calls (helpersAfter e hs) := by
  induction e using primitive_induction generalizing hs with
  | var name => exact .nil hs
  | num digits => exact .nil hs
  | truth => exact .nil hs
  | paren inner close ih =>
    have hcalls : (codeOf (.paren inner close) hs).calls = (codeOf inner hs).calls := by
      show (Code.text "(" ++ codeOf inner hs ++ Code.text ")").calls = _
      simp
    rw [hcalls]
    exact ih hs
  | binary op left right ihl ihr =>
    have hcalls : (codeOf (.binary op left right) hs).calls =
        (codeOf left hs).calls ++ (codeOf right (helpersAfter left hs)).calls := by
      show (codeOf left hs ++ Code.text (StatefulAlu.operatorText op) ++
        codeOf right (helpersAfter left hs)).calls = _
      simp
    rw [hcalls, Expr.parts, List.filterMap_cons, List.filterMap_append]
    exact (ihl hs).append (ihr (helpersAfter left hs))
  | not operand ih =>
    have hcalls : (codeOf (.not operand) hs).calls = (codeOf operand hs).calls := by
      show (Code.text " !" ++ codeOf operand hs).calls = _
      simp
    rw [hcalls]
    exact ih hs
  | ternary condition yes no ihc ihy ihn =>
    have hcalls : (codeOf (.ternary condition yes no) hs).calls = (codeOf condition hs).calls ++
        (codeOf yes (helpersAfter condition hs)).calls ++
        (codeOf no (helpersAfter yes (helpersAfter condition hs))).calls := by
      show (codeOf condition hs ++ codeOf yes (helpersAfter condition hs) ++
        codeOf no (helpersAfter yes (helpersAfter condition hs))).calls = _
      simp
    rw [hcalls, Expr.parts, List.filterMap_cons, List.filterMap_append, List.filterMap_append]
    exact ((ihc hs).append (ihy _)).append (ihn _)
  | primitive e p es hp ih =>
    obtain ⟨⟨ps, hps⟩, us, hsites, hcalls, hperm, hbetween⟩ := accounts_codes ih hs
    have hafterAll : helpersAfterAll es hs = numbered hs (es.flatMap primitives) :=
      helpersAfterAll_eq_numbered (fun e _ => helpersAfter_eq_numbered e) hs
    have hrun := run_exprCode_of_primitive hp hs
    -- The use itself comes before those in its operands, though its helper comes behind theirs.
    let u : Use := ⟨p, es, hs⟩
    have hcode : codeOf e hs = u.call := congrArg Prod.fst hrun
    have hafter : helpersAfter e hs = helpersAfterAll es hs ++ [u.own] := congrArg Prod.snd hrun
    have hnumbered : helpersAfter e hs = numbered hs (es.flatMap primitives ++ [p]) := by
      rw [helpersAfter_eq_numbered, primitives_of_primitive hp]
    refine ⟨⟨_, hnumbered⟩, u :: us, ?_, ?_, ?_, ?_⟩
    · rw [parts_of_primitive hp, List.filterMap_cons, hp, List.map_cons, hsites, List.filterMap_flatMap]
      rfl
    · rw [hcode, Use.call, Code.calls, List.map_cons, hcalls]
      rfl
    · rw [hafter, List.map_cons]
      refine (hperm.append_right [u.own]).trans ?_
      rw [List.append_assoc]
      exact (List.perm_append_singleton _ _).append_left hs
    · intro v hv
      rcases List.mem_cons.1 hv with rfl | hv
      · exact ⟨[], [], rfl, hnumbered⟩
      · obtain ⟨earlier, later, hbefore, hlater⟩ := hbetween v hv
        refine ⟨earlier, later ++ [p], hbefore, ?_⟩
        rw [hnumbered, numbered_append, ← hafterAll, hlater, ← numbered_append, List.append_assoc,
          List.cons_append]

theorem Grows.accounts {main main' : Code} {hs hs' : List Helper} {parts : List Expr}
    (h : Grows main hs parts main' hs') : ∃ calls, main'.calls = main.calls ++ calls ∧
      Accounts hs (parts.filterMap primitive?) calls hs' := by
  induction h with
  | refl => exact ⟨[], by simp, .nil _⟩
  | text _ hc ih =>
    obtain ⟨calls, hcalls, haccounts⟩ := ih
    exact ⟨calls, by rw [Code.calls_append, hc, List.append_nil, hcalls], haccounts⟩
  | @expr parts main' hs' e _ ih =>
    obtain ⟨calls, hcalls, haccounts⟩ := ih
    refine ⟨calls ++ (codeOf e hs').calls, by rw [Code.calls_append, hcalls, List.append_assoc], ?_⟩
    rw [List.filterMap_append]
    exact haccounts.append (accounts_exprCode e hs')

/-- The calls and the helpers of the ALU of a description are for the uses of primitives in its body. -/
theorem StatefulAlu.accounts_ofSource {name : String} {bits : Int} {d : Alu.Description} {alu : StatefulAlu}
    (h : ofSource name bits (.whole d) = .ok alu) :
    alu.name = name ∧ Accounts [] (d.body.parts.filterMap primitive?) alu.code.calls alu.helpers := by
  obtain ⟨_, hsource, hname, -, -, -, hgrows⟩ := ofSource_ok h
  cases hsource
  obtain ⟨calls, hcalls, haccounts⟩ := hgrows.accounts
  -- The head of the function has no call.
  have hhead : (headCode d.packetFields).calls = [] := rfl
  rw [hhead, List.nil_append] at hcalls
  exact ⟨hname, hcalls ▸ haccounts⟩

/-! ### The helper that a call names -/

theorem familyCount_numbered (f : Family) (hs : List Helper) (ps : List Primitive) :
    familyCount f (numbered hs ps) = familyCount f hs + ps.countP fun p => p.family = f := by
  induction ps generalizing hs with
  | nil => simp
  | cons p ps ih =>
    have hcons : numbered hs (p :: ps) = numbered (hs ++ [⟨p, familyCount p.family hs⟩]) ps := rfl
    rw [hcons, ih, familyCount_append_self, List.countP_cons]
    simp only [decide_eq_true_eq]
    omega

theorem mem_numbered_of_mem {hs : List Helper} {h : Helper} (hmem : h ∈ hs) (ps : List Primitive) :
    h ∈ numbered hs ps := by
  induction ps generalizing hs with
  | nil => exact hmem
  | cons p ps ih => exact ih (List.mem_append_left _ hmem)

/-- The first primitive of a family behind some helpers gets the number of them. -/
theorem mem_numbered_of_find {f : Family} {ps : List Primitive} {q : Primitive}
    (hfind : ps.find? (fun p => p.family = f) = some q) (hs : List Helper) :
    ⟨q, familyCount f hs⟩ ∈ numbered hs ps := by
  obtain ⟨hq, earlier, later, rfl, hnone⟩ := List.find?_eq_some_iff_append.1 hfind
  have hfamily : q.family = f := by simpa using hq
  have hzero : earlier.countP (fun p => p.family = f) = 0 :=
    List.countP_eq_zero.2 fun p hp => by simpa using hnone p hp
  have hcount : familyCount f (numbered hs earlier) = familyCount f hs := by
    rw [familyCount_numbered, hzero, Nat.add_zero]
  rw [numbered_append, ← hcount, ← hfamily]
  exact mem_numbered_of_mem (List.mem_append_right _ (List.mem_singleton_self _)) later

theorem nodup_globalHoles_numbered (alu : String) (ps : List Primitive) :
    ((numbered [] ps).map (Helper.globalHole alu)).Nodup := by
  rw [globalHoles_numbered]
  exact ownKeys_nodup alu _ _

theorem nodup_holes_numbered (ps : List Primitive) : ((numbered [] ps).map Helper.hole).Nodup := by
  have hglobal := nodup_globalHoles_numbered "" ps
  have hcompose : Helper.globalHole "" = (fun hole => "" ++ "_" ++ hole ++ "_global") ∘ Helper.hole := rfl
  rw [hcompose, ← List.map_map] at hglobal
  exact hglobal.of_map

theorem eq_of_name_eq {alu : String} {ps : List Primitive} {h h' : Helper} (hmem : h ∈ numbered [] ps)
    (hmem' : h' ∈ numbered [] ps) (hname : h.name alu = h'.name alu) : h = h' := by
  obtain ⟨hfamily, hnumber⟩ := Family.helper_inj hname
  apply List.inj_on_of_nodup_map (nodup_globalHoles_numbered alu ps) hmem hmem'
  rw [Helper.globalHole, Helper.globalHole, hfamily, hnumber]

namespace Use

variable {u : Use} {hs : List Helper}

/-- The primitive whose helper the call of a use names: the first one of its family in its operands, or itself. -/
def named (u : Use) : Primitive :=
  ((u.operands.flatMap primitives).find? fun q => q.family = u.primitive.family).getD u.primitive

theorem family_named (u : Use) : u.named.family = u.primitive.family := by
  unfold named
  cases hfind : (u.operands.flatMap primitives).find? fun q => q.family = u.primitive.family with
  | none => rfl
  | some q => simpa using List.find?_some hfind

/-- Apart from three-way multiplexers, all primitives of a family do the same. -/
theorem replaces_of_family_ne {p q : Primitive} (hp : p.family ≠ .mux3) (hfamily : q.family = p.family) :
    q.Replaces p := by
  rcases Primitive.eq_or_mux3 hfamily with rfl | ⟨-, hmux⟩
  · exact q.replaces_refl
  · exact absurd hmux hp

theorem named_replaces_iff (u : Use) : u.named.Replaces u.primitive ↔
    ∀ q, (u.operands.flatMap primitives).find? (fun q => q.family = u.primitive.family) = some q →
      q.Replaces u.primitive := by
  unfold named
  cases (u.operands.flatMap primitives).find? fun q => q.family = u.primitive.family with
  | none => simpa using u.primitive.replaces_refl
  | some q => simp

theorem Between.mem_named (h : u.Between [] hs) : ⟨u.named, u.number⟩ ∈ hs := by
  obtain ⟨_, later, -, rfl⟩ := h
  apply mem_numbered_of_find
  unfold named
  rw [List.find?_append]
  cases (u.operands.flatMap primitives).find? fun q => q.family = u.primitive.family with
  | none => simp
  | some q => rfl

end Use

/-! ### Calls and their helpers -/

namespace StatefulAlu

/-- How a use of a primitive is called in a stateful ALU, and how the helper that the call names is defined. -/
structure Calls (alu : StatefulAlu) (main : String) (u : Use) : Prop where
  length : u.codes.length = u.operands.length
  /-- The call stands in the function. It passes the operands and, as the last argument, the hole of the use. -/
  passes : ∃ list, Lists list (u.codes.map (Code.render alu.name alu.parameterText) ++ [u.own.hole]) ∧
    Text.Contains main (u.primitive.family.helper alu.name u.number ++ "(" ++ list ++ ")")
  /-- There is one helper of the name that is called. It is defined with its parameters. -/
  names : ∃ h ∈ alu.helpers, h.name alu.name = u.primitive.family.helper alu.name u.number ∧
    Opens (h.name alu.name) (h.text alu.name) h.primitive.parameters ∧
    ∀ h' ∈ alu.helpers, h'.name alu.name = h.name alu.name → h' = h
  /-- The helper takes as many parameters as there are arguments and computes what the primitive does, exactly if
  the first primitive of the same family in the operands does so, if there is one. -/
  right_iff : (∃ h ∈ alu.helpers, h.name alu.name = u.primitive.family.helper alu.name u.number ∧
      h.primitive.parameters.length = u.codes.length + 1 ∧
      ∀ constants hole operands,
        h.primitive.apply constants hole operands = u.primitive.apply constants hole operands) ↔
    ∀ q, (u.operands.flatMap primitives).find? (fun q => q.family = u.primitive.family) = some q →
      q.Replaces u.primitive
  /-- It does, apart from three-way multiplexers. -/
  elsewhere : u.primitive.family ≠ .mux3 →
    ∀ q, (u.operands.flatMap primitives).find? (fun q => q.family = u.primitive.family) = some q →
      q.Replaces u.primitive

theorem length_codesOf (es : List Expr) (hs : List Helper) : (codesOf es hs).length = es.length := by
  induction es generalizing hs with
  | nil => rfl
  | cons e es ih => simp [codesOf, ih]

theorem length_operands_of_site {u : Use} {es : List Expr} (h : u.site ∈ es.filterMap primitive?) :
    u.operands.length = u.primitive.arity := by
  obtain ⟨e, -, he⟩ := List.mem_filterMap.1 h
  exact length_of_primitive he

theorem render_call (alu parameters : String) (u : Use) :
    ∃ list, Lists list (u.codes.map (Code.render alu parameters) ++ [u.own.hole]) ∧
      Text.Contains (u.call.render alu parameters) (u.primitive.family.helper alu u.number ++ "(" ++ list ++ ")") := by
  have hlist := Lists.commasBehind (a := "") (b := "") (u.codes.map (Code.render alu parameters))
    (Lists.word u.own.hole) rfl rfl
  rw [← Code.renderOperands_eq_join] at hlist
  refine ⟨_, hlist, ?_⟩
  -- A call that is compared with one goes on behind the parenthesis.
  obtain ⟨rest, hrest⟩ : ∃ rest, (if u.primitive.yieldsTruth then ") == 1" else ")") = ")" ++ rest := by
    split
    · exact ⟨" == 1", rfl⟩
    · exact ⟨"", rfl⟩
  have hrender : u.call.render alu parameters = u.primitive.family.helper alu u.number ++ "(" ++
      (Code.renderOperands alu parameters u.codes ++ u.own.hole) ++ ")" ++ rest := by
    rw [Use.call, Code.render, hrest]
    simp only [String.append_assoc]
    rfl
  rw [hrender]
  exact .append_left (.refl _)

theorem names_right_iff {alu : StatefulAlu} {ps : List Primitive} (hhelpers : alu.helpers = numbered [] ps) {u : Use}
    (hbetween : u.Between [] alu.helpers) (harity : u.operands.length = u.primitive.arity) :
    (∃ h ∈ alu.helpers, h.name alu.name = u.primitive.family.helper alu.name u.number ∧
      h.primitive.parameters.length = u.codes.length + 1 ∧
      ∀ constants hole operands,
        h.primitive.apply constants hole operands = u.primitive.apply constants hole operands) ↔
    u.named.Replaces u.primitive := by
  have hnamed := hbetween.mem_named
  have hname : Helper.name alu.name ⟨u.named, u.number⟩ = u.primitive.family.helper alu.name u.number := by
    rw [Helper.name, u.family_named]
  have hlength : u.codes.length = u.primitive.arity := (length_codesOf _ _).trans harity
  constructor
  · rintro ⟨h, hmem, hcalled, hcount, hcomputes⟩
    rw [hhelpers] at hmem hnamed
    obtain rfl := eq_of_name_eq hmem hnamed (hcalled.trans hname.symm)
    rw [Primitive.length_parameters, hlength] at hcount
    exact ⟨Nat.add_right_cancel hcount, hcomputes⟩
  · intro hreplaces
    refine ⟨_, hnamed, hname, ?_, hreplaces.apply_eq⟩
    rw [Primitive.length_parameters, hreplaces.arity_eq, hlength]

theorem mainText_of_not_mem {alu : StatefulAlu} (hname : '%' ∉ alu.name.toList) :
    alu.mainText = .ok (alu.code.render alu.name alu.parameterText) := by
  rw [mainText, singlePercents_of_not_mem hname]
  simp

/-- In a stateful ALU each use of a primitive becomes one call and one helper. The call stands in the function, passes
the operands and the hole of the use, which no other use has, and names a helper that is defined. The helper is one
with as many parameters that computes what the primitive does, exactly if this holds of the first primitive of the
same family in the operands, if there is one. -/
theorem primitive_calls_right_iff {name : String} (hname : '%' ∉ name.toList) {bits : Int}
    {d : Alu.Description} {alu : StatefulAlu} (h : ofSource name bits (.whole d) = .ok alu) :
    ∃ (main : String) (us : List Use), alu.mainText = .ok main ∧
      Defines alu.helperText (alu.helpers.map (Helper.function alu.name)) ∧
      us.map Use.site = d.body.parts.filterMap primitive? ∧ us.map Use.call = alu.code.calls ∧
      (us.map Use.own).Perm alu.helpers ∧ (us.map fun u => u.own.hole).Nodup ∧
      ∀ u ∈ us, alu.Calls main u := by
  obtain ⟨rfl, ⟨ps, hps⟩, us, hsites, hcalls, hperm, hbetween⟩ := accounts_ofSource h
  rw [List.nil_append] at hperm
  refine ⟨_, us, mainText_of_not_mem hname, alu.helperText_defines, hsites, hcalls, hperm.symm, ?_, fun u hu => ?_⟩
  · have hholes : us.map (fun u => u.own.hole) = (us.map Use.own).map Helper.hole := by
      rw [List.map_map]
      rfl
    rw [hholes, (hperm.symm.map Helper.hole).nodup_iff, hps]
    exact nodup_holes_numbered ps
  · have hsite : u.site ∈ d.body.parts.filterMap primitive? := hsites ▸ List.mem_map_of_mem hu
    have hcall : u.call ∈ alu.code.calls := hcalls ▸ List.mem_map_of_mem hu
    have harity := length_operands_of_site hsite
    obtain ⟨list, hlist, hcontains⟩ := render_call alu.name alu.parameterText u
    refine ⟨length_codesOf _ _, ⟨list, hlist, ?_⟩, ?_, ?_, fun hfamily q hfind => ?_⟩
    · exact (Code.contains_of_mem_calls _ _ hcall).trans hcontains
    · have hnamed := (hbetween u hu).mem_named
      refine ⟨_, hnamed, ?_, Helper.opens _ _, fun h' hmem' hsame => ?_⟩
      · rw [Helper.name, u.family_named]
      · rw [hps] at hmem' hnamed
        exact eq_of_name_eq hmem' hnamed hsame
    · rw [names_right_iff hps (hbetween u hu) harity, u.named_replaces_iff]
    · exact Use.replaces_of_family_ne hfamily (by simpa using List.find?_some hfind)

/-- `return Mux3(Mux3(a, b, 5), b, 7);` -/
def nestedMux : Alu.Description where
  indicator := .stateful
  stateVars := ["s"]
  holeVars := []
  packetFields := ["a", "b"]
  body := .last (.ret (.mux3Num (.mux3Num (.var "a") (.var "b") "5") (.var "b") "7") ";")

/-- The outer multiplexer calls the helper of the inner one, which does not compute the same. -/
theorem nestedMux_calls_inner_helper :
    ∃ alu main u, ofSource "f" 2 (.whole nestedMux) = .ok alu ∧ alu.Calls main u ∧
      u.primitive = .mux3Num "7" ∧
      ¬ ∃ h ∈ alu.helpers, h.name alu.name = u.primitive.family.helper alu.name u.number ∧
        h.primitive.parameters.length = u.codes.length + 1 ∧
        ∀ constants hole operands,
          h.primitive.apply constants hole operands = u.primitive.apply constants hole operands := by
  have hends : ofSource "f" 2 (.whole nestedMux) = .ok _ := rfl
  obtain ⟨main, us, -, -, hsites, -, -, -, hcalls⟩ := primitive_calls_right_iff (by decide) hends
  obtain ⟨u, rest, rfl, hsite, -⟩ := List.map_eq_cons_iff.1 hsites
  have hu := hcalls u List.mem_cons_self
  obtain ⟨hprimitive, hoperands⟩ := Prod.mk.inj hsite
  refine ⟨_, main, u, hends, hu, hprimitive, fun hright => ?_⟩
  have hreplaces := hu.right_iff.1 hright (.mux3Num "5") (by rw [hoperands, hprimitive]; rfl)
  rw [hprimitive] at hreplaces
  have hlast := hreplaces.apply_eq [] 2 [0, 0]
  exact absurd hlast (by decide)

end StatefulAlu

end Sketch

end SwitchSynth
