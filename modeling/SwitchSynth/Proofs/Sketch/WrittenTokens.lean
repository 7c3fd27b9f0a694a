import Mathlib.Algebra.GroupWithZero.Nat
import SwitchSynth.Proofs.Alu.Grammar
import SwitchSynth.Proofs.Listing
import SwitchSynth.Proofs.Sketch.Walk

/-!
# The tokens of an expression in a sketch

A text shows the tokens of an expression if nothing but blank space stands between them. What a stateful ALU
writes for an expression without primitives shows the tokens of the expression except for comparisons, `? :` and
`True`, which have no text of their own: `a == b` is written as `ab`.
-/

namespace SwitchSynth

open Alu (Expr Kind BinaryOp)

namespace Alu

open Text (Blank)

/-- A word that a token may be written as: its own text, and `true` for the word of truth. -/
def Writes (tip : Kind × String) (word : String) : Prop :=
  word = tip.2 ∨ tip = (.trueWord, "True") ∧ word = "true"

/-- A text shows tokens: it is made of their words in order, with nothing but blank space around them. -/
inductive ShowsTokens : List (Kind × String) → String → Prop where
  | nil {a : String} : Blank a → ShowsTokens [] a
  | cons {a word rest : String} {tip : Kind × String} {tips : List (Kind × String)} :
      Blank a → Writes tip word → ShowsTokens tips rest → ShowsTokens (tip :: tips) (a ++ word ++ rest)

/-- The number of characters of a text that are not blank. -/
def inkCount (s : String) : Nat :=
  s.toList.countP fun c => !(c == ' ' || c == '\n')

@[simp]
theorem inkCount_append (s t : String) : inkCount (s ++ t) = inkCount s + inkCount t := by
  simp [inkCount]

theorem inkCount_of_blank {s : String} (h : Blank s) : inkCount s = 0 := by
  unfold Blank at h
  unfold inkCount
  rw [List.countP_eq_zero]
  intro c hc
  simp [List.all_eq_true.1 h c hc]

theorem Writes.inkCount_eq {tip : Kind × String} {word : String} (h : Writes tip word) :
    inkCount word = inkCount tip.2 := by
  rcases h with rfl | ⟨rfl, rfl⟩
  · rfl
  · decide

namespace ShowsTokens

variable {as bs tips : List (Kind × String)} {s t a : String}

theorem padLeft (hgap : Blank a) (h : ShowsTokens tips t) : ShowsTokens tips (a ++ t) := by
  cases h with
  | nil hblank => exact .nil (hgap.append hblank)
  | cons hblank hword hrest =>
    rw [← String.append_assoc, ← String.append_assoc]
    exact .cons (hgap.append hblank) hword hrest

theorem append (hs : ShowsTokens as s) (ht : ShowsTokens bs t) : ShowsTokens (as ++ bs) (s ++ t) := by
  induction hs with
  | nil hblank => exact ht.padLeft hblank
  | cons hblank hword _ ih =>
    rw [String.append_assoc]
    exact .cons hblank hword ih

theorem padRight (h : ShowsTokens tips t) (hgap : Blank a) : ShowsTokens tips (t ++ a) := by
  have happend := h.append (.nil hgap)
  rwa [List.append_nil] at happend

theorem token (k : Kind) (text : String) : ShowsTokens [(k, text)] text := by
  have h : ShowsTokens [(k, text)] ("" ++ text ++ "") := .cons rfl (.inl rfl) (.nil rfl)
  simpa using h

theorem inkCount_eq (h : ShowsTokens tips s) : inkCount s = (tips.map fun tip => inkCount tip.2).sum := by
  induction h with
  | nil hblank => exact inkCount_of_blank hblank
  | cons hblank hword _ ih =>
    rw [inkCount_append, inkCount_append, inkCount_of_blank hblank, hword.inkCount_eq, ih, List.map_cons,
      List.sum_cons]
    omega

end ShowsTokens

end Alu

namespace Sketch

open Alu (ShowsTokens inkCount)

/-- The kinds of token that the code of a stateful ALU has no text for. -/
def lostKinds : List Kind :=
  [.trueWord, .equal, .greater, .greaterEqual, .less, .lessEqual, .notEqual, .question, .colon]

/-- The tokens that the code of a stateful ALU has text for. -/
def keptTips (tips : List (Kind × String)) : List (Kind × String) :=
  tips.filter fun tip => tip.1 ∉ lostKinds

@[simp]
theorem keptTips_append (as bs : List (Kind × String)) : keptTips (as ++ bs) = keptTips as ++ keptTips bs :=
  List.filter_append ..

theorem operatorText_shows (op : BinaryOp) :
    ShowsTokens (keptTips [(op.kind, op.text)]) (StatefulAlu.operatorText op) := by
  cases op with
  | add | sub | mul | div => exact .token _ _
  | and => exact ((ShowsTokens.token .and "&&").padLeft (a := " ") rfl).padRight (a := " ") rfl
  | or => exact ((ShowsTokens.token .or "||").padLeft (a := " ") rfl).padRight (a := " ") rfl
  | eq | gt | ge | lt | le | ne => exact .nil rfl

section Tips

open Alu.Tree (tips tipsAll mark)

theorem tips_paren (inner : Expr) (close : String) :
    (Expr.paren inner close).tree.tips = (.lparen, "(") :: (inner.tree.tips ++ [(.rparen, close)]) := by
  simp [Expr.tree, tips, tipsAll, mark, Kind.spelling]

theorem tips_binary (op : BinaryOp) (left right : Expr) :
    (Expr.binary op left right).tree.tips =
      left.tree.tips ++ ((op.kind, op.text) :: right.tree.tips) := by
  simp [Expr.tree, tips, tipsAll, mark, BinaryOp.text]

theorem tips_not (operand : Expr) : (Expr.not operand).tree.tips = (.not, "!") :: operand.tree.tips := by
  simp [Expr.tree, tips, tipsAll, mark, Kind.spelling]

theorem tips_ternary (condition yes no : Expr) :
    (Expr.ternary condition yes no).tree.tips = condition.tree.tips ++
      ((.question, "?") :: (yes.tree.tips ++ ((.colon, ":") :: no.tree.tips))) := by
  simp [Expr.tree, tips, tipsAll, mark, Kind.spelling]

end Tips

/-- The parentheses of an expression are closed by tokens of the text it was read from. -/
def ClosedInText (e : Expr) : Prop :=
  ∀ tip ∈ e.tree.tips, tip.1 = .rparen → tip.2 = ")"

theorem ClosedInText.mono {e e' : Expr} (h : ClosedInText e) (hsub : e'.tree.tips ⊆ e.tree.tips) :
    ClosedInText e' :=
  fun tip htip => h tip (hsub htip)

theorem exprCode_shows {e : Expr} (hnone : primitives e = []) (hclosed : ClosedInText e)
    (alu parameters : String) (hs : List Helper) :
    ShowsTokens (keptTips e.tree.tips) ((codeOf e hs).render alu parameters) := by
  induction e using primitive_induction generalizing hs with
  | var name => exact .token .ident name
  | num digits => exact .token .number digits
  | truth => exact .nil rfl
  | paren inner close ih =>
    have htips := tips_paren inner close
    have hclose : close = ")" := hclosed (.rparen, close) (by simp [htips]) rfl
    have hinner := ih hnone (hclosed.mono (by simp [htips])) hs
    have hkept : keptTips ((.lparen, "(") :: (inner.tree.tips ++ [(.rparen, ")")])) =
        [(.lparen, "(")] ++ keptTips inner.tree.tips ++ [(.rparen, ")")] := by
      simp [keptTips, lostKinds]
    rw [htips, hclose, hkept]
    exact ((ShowsTokens.token .lparen "(").append hinner).append (.token .rparen ")")
  | binary op left right ihl ihr =>
    have htips := tips_binary op left right
    obtain ⟨hnoneLeft, hnoneRight⟩ := List.append_eq_nil_iff.1 hnone
    have hleft := ihl hnoneLeft (hclosed.mono (by simp [htips])) hs
    have hright := ihr hnoneRight (hclosed.mono (by simp [htips])) (helpersAfter left hs)
    rw [htips, List.append_cons, keptTips_append, keptTips_append]
    exact (hleft.append (operatorText_shows op)).append hright
  | not operand ih =>
    have htips := tips_not operand
    have hoperand := ih hnone (hclosed.mono (by simp [htips])) hs
    rw [htips]
    exact ((ShowsTokens.token .not "!").padLeft (a := " ") rfl).append hoperand
  | ternary condition yes no ihc ihy ihn =>
    have htips := tips_ternary condition yes no
    obtain ⟨hnone, hnoneNo⟩ := List.append_eq_nil_iff.1 hnone
    obtain ⟨hnoneCondition, hnoneYes⟩ := List.append_eq_nil_iff.1 hnone
    have hcondition := ihc hnoneCondition (hclosed.mono (by simp [htips])) hs
    have hyes := ihy hnoneYes (hclosed.mono fun tip htip => by simp [htips, htip])
      (helpersAfter condition hs)
    have hno := ihn hnoneNo (hclosed.mono fun tip htip => by simp [htips, htip])
      (helpersAfter yes (helpersAfter condition hs))
    -- Neither of the two signs has text, so the three operands follow one another.
    have hkept : keptTips (condition.tree.tips ++
        ((.question, "?") :: (yes.tree.tips ++ ((.colon, ":") :: no.tree.tips)))) =
        keptTips condition.tree.tips ++ keptTips yes.tree.tips ++ keptTips no.tree.tips := by
      simp [keptTips, lostKinds]
    rw [htips, hkept]
    exact (hcondition.append hyes).append hno
  | primitive e p es hp ih =>
    rw [primitives_of_primitive hp] at hnone
    simp at hnone

theorem inkCount_pos_of_lost {e : Expr} (hnone : primitives e = []) :
    ∀ tip ∈ e.tree.tips, tip.1 ∈ lostKinds → 0 < inkCount tip.2 := by
  induction e using primitive_induction with
  | var name => simp [Expr.tree, Alu.variableTree, Alu.Tree.tips, Alu.Tree.tipsAll, lostKinds]
  | num digits => simp [Expr.tree, Alu.Tree.tips, Alu.Tree.tipsAll, lostKinds]
  | truth => decide
  | paren inner close ih =>
    simp only [tips_paren, List.forall_mem_cons, List.forall_mem_append]
    exact ⟨by decide, ih hnone, fun hlost => absurd hlost (by simp [lostKinds]), nofun⟩
  | binary op left right ihl ihr =>
    obtain ⟨hnoneLeft, hnoneRight⟩ := List.append_eq_nil_iff.1 hnone
    have hop : 0 < inkCount op.text := by cases op <;> decide
    simp only [tips_binary, List.forall_mem_cons, List.forall_mem_append]
    exact ⟨ihl hnoneLeft, fun _ => hop, ihr hnoneRight⟩
  | not operand ih =>
    simp only [tips_not, List.forall_mem_cons]
    exact ⟨by decide, ih hnone⟩
  | ternary condition yes no ihc ihy ihn =>
    obtain ⟨hnone, hnoneNo⟩ := List.append_eq_nil_iff.1 hnone
    obtain ⟨hnoneCondition, hnoneYes⟩ := List.append_eq_nil_iff.1 hnone
    simp only [tips_ternary, List.forall_mem_cons, List.forall_mem_append]
    exact ⟨ihc hnoneCondition, by decide, ihy hnoneYes, by decide, ihn hnoneNo⟩
  | primitive e p es hp ih =>
    rw [primitives_of_primitive hp] at hnone
    simp at hnone

/-- If as much is shown without the lost tokens as with them, then there are none. -/
theorem not_lost_of_ink_eq {tips : List (Kind × String)}
    (hink : ∀ tip ∈ tips, tip.1 ∈ lostKinds → 0 < inkCount tip.2)
    (heq : ((keptTips tips).map fun tip => inkCount tip.2).sum =
      (tips.map fun tip => inkCount tip.2).sum) :
    ∀ tip ∈ tips, tip.1 ∉ lostKinds := by
  intro tip hmem hlost
  have hperm := List.filter_append_perm (fun tip : Kind × String => decide (tip.1 ∉ lostKinds)) tips
  have hsum := (hperm.map fun tip => inkCount tip.2).sum_nat
  rw [List.map_append, List.sum_append] at hsum
  -- Kept and lost tokens together are all of them, so nothing is left for the lost ones.
  have hzero : ((tips.filter fun tip => !decide (tip.1 ∉ lostKinds)).map
      fun tip => inkCount tip.2).sum = 0 := by
    unfold keptTips at heq
    omega
  have htip : inkCount tip.2 = 0 :=
    List.sum_eq_zero_iff_forall_eq_nat.1 hzero _ (List.mem_map.2 ⟨tip, by simp [hmem, hlost], rfl⟩)
  have := hink tip hmem hlost
  omega

namespace StatefulAlu

/-- Writing an expression without primitives adds text to the function and nothing else. The text shows the tokens
of the expression other than comparisons, `? :` and `True`; it shows all tokens exactly if the expression has none of
those. -/
theorem putExpr_shows_tokens_iff {e : Expr} (hnone : primitives e = []) (hclosed : ClosedInText e)
    (d : Draft) (alu parameters : String) :
    ∃ code : Code, (putExpr e).run.run d = (.ok (), { d with main := d.main ++ code }) ∧
      ShowsTokens (keptTips e.tree.tips) (code.render alu parameters) ∧
      (ShowsTokens e.tree.tips (code.render alu parameters) ↔ ∀ tip ∈ e.tree.tips, tip.1 ∉ lostKinds) := by
  have hkept := exprCode_shows hnone hclosed alu parameters d.helpers
  have hhelpers : helpersAfter e d.helpers = d.helpers := by
    rw [helpersAfter_eq_numbered, hnone, numbered_nil]
  refine ⟨codeOf e d.helpers, ?_, hkept, fun hall => ?_, fun hnot => ?_⟩
  · show ((.ok (), { d with main := d.main ++ codeOf e d.helpers, helpers := helpersAfter e d.helpers }) :
      Except Error Unit × Draft) = _
    rw [hhelpers]
  · -- The text has room for the characters of the kept tokens only.
    exact not_lost_of_ink_eq (inkCount_pos_of_lost hnone) (hkept.inkCount_eq.symm.trans hall.inkCount_eq)
  · have heq : keptTips e.tree.tips = e.tree.tips := List.filter_eq_self.2 (by simpa using hnot)
    rwa [heq] at hkept

/-- For `a == b` the text is `ab`, which does not show the sign between the operands. -/
theorem comparison_sign_is_lost :
    ∃ code : Code,
      (putExpr (.binary .eq (.var "a") (.var "b"))).run.run {} = (.ok (), { main := "" ++ code }) ∧
      code.render "alu" "" = "ab" ∧
      ¬ ShowsTokens (Expr.binary .eq (.var "a") (.var "b")).tree.tips (code.render "alu" "") := by
  have hclosed : ClosedInText (.binary .eq (.var "a") (.var "b")) := by
    unfold ClosedInText
    decide
  obtain ⟨code, hrun, -, hiff⟩ := putExpr_shows_tokens_iff rfl hclosed {} "alu" ""
  have hcode : Code.append "" (codeOf (.binary .eq (.var "a") (.var "b")) []) = Code.append "" code :=
    congrArg (fun r => r.2.main) hrun
  obtain rfl := (Code.append.inj hcode).2
  exact ⟨_, hrun, rfl, fun hall => hiff.1 hall (.equal, "==") (by decide) (by decide)⟩

end StatefulAlu

end Sketch

end SwitchSynth
