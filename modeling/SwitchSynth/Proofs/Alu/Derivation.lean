import SwitchSynth.Proofs.Alu.Grammar

/-!
# Syntax as derivations

Whatever the parser can build shows itself as a tree that the grammar derives. Two things have no derivation: an
indicator that is neither of the two words, and a list of names that is empty but stands where names are wanted.
-/

namespace SwitchSynth.Alu

open Computability Form
open Alu.Tree (Derivation)

/-! ### Expressions -/

namespace Tree

@[simp]
theorem symbol_leaf (k : Kind) (text : String) : (leaf k text).symbol = .terminal k := rfl

@[simp]
theorem symbol_node (label : Label) (cs : List Tree) : (node label cs).symbol = .nonterminal label.toRule := rfl

@[simp]
theorem symbol_mark (k : Kind) : (mark k).symbol = .terminal k := rfl

@[simp]
theorem derivation_leaf (k : Kind) (text : String) : (leaf k text).Derivation :=
  .leaf k text

@[simp]
theorem derivation_mark (k : Kind) : (mark k).Derivation :=
  .leaf k _

end Tree

@[simp]
theorem symbol_variableTree (name : String) : (variableTree name).symbol = .nonterminal .variableName := rfl

@[simp]
theorem derivation_variableTree (name : String) : (variableTree name).Derivation :=
  .node (by simp only [List.map, Tree.symbol_leaf]; decide) (by simp)

namespace Expr

@[simp]
theorem symbol_tree (e : Expr) : e.tree.symbol = .nonterminal .expr := by
  cases e <;> rfl

theorem derivation (e : Expr) : e.tree.Derivation := by
  induction e with
  | var name => exact .node (by simp only [List.map, symbol_variableTree]; decide) (by simp)
  | num digits => exact .node (by simp only [List.map, Tree.symbol_leaf]; decide) (by simp)
  | truth | const => exact .node (by decide) (by simp)
  | paren inner close ih =>
    exact .node (by simp only [List.map, symbol_tree, Tree.symbol_leaf]; decide) (by simp [ih])
  | binary op left right ihleft ihright =>
    refine .node ?_ (by simp [ihleft, ihright])
    simp only [List.map, symbol_tree, Tree.symbol_mark]
    cases op <;> decide
  | not operand ih => exact .node (by simp only [List.map, symbol_tree]; decide) (by simp [ih])
  | ternary c y n ihc ihy ihn =>
    exact .node (by simp only [List.map, symbol_tree]; decide) (by simp [ihc, ihy, ihn])
  | opt operand ih =>
    refine .node ?_ (by simp [ih])
    simp only [List.intersperse, List.map, List.map_append, symbol_tree]
    decide
  | mux2 a b iha ihb | arith a b iha ihb | compute a b iha ihb | rel a b iha ihb | bool a b iha ihb =>
    refine .node ?_ (by simp [iha, ihb])
    simp only [List.intersperse, List.map, List.map_append, symbol_tree]
    decide
  | mux3 a b c iha ihb ihc =>
    refine .node ?_ (by simp [iha, ihb, ihc])
    simp only [List.intersperse, List.map, List.map_append, symbol_tree]
    decide
  | mux3Num a b digits iha ihb =>
    refine .node ?_ (by simp [iha, ihb])
    simp only [List.intersperse, List.map, List.map_append, symbol_tree, Tree.symbol_leaf]
    decide
  | mux4 a b c d iha ihb ihc ihd =>
    refine .node ?_ (by simp [iha, ihb, ihc, ihd])
    simp only [List.intersperse, List.map, List.map_append, symbol_tree]
    decide
  | mux5 a b c d e iha ihb ihc ihd ihe =>
    refine .node ?_ (by simp [iha, ihb, ihc, ihd, ihe])
    simp only [List.intersperse, List.map, List.map_append, symbol_tree]
    decide

end Expr

/-! ### Statements -/

/-- The form of the later arms of a branch. -/
def elseForm : Form :=
  (terminal .elifWord * phrase .conditionBlock).star *
    (1 + seq [terminal .elseWord, terminal .lbrace, phrase .aluBody, terminal .rbrace])

theorem append_mem_kstar_mul {α : Type} {l m : Language α} {x y : List α} (hx : x ∈ l) (hy : y ∈ l∗ * m) :
    x ++ y ∈ l∗ * m := by
  have hmul : l * (l∗ * m) ≤ l∗ * m := by
    rw [← mul_assoc]
    gcongr
    exact mul_kstar_le_kstar
  exact hmul (Language.append_mem_mul hx hy)

@[simp]
theorem symbol_armTree (condition : Expr) (inner : Tree) :
    (armTree condition inner).symbol = .nonterminal .conditionBlock := rfl

@[simp]
theorem symbol_tempVarTree (name : String) : (tempVarTree name).symbol = .nonterminal .tempVar := rfl

theorem derivation_tempVarTree (name : String) : (tempVarTree name).Derivation :=
  .node (by simp only [List.map, Tree.symbol_leaf]; decide) (by simp)

theorem derivation_armTree (condition : Expr) {cs : List Tree}
    (h : (Tree.node (.rule .aluBody) cs).Derivation) : (armTree condition (.node (.rule .aluBody) cs)).Derivation := by
  refine .node ?_ (by simp [condition.derivation, h])
  simp only [List.map, Expr.symbol_tree, Tree.symbol_node]
  decide

theorem derivation_returnTree (value : Expr) (terminator : String) : (returnTree value terminator).Derivation := by
  refine .node ?_ (by simp [value.derivation])
  simp only [List.map, Expr.symbol_tree, Tree.symbol_leaf]
  decide

mutual
theorem Stmt.derivation : ∀ s : Stmt, s.tree.Derivation ∧ s.tree.symbol = .nonterminal .statement
  | .update target value terminator => by
    refine ⟨.node ?_ (by simp [value.derivation]), rfl⟩
    simp only [List.map, Expr.symbol_tree, symbol_variableTree, Tree.symbol_leaf]
    decide
  | .temp sort name value terminator => by
    refine ⟨.node ?_ (by simp [value.derivation, derivation_tempVarTree]), rfl⟩
    simp only [List.map, Expr.symbol_tree, symbol_tempVarTree, Tree.symbol_leaf, Tree.symbol_mark]
    cases sort <;> decide
  | .ret value terminator => by
    refine ⟨.node ?_ (by simp [derivation_returnTree]), rfl⟩
    simp only [List.map, returnTree, Tree.symbol_node]
    decide
  | .branch condition body rest => by
    obtain ⟨hrest, hrests⟩ := Else.derivation rest
    have hcondition := derivation_armTree condition (Body.derivation body)
    refine ⟨.node ?_ ?_, rfl⟩
    · -- What follows the first arm has a form of its own.
      have hopening : [.terminal .ifWord, .nonterminal .conditionBlock] ∈
          (terminal .ifWord * phrase .conditionBlock).matches' := by decide
      have hbranch := Language.append_mem_mul hopening hrest
      simpa [Label.form, StmtForm.form, seq, elseForm, mul_assoc] using hbranch
    · simpa [hcondition] using hrests
  | .assertFalse => ⟨.node (by decide) (by simp), rfl⟩
theorem Body.derivation : ∀ b : Body, (Tree.node (.rule .aluBody) b.trees).Derivation
  | .last s => by
    obtain ⟨hs, hsymbol⟩ := Stmt.derivation s
    refine .node ?_ (by simpa [Body.trees] using hs)
    simp only [Body.trees, List.map, hsymbol]
    decide
  | .cons s rest => by
    obtain ⟨hs, hsymbol⟩ := Stmt.derivation s
    cases Body.derivation rest with
    | node hform hrest =>
      refine .node ?_ (by simpa [Body.trees, hs] using hrest)
      have hstar : (phrase .statement).matches' * (phrase .statement).matches'∗ ≤ (phrase .statement).matches'∗ :=
        mul_kstar_le_kstar
      have hfirst : [.nonterminal .statement] ∈ (phrase .statement).matches' := by decide
      rw [Body.trees, List.map_cons, hsymbol]
      exact Language.append_mem_mul hfirst (hstar hform)
theorem Else.derivation : ∀ e : Else, e.trees.map Tree.symbol ∈ elseForm.matches' ∧ ∀ c ∈ e.trees, c.Derivation
  | .none => ⟨by decide, by simp [Else.trees]⟩
  | .elif condition body rest => by
    obtain ⟨hrest, hrests⟩ := Else.derivation rest
    have hcondition := derivation_armTree condition (Body.derivation body)
    have hopening : [.terminal .elifWord, .nonterminal .conditionBlock] ∈
        (terminal .elifWord * phrase .conditionBlock).matches' := by decide
    exact ⟨append_mem_kstar_mul hopening hrest, by simpa [Else.trees, hcondition] using hrests⟩
  | .otherwise body => by
    have hbody := Body.derivation body
    refine ⟨?_, by simp [Else.trees, hbody]⟩
    simp only [Else.trees, List.map, Tree.symbol_node]
    decide
end

/-! ### Headers -/

namespace Section

theorem derivation_nameTree (s : Section) (name : String) : (s.nameTree name).Derivation := by
  refine .node ?_ (by simp)
  cases s <;> simp only [List.map, Tree.symbol_leaf] <;> decide

theorem symbol_namesTree (s : Section) (names : List String) :
    (s.namesTree names).symbol = .nonterminal s.namesRule := by
  unfold namesTree
  split <;> rfl

theorem derivation_namesTree (s : Section) {names : List String} (h : names ≠ []) :
    (s.namesTree names).Derivation := by
  induction names with
  | nil => exact absurd rfl h
  | cons name rest ih =>
    cases rest with
    | nil =>
      refine .node ?_ (by simp [derivation_nameTree])
      cases s <;> simp only [List.map, nameTree, Tree.symbol_node] <;> decide
    | cons next rest =>
      refine .node ?_ (by simp [derivation_nameTree, ih])
      simp only [List.map, symbol_namesTree, nameTree]
      cases s <;> simp only [Tree.symbol_node] <;> decide

theorem derivation_seqTree (s : Section) (names : List String) : (s.seqTree names).Derivation := by
  cases names with
  | nil =>
    refine .node ?_ (by simp)
    cases s <;> decide
  | cons name rest =>
    refine .node ?_ (by simp [derivation_namesTree])
    simp only [List.isEmpty_cons, Bool.false_eq_true, if_false, List.map, symbol_namesTree]
    cases s <;> decide

theorem derivation_defTree (s : Section) (names : List String) : (s.defTree names).Derivation := by
  refine .node ?_ (by simp [derivation_seqTree, or_imp, forall_and])
  cases s <;> simp only [seqTree, words, List.map, List.cons_append, List.nil_append, Tree.symbol_node] <;> decide

end Section

/-- An indicator that says whether there is state shows itself as a derivation. -/
theorem Indicator.derivation {i : Indicator} (h : i = .stateless ∨ i = .stateful) : i.tree.Derivation := by
  have hleaf (r : Rule) (k : Kind) (hform : [Symbol.terminal k] ∈ (Label.rule r).form.matches') :
      (Tree.node (.rule r) [.mark k]).Derivation := .node hform (by simp)
  rcases h with rfl | rfl
  · exact .node (by decide) (by simp [hleaf .stateless .stateless (by decide)])
  · exact .node (by decide) (by simp [hleaf .stateful .stateful (by decide)])

theorem Description.derivation {d : Description} (h : d.indicator = .stateless ∨ d.indicator = .stateful) :
    d.tree.Derivation := by
  refine .node ?_ ?_
  · have hindicator : d.indicator.tree.symbol = .nonterminal .stateIndicator := by cases d.indicator <;> rfl
    simp only [List.map, hindicator, Section.defTree, Body.tree, Tree.symbol_node]
    decide
  · simp [Indicator.derivation h, Section.derivation_defTree, Body.tree, d.body.derivation]

end SwitchSynth.Alu
