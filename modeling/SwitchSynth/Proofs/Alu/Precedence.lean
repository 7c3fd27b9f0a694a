import SwitchSynth.Proofs.Alu.Derivation

/-!
# How operators nest

The grammar leaves open how operators nest, and a table of levels decides it: an operator of a higher level binds
tighter, and operators of one level group from the left. A tree is ordered if all its nodes keep to the table. A
prefix `!` takes all operators that bind tighter than itself into its operand, so it may stand at the end of an operand
of a tighter operator only on the right.
-/

namespace SwitchSynth.Alu

def ExprForm.level? : ExprForm → Option Nat
  | .withOp => some 25
  | .equals => some 22
  | .greater => some 21
  | .greaterEqual => some 20
  | .less => some 19
  | .lessEqual => some 18
  | .notEqual => some 17
  | .and => some 16
  | .or => some 15
  | .ternary => some 12
  | _ => none

namespace Tree

/-- The level of the operator at the top of a tree, if an infix operator or `? :` is there. -/
def level? : Tree → Option Nat
  | .node (.expr form) _ => form.level?
  | _ => none

/-- A `!` is the last operator of a tree: it stands at the top or on the right of operators, outside parentheses. -/
inductive EndsInNot : Tree → Prop where
  | not (cs : List Tree) : EndsInNot (.node (.expr .not) cs)
  | last {form : ExprForm} (cs : List Tree) {c : Tree} : form.level?.isSome → EndsInNot c →
    EndsInNot (.node (.expr form) (cs ++ [c]))

end Tree

/-- The operands of an expression are such that the levels put them there. -/
def ExprForm.Nests (form : ExprForm) (cs : List Tree) : Prop :=
  (form = .not → ∀ operand ∈ cs.getLast?, operand.level? ≠ some 12) ∧
  (form = .mux3 → ∀ third ∈ cs[6]?, ∀ number, third ≠ .node (.expr .num) number) ∧
  ∀ p ∈ form.level?,
    (∀ left ∈ cs.head?, (∀ q ∈ left.level?, p ≤ q) ∧ (left.EndsInNot → p < 14)) ∧
    ∀ right ∈ cs.getLast?, ∀ q ∈ right.level?, p < q

/-- The operands of a node nest, if it is one of an expression. -/
def Nests : Label → List Tree → Prop
  | .expr form, cs => form.Nests cs
  | _, _ => True

/-- All operators of a tree nest as their levels say. -/
def Tree.Ordered (t : Tree) : Prop :=
  ∀ n ∈ t.nodes, Nests n.1 n.2

namespace Tree

theorem mem_nodesAll {n : Label × List Tree} {cs : List Tree} : n ∈ nodesAll cs ↔ ∃ c ∈ cs, n ∈ c.nodes := by
  induction cs with
  | nil => simp [nodesAll]
  | cons c cs ih => simp [nodesAll, ih]

@[simp]
theorem ordered_leaf (k : Kind) (text : String) : (leaf k text).Ordered := by
  simp [Ordered, nodes]

@[simp]
theorem ordered_mark (k : Kind) : (mark k).Ordered :=
  ordered_leaf k _

@[simp]
theorem ordered_node (label : Label) (cs : List Tree) :
    (node label cs).Ordered ↔ Nests label cs ∧ ∀ c ∈ cs, c.Ordered := by
  simp only [Ordered, nodes, List.mem_cons, mem_nodesAll, forall_eq_or_imp]
  constructor
  · rintro ⟨hroot, hbelow⟩
    exact ⟨hroot, fun c hc n hn => hbelow n ⟨c, hc, hn⟩⟩
  · rintro ⟨hroot, hbelow⟩
    exact ⟨hroot, fun n ⟨c, hc, hn⟩ => hbelow c hc n hn⟩

end Tree

/-! ### Order of expressions -/

theorem BinaryOp.level?_form (op : BinaryOp) : op.form.level? = some op.level := by
  cases op <;> rfl

namespace Expr

@[simp]
theorem level?_binary (op : BinaryOp) (left right : Expr) : (binary op left right).tree.level? = some op.level :=
  op.level?_form

@[simp]
theorem level?_ternary (c y n : Expr) : (ternary c y n).tree.level? = some ternaryLevel := rfl

@[simp]
theorem level?_not (operand : Expr) : (not operand).tree.level? = none := rfl

theorem endsInNot_not (operand : Expr) : (not operand).tree.EndsInNot :=
  .not _

variable {form : ExprForm} {op : BinaryOp} {left right : Expr}

theorem endsInNot_node {cs : List Tree} {c : Tree} (h : form ≠ .not) :
    (Tree.node (.expr form) (cs ++ [c])).EndsInNot ↔ form.level?.isSome ∧ c.EndsInNot := by
  constructor
  · intro hends
    generalize hcs : cs ++ [c] = all at hends
    cases hends with
    | not => exact absurd rfl h
    | last cs' hform hc =>
      obtain ⟨rfl, hlast⟩ := List.append_inj' hcs rfl
      cases hlast
      exact ⟨hform, hc⟩
  · exact fun ⟨hform, hc⟩ => .last cs hform hc

theorem endsInNot_binary :
    (binary op left right).tree.EndsInNot ↔ right.tree.EndsInNot := by
  have hform : op.form ≠ .not := by cases op <;> exact nofun
  refine (@endsInNot_node op.form [left.tree, .mark op.kind] right.tree hform).trans ?_
  simp [op.level?_form]

theorem endsInNot_ternary {c y n : Expr} : (ternary c y n).tree.EndsInNot ↔ n.tree.EndsInNot := by
  refine (@endsInNot_node .ternary [c.tree, .mark .question, y.tree, .mark .colon] n.tree nofun).trans ?_
  simp [ExprForm.level?]

theorem nests_operator {p : Nat} (h : form.level? = some p) (cs : List Tree) :
    Nests (.expr form) cs ↔
      (∀ left ∈ cs.head?, (∀ q ∈ left.level?, p ≤ q) ∧ (left.EndsInNot → p < notLevel)) ∧
      ∀ right ∈ cs.getLast?, ∀ q ∈ right.level?, p < q := by
  have hnot : form ≠ .not := by
    rintro rfl
    exact nomatch h
  have hmux3 : form ≠ .mux3 := by
    rintro rfl
    exact nomatch h
  simp [Nests, ExprForm.Nests, hnot, hmux3, h, notLevel]

theorem ordered_binary :
    (binary op left right).tree.Ordered ↔ left.tree.Ordered ∧ right.tree.Ordered ∧
      (∀ q ∈ left.tree.level?, op.level ≤ q) ∧ (left.tree.EndsInNot → op.level < notLevel) ∧
      ∀ q ∈ right.tree.level?, op.level < q := by
  rw [tree, Tree.ordered_node, nests_operator op.level?_form]
  simp only [List.head?_cons, List.getLast?_cons_cons, List.getLast?_singleton, Option.mem_def, Option.some.injEq,
    forall_eq', List.mem_cons, List.not_mem_nil, or_false, forall_eq_or_imp, forall_eq, Tree.ordered_mark, true_and]
  tauto

theorem ordered_ternary {c y n : Expr} :
    (ternary c y n).tree.Ordered ↔ c.tree.Ordered ∧ y.tree.Ordered ∧ n.tree.Ordered ∧
      (∀ q ∈ c.tree.level?, ternaryLevel ≤ q) ∧ (c.tree.EndsInNot → ternaryLevel < notLevel) ∧
      ∀ q ∈ n.tree.level?, ternaryLevel < q := by
  rw [tree, Tree.ordered_node, nests_operator (show ExprForm.ternary.level? = some ternaryLevel from rfl)]
  simp only [List.head?_cons, List.getLast?_cons_cons, List.getLast?_singleton, Option.mem_def, Option.some.injEq,
    forall_eq', List.mem_cons, List.not_mem_nil, or_false, forall_eq_or_imp, forall_eq, Tree.ordered_mark, true_and]
  tauto

theorem ordered_not {operand : Expr} :
    (not operand).tree.Ordered ↔ operand.tree.Ordered ∧ operand.tree.level? ≠ some ternaryLevel := by
  rw [tree, Tree.ordered_node]
  simp [Nests, ExprForm.Nests, ExprForm.level?, ternaryLevel, and_comm]

end Expr

/-! ### Order of operands -/

/-- A form that is whole in itself: no operator stands at its end. -/
def ExprForm.IsOperand (form : ExprForm) : Prop :=
  form.level? = none ∧ form ≠ .not

instance (form : ExprForm) : Decidable form.IsOperand :=
  inferInstanceAs (Decidable (_ ∧ _))

variable {form : ExprForm}

theorem ExprForm.IsOperand.not_endsInNot (h : form.IsOperand) (cs : List Tree) :
    ¬ (Tree.node (.expr form) cs).EndsInNot := by
  intro hends
  cases hends with
  | not => exact h.2 rfl
  | last cs hform => simp [h.1] at hform

theorem ExprForm.IsOperand.nests (h : form.IsOperand) (hmux3 : form ≠ .mux3) (cs : List Tree) :
    form.Nests cs := by
  simp [ExprForm.Nests, h.1, h.2, hmux3]

theorem mem_of_mem_intersperse {α : Type} {sep a : α} {l : List α} (h : a ∈ l.intersperse sep) : a = sep ∨ a ∈ l := by
  induction l with
  | nil => exact .inr h
  | cons b l ih =>
    cases l with
    | nil => exact .inr h
    | cons c l =>
      simp only [List.intersperse, List.mem_cons] at h ih ⊢
      tauto

theorem mem_intersperse_of_mem {α : Type} {a : α} {l : List α} (sep : α) (h : a ∈ l) : a ∈ l.intersperse sep := by
  induction l with
  | nil => exact h
  | cons b l ih =>
    cases l with
    | nil => exact h
    | cons c l =>
      simp only [List.intersperse, List.mem_cons] at h ih ⊢
      tauto

/-- The primitives put their operands between parentheses and commas, which have no order to keep. -/
theorem ordered_callTree {k : Kind} {operands : List Tree} : (callTree form k operands).Ordered ↔
    Nests (.expr form) (.mark k :: .mark .lparen :: operands.intersperse (.mark .comma) ++ [.mark .rparen]) ∧
      ∀ c ∈ operands, c.Ordered := by
  refine (Tree.ordered_node _ _).trans (and_congr_right fun _ => ?_)
  simp only [List.cons_append, List.mem_cons, List.mem_append, List.not_mem_nil, or_false]
  constructor
  · exact fun h c hc => h c (.inr (.inr (.inl (mem_intersperse_of_mem _ hc))))
  · rintro h c (rfl | rfl | hc | rfl)
    · exact Tree.ordered_mark k
    · exact Tree.ordered_mark .lparen
    · rcases mem_of_mem_intersperse hc with rfl | hc
      · exact Tree.ordered_mark .comma
      · exact h c hc
    · exact Tree.ordered_mark .rparen

end SwitchSynth.Alu
