import SwitchSynth.Proofs.Alu.Grammar
import SwitchSynth.Proofs.Sketch.PrimitiveCalls

/-!
# The holes of a stateful ALU

Writing a stateful ALU adds one hole for each node of its tree that is a primitive, in post-order. Those of a family are
numbered from zero on, so no name is added twice. Each hole has a helper of its own, and is a parameter of the function,
where every hole that is passed to a helper is found.
-/

namespace SwitchSynth

open Alu (Expr Stmt Body Else Kind Tree Label)

namespace Alu.Tree

mutual
/-- The labels of a tree, each behind those below it. -/
def postorder : Tree → List Label
  | .leaf _ _ => []
  | .node label cs => postorderAll cs ++ [label]
def postorderAll : List Tree → List Label
  | [] => []
  | c :: cs => c.postorder ++ postorderAll cs
end

theorem postorderAll_append (cs ds : List Tree) : postorderAll (cs ++ ds) = postorderAll cs ++ postorderAll ds := by
  induction cs with
  | nil => rfl
  | cons c cs ih => rw [List.cons_append, postorderAll, postorderAll, ih, List.append_assoc]

end Alu.Tree

namespace Sketch

open Alu.Tree (postorder postorderAll postorderAll_append tipsAll tipsAll_append)

/-- The family of the primitive that a node is a use of. -/
def familyOf? : Label → Option Family
  | .expr .mux5 => some .mux5
  | .expr .mux4 => some .mux4
  | .expr .mux3 | .expr .mux3WithNum => some .mux3
  | .expr .mux2 => some .mux2
  | .expr .relOp => some .relOp
  | .expr .arithOp => some .arithOp
  | .expr .opt => some .opt
  | .expr .constant => some .constant
  | .expr .computeAlu => some .computeAlu
  | .expr .boolOp => some .boolOp
  | _ => none

/-- The families of the primitives in a tree, in post-order. -/
def families (t : Tree) : List Family :=
  t.postorder.filterMap familyOf?

theorem families_expr (e : Expr) : families e.tree = (primitives e).map Primitive.family := by
  induction e with
  | binary op left right ihl ihr =>
    have hop : familyOf? (.expr op.form) = none := by cases op <;> rfl
    simp only [families] at ihl ihr
    simp [families, Expr.tree, Tree.mark, postorder, postorderAll, primitives, ihl, ihr, hop]
  | _ =>
    simp_all [families, Expr.tree, Alu.callTree, Alu.variableTree, Tree.mark, postorder, postorderAll, primitives,
      familyOf?, Primitive.family]

/-! ### Walks along trees -/

/-- All semicolons are there. -/
def Terminated (ts : List Tree) : Prop :=
  ∀ tip ∈ tipsAll ts, tip.1 = .semicolon → tip.2 = ";"

/-- A walk goes to its end and meets the primitives of trees in post-order. -/
def Walk.Along (w : Walk) (ts : List Tree) : Prop :=
  Terminated ts → w.outcome = .ok () ∧ w.primitives.map Primitive.family = (postorderAll ts).filterMap familyOf?

namespace Walk.Along

variable {a b : Walk} {ts us : List Tree} {l : Label} {k : Kind} {text : String}

theorem nil : Along (.meets []) [] :=
  fun _ => ⟨rfl, rfl⟩

theorem andThen (ha : Along a ts) (hb : Along b us) : Along (a.andThen b) (ts ++ us) := by
  intro h
  rw [Terminated, tipsAll_append] at h
  obtain ⟨houtcome, hts⟩ := ha fun tip htip => h tip (List.mem_append_left _ htip)
  obtain ⟨houtcome', hus⟩ := hb fun tip htip => h tip (List.mem_append_right _ htip)
  rw [Walk.andThen, houtcome]
  refine ⟨houtcome', ?_⟩
  rw [List.map_append, hts, hus, postorderAll_append, List.filterMap_append]

theorem node (hlabel : familyOf? l = none) (h : Along a ts) : Along a [.node l ts] := by
  intro hterminated
  rw [Terminated, tipsAll, tipsAll, List.append_nil] at hterminated
  obtain ⟨houtcome, hts⟩ := h hterminated
  refine ⟨houtcome, ?_⟩
  rw [hts, postorderAll, postorderAll, List.append_nil, postorder, List.filterMap_append, List.filterMap_cons, hlabel,
    List.filterMap_nil, List.append_nil]

/-- Leaves in front and behind are no primitives. -/
theorem leafBefore (h : Along a ts) : Along a (.leaf k text :: ts) :=
  fun hterminated => h fun tip htip => hterminated tip (List.mem_cons_of_mem _ htip)

theorem leafBehind (h : Along a ts) : Along a (ts ++ [.leaf k text]) := by
  intro hterminated
  rw [Terminated, tipsAll_append] at hterminated
  rw [postorderAll_append, show postorderAll [.leaf k text] = [] from rfl, List.append_nil]
  exact h fun tip htip => hterminated tip (List.mem_append_left _ htip)

theorem expr (e : Expr) : Along (.meets (Sketch.primitives e)) [e.tree] := by
  intro _
  refine ⟨rfl, ?_⟩
  rw [postorderAll, postorderAll, List.append_nil]
  exact (families_expr e).symm

/-- An expression with a semicolon that is there. -/
theorem requires (e : Expr) (terminator : String) :
    Along (.requires (terminator == ";") .unterminatedUpdate (.meets (Sketch.primitives e)))
      [e.tree, .leaf .semicolon terminator] := by
  intro hterminated
  have hsemicolon : terminator = ";" := by
    refine hterminated (.semicolon, terminator) ?_ rfl
    rw [tipsAll]
    exact List.mem_append_right _ List.mem_cons_self
  rw [Walk.requires, beq_iff_eq.2 hsemicolon, if_pos rfl]
  exact (expr e).leafBehind hterminated

/-- The condition and the body of an arm. -/
theorem arm (condition : Expr) (h : Along a ts) :
    Along ((Walk.meets (Sketch.primitives condition)).andThen a) [Alu.armTree condition (.node (.rule .aluBody) ts)] :=
  .node rfl (.leafBefore ((expr condition).andThen (.leafBefore (.leafBefore (leafBehind (.node rfl h))))))

end Walk.Along

theorem Walk.andThen_assoc (a b c : Walk) : (a.andThen b).andThen c = a.andThen (b.andThen c) := by
  obtain ⟨ps, outcome⟩ := a
  obtain ⟨qs, outcome'⟩ := b
  cases outcome with
  | error e => rfl
  | ok u =>
    cases outcome' with
    | error e => rfl
    | ok u' => simp [Walk.andThen]

mutual
theorem along_stmtWalk : ∀ s : Stmt, (stmtWalk s).Along [s.tree]
  | .update target value terminator =>
    .node rfl ((Walk.Along.node (l := .rule .variableName) rfl (.leafBefore .nil)).andThen
      (.leafBefore (.requires value terminator)))
  | .temp sort name value terminator =>
    .node (by cases sort <;> rfl) (.leafBefore ((Walk.Along.node (l := .rule .tempVar) rfl (.leafBefore .nil)).andThen
      (.leafBefore (.requires value terminator))))
  | .ret value terminator => .node rfl (.node rfl (.leafBefore (Walk.Along.expr value).leafBehind))
  | .branch condition inner rest => by
    rw [stmtWalk, ← Walk.andThen_assoc]
    exact .node rfl (.leafBefore ((Walk.Along.arm condition (along_bodyWalk inner)).andThen (along_elseWalk rest)))
  | .assertFalse => .node rfl (.leafBefore .nil)
theorem along_bodyWalk : ∀ b : Body, (bodyWalk b).Along b.trees
  | .last s => along_stmtWalk s
  | .cons s rest => (along_stmtWalk s).andThen (along_bodyWalk rest)
theorem along_elseWalk : ∀ e : Else, (elseWalk e).Along e.trees
  | .none => .nil
  | .elif condition inner rest => by
    rw [elseWalk, ← Walk.andThen_assoc]
    exact .leafBefore ((Walk.Along.arm condition (along_bodyWalk inner)).andThen (along_elseWalk rest))
  | .otherwise inner => .leafBefore (.leafBefore (Walk.Along.leafBehind (.node rfl (along_bodyWalk inner))))
end

/-! ### The numbers of the holes -/

/-- The primitives of a family are numbered one after the other. -/
theorem numbers_numbered (f : Family) (hs : List Helper) (ps : List Primitive) :
    ((numbered hs ps).filter fun h => h.primitive.family = f).map Helper.number =
      ((hs.filter fun h => h.primitive.family = f).map Helper.number) ++
        List.range' (familyCount f hs) ((ps.map Primitive.family).count f) := by
  induction ps generalizing hs with
  | nil => simp
  | cons p ps ih =>
    have hcons : numbered hs (p :: ps) = numbered (hs ++ [⟨p, familyCount p.family hs⟩]) ps := rfl
    rw [hcons, ih, familyCount_append_self, List.filter_append, List.map_append, List.map_cons, List.count_cons]
    by_cases hf : p.family = f
    · simp [hf, List.range'_succ]
    · simp [hf]

namespace StatefulAlu

variable {name : String} {alu : StatefulAlu}

theorem nodup_names_numbered (name : String) (ps : List Primitive) :
    ((numbered [] ps).map (Helper.name name)).Nodup :=
  List.Nodup.map_on (fun _ h _ h' => eq_of_name_eq h h') (nodup_holes_numbered ps).of_map

theorem globalHoles_eq (alu : StatefulAlu) :
    alu.globalHoles = alu.arguments.map fun a => (alu.name ++ "_" ++ a.1 ++ "_global", a.2) := by
  rw [globalHoles, arguments, List.map_map]
  rfl

/-- The holes as parameters are in order, and are those that were added. -/
theorem sortedHoles_sorted (alu : StatefulAlu) :
    alu.sortedHoles.Pairwise (· ≤ ·) ∧ alu.sortedHoles.Perm (alu.arguments.map Prod.fst) := by
  have htrans : ∀ a b c : String, decide (a ≤ b) = true → decide (b ≤ c) = true → decide (a ≤ c) = true :=
    fun a b c hab hbc => decide_eq_true (String.le_trans (of_decide_eq_true hab) (of_decide_eq_true hbc))
  have htotal : ∀ a b : String, (decide (a ≤ b) || decide (b ≤ a)) = true := fun a b => by
    simpa using String.le_total a b
  refine ⟨(List.pairwise_mergeSort htrans htotal _).imp fun h => of_decide_eq_true h, ?_⟩
  rw [arguments, List.map_map]
  exact List.mergeSort_perm _ _

/-- The hole that a call passes is one of those that were added. -/
theorem hole_of_mem_calls {bits : Int} {d : Alu.Description} (h : ofSource name bits (.whole d) = .ok alu)
    {call : Code} (hcall : call ∈ alu.code.calls) :
    ∃ p helper operands hole, call = .call p helper operands hole ∧ p.family.hole hole ∈ alu.arguments.map Prod.fst := by
  obtain ⟨-, -, us, -, hcalls, hperm, -⟩ := accounts_ofSource h
  rw [← hcalls] at hcall
  obtain ⟨u, hu, rfl⟩ := List.mem_map.1 hcall
  refine ⟨_, _, _, _, rfl, ?_⟩
  rw [arguments, List.map_map]
  exact List.mem_map.2 ⟨u.own, hperm.mem_iff.2 (List.mem_append_right _ (List.mem_map_of_mem hu)), rfl⟩

end StatefulAlu

end Sketch

end SwitchSynth
