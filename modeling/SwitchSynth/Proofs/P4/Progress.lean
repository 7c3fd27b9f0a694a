import SwitchSynth.Proofs.P4.Numbering

/-!
# Lowering stops only for want of a hole

An expression of a stateful ALU has a text, whatever the values of the holes are, unless it is `True`. So where `True`
is not used, the texts of expressions can be joined. Constants are there if the values that choose them are below their
number. What is left is a hole that is not there. Without optional operands, holes are looked for under the names that
a sketch has for them.
-/

namespace SwitchSynth

namespace Alu

/-- Neither `True` nor an optional operand is among some expressions. -/
structure Regular (es : List Expr) : Prop where
  truth : .truth ∉ es
  opt : ∀ e, .opt e ∉ es

variable {es es' : List Expr}

theorem Regular.mono (h : Regular es) (hsub : es' ⊆ es) : Regular es' :=
  ⟨fun hmem => h.truth (hsub hmem), fun e hmem => h.opt e (hsub hmem)⟩

theorem regular_append : Regular (es ++ es') ↔ Regular es ∧ Regular es' := by
  refine ⟨fun h => ⟨h.mono (List.subset_append_left _ _), h.mono (List.subset_append_right _ _)⟩, fun ⟨h, h'⟩ => ?_⟩
  exact ⟨fun hmem => (List.mem_append.1 hmem).elim h.truth h'.truth,
    fun e hmem => (List.mem_append.1 hmem).elim (h.opt e) (h'.opt e)⟩

theorem Regular.tail {e : Expr} (h : Regular (e :: es)) : Regular es :=
  h.mono (List.subset_cons_self e es)

end Alu

open Alu (Expr Stmt Body Else Regular regular_append)
open Sketch (Primitive Family Walk primitives primitive? stmtWalk bodyWalk elseWalk sourceWalk holeKeys
  holeKeys_append ownNumber)

namespace Sketch

theorem eq_opt_of_primitive {e : Expr} {p : Primitive} {es : List Expr} (h : primitive? e = some (p, es))
    (hp : p.family = .opt) : ∃ operand, e = .opt operand := by
  cases e <;> cases h <;> simp_all [Primitive.family]

/-! ### No optional operands on a walk -/

theorem family_ne_opt_of_expr {e : Expr} (h : Regular e.parts) : ∀ p ∈ primitives e, p.family ≠ .opt := by
  induction e using primitive_induction with
  | var name => exact nofun
  | num digits => exact nofun
  | truth => exact nofun
  | paren inner close ih => exact ih h.tail
  | binary op left right ihl ihr =>
    obtain ⟨hl, hr⟩ := regular_append.1 h.tail
    exact List.forall_mem_append.2 ⟨ihl hl, ihr hr⟩
  | not operand ih => exact ih h.tail
  | ternary condition yes no ihc ihy ihn =>
    obtain ⟨h, hn⟩ := regular_append.1 h.tail
    obtain ⟨hc, hy⟩ := regular_append.1 h
    exact List.forall_mem_append.2 ⟨List.forall_mem_append.2 ⟨ihc hc, ihy hy⟩, ihn hn⟩
  | primitive e p es hp ih =>
    rw [primitives_of_primitive hp]
    rw [parts_of_primitive hp] at h
    refine List.forall_mem_append.2 ⟨fun q hq => ?_, fun q hq => ?_⟩
    · obtain ⟨x, hx, hq⟩ := List.mem_flatMap.1 hq
      exact ih x hx (h.tail.mono fun y hy => List.mem_flatMap.2 ⟨x, hx, hy⟩) q hq
    · rw [List.mem_singleton.1 hq]
      intro hopt
      obtain ⟨x, rfl⟩ := eq_opt_of_primitive hp hopt
      exact h.opt x List.mem_cons_self

/-- No primitive on a walk is an optional operand. -/
def WithoutOpts (w : Walk) : Prop :=
  ∀ p ∈ w.primitives, p.family ≠ .opt

theorem withoutOpts : Walk.Inherited WithoutOpts where
  nil := nofun
  andThen {a b} ha hb := by
    obtain ⟨ps, outcome⟩ := a
    cases outcome with
    | error e => exact ha
    | ok u => exact List.forall_mem_append.2 ⟨ha, hb⟩
  requires {holds _ _} ha := by
    cases holds with
    | true => exact ha
    | false => exact nofun

theorem withoutOpts_sourceWalk {d : Alu.Description} (h : Regular d.body.parts) :
    WithoutOpts (sourceWalk (.whole d)) :=
  withoutOpts.requires (withoutOpts.body (fun _ he => family_ne_opt_of_expr (h.mono he)) d.body (List.Subset.refl _))

end Sketch

namespace P4

namespace StatefulAlu

/-! ### The holes that are taken -/

/-- Without optional operands, holes are looked for under their names in the sketch. -/
theorem usedKeys_eq_ownKeys (alu : String) {d : Alu.Description} (h : Regular d.body.parts) :
    holeKeys alu usedNumber [] ((sourceWalk (.whole d)).primitives.map Primitive.family) =
      holeKeys alu ownNumber [] ((sourceWalk (.whole d)).primitives.map Primitive.family) := by
  refine (usedKeys_eq_ownKeys_iff alu _).2 fun done rest hsplit => ?_
  have hmem : .opt ∈ (sourceWalk (.whole d)).primitives.map Primitive.family := by
    rw [hsplit]
    exact List.mem_append_right done List.mem_cons_self
  obtain ⟨p, hp, hopt⟩ := List.mem_map.1 hmem
  exact absurd hopt (Sketch.withoutOpts_sourceWalk h p hp)

/-- Lowering takes the holes that the sketch has for the primitives, in their order. It takes all of them, or it stops
at the first one that is not there. -/
theorem lower_takes {r : Setting} {holes : Table Int} {d : Alu.Description} (h : Regular d.body.parts)
    (hwalk : (sourceWalk (.whole d)).outcome = .ok ()) (hrange : InRange r holes) {keys : List String}
    (hkeys : keys = holeKeys r.alu ownNumber [] ((sourceWalk (.whole d)).primitives.map Primitive.family)) :
    (lower r holes (.whole d)).1 = .ok () ∧ Table.Taken holes keys (lower r holes (.whole d)).2.holes ∨
    ∃ done k rest, keys = done ++ k :: rest ∧ Table.Taken holes done (lower r holes (.whole d)).2.holes ∧
      (lower r holes (.whole d)).2.holes.get? k = none ∧ (lower r holes (.whole d)).1 = .error (.missingKey k) := by
  have huses := lower_usesHoles r holes (.whole d)
  have hfollows : Follows r True (sourceWalk (.whole d)) (lowerSource (.whole d)) :=
    follows_lowerDescription fun _ => h.truth
  rw [hkeys, ← usedKeys_eq_ownKeys r.alu h]
  cases hresult : (lower r holes (.whole d)).1 with
  | ok u =>
    refine .inl ⟨rfl, ?_⟩
    have htaken := huses.taken
    rwa [(huses.ends hresult).2] at htaken
  | error e =>
    have hstop : StopsIn (lowerSource (.whole d)) r { holes := holes } e (lower r holes (.whole d)).2 :=
      Prod.ext hresult rfl
    obtain ⟨_, _, -, -, hwhy⟩ := hfollows.stops hstop
    rcases huses.stops e hresult with rfl | rfl | ⟨herror, -⟩ | ⟨f, rest, hsplit, rfl, hnone⟩
    · cases hwhy with
      | textless htexts => exact absurd trivial htexts
      | walk herror => exact nomatch hwalk.symm.trans herror
    · cases hwhy with
      | outOfRange hout => exact absurd hrange hout
      | walk herror => exact nomatch hwalk.symm.trans herror
    · exact nomatch hwalk.symm.trans herror
    · have hall := congrArg (holeKeys r.alu usedNumber []) hsplit
      rw [holeKeys_append, List.nil_append, holeKeys] at hall
      exact .inr ⟨_, _, _, hall, huses.taken, hnone, rfl⟩

end StatefulAlu

end P4

end SwitchSynth
