import SwitchSynth.Proofs.P4.Traversal

/-!
# Which holes are used up

A switch program meets the primitives of a stateful ALU in the order in which a sketch does, and uses up a hole
for each. Both number the primitives by those before them, but a switch program numbers an optional operand by
the arithmetic operators before it. So the holes that are used up are those of the sketch exactly if there are as
many arithmetic operators as optional operands before each optional operand.
-/

namespace SwitchSynth.P4

open Alu (Expr Stmt Body Else)
open Sketch (Primitive Family Helper Walk primitives numbered primitive? stmtWalk bodyWalk elseWalk sourceWalk
  holeKeys holeKeys_append holeKeys_eq_iff ownNumber number_of_mem_ownKeys
  ownKeys_nodup globalHoles_numbered)

/-! ### Walks do not look for holes -/

/-- A walk does not stop because a hole is missing. -/
def NeverMisses (w : Walk) : Prop :=
  ∀ k, w.outcome ≠ .error (.missingKey k)

theorem neverMisses : Walk.Inherited NeverMisses where
  nil _ h := nomatch h
  andThen {a b} ha hb := by
    obtain ⟨ps, outcome⟩ := a
    cases outcome with
    | error e => exact ha
    | ok u => exact hb
  requires {holds _ _} ha := by
    cases holds with
    | true => exact ha
    | false => exact fun _ h => nomatch h

theorem neverMisses_sourceWalk (source : Alu.Source) : NeverMisses (sourceWalk source) := by
  cases source with
  | whole d => exact neverMisses.requires (neverMisses.body (fun _ _ _ h => nomatch h) d.body (List.Subset.refl _))
  | headerOnly i => exact fun _ h => nomatch h

/-! ### Optional operands -/

/-- As many arithmetic operators as optional operands come before each optional operand. -/
def OptsMatchArithmetic (fs : List Family) : Prop :=
  ∀ done rest, fs = done ++ .opt :: rest → done.count .arithOp = done.count .opt

/-- The holes that are used up are those of the sketch, one after the other, if optional operands and arithmetic
operators match. -/
theorem usedKeys_eq_ownKeys_iff (alu : String) (fs : List Family) :
    holeKeys alu usedNumber [] fs = holeKeys alu ownNumber [] fs ↔ OptsMatchArithmetic fs := by
  rw [holeKeys_eq_iff]
  constructor
  · intro h done rest hsplit
    have hnumber := h done .opt rest hsplit
    rwa [usedNumber_eq, if_pos rfl] at hnumber
  · intro h done f rest hsplit
    rw [usedNumber_eq, List.nil_append]
    by_cases hf : f = .opt
    · subst hf
      rw [if_pos rfl]
      exact h done rest hsplit
    · rw [if_neg hf]
      rfl

/-- The numbers of the holes that are used up for optional operands. -/
def optNumbers : List Family → List Family → List Nat
  | _, [] => []
  | before, f :: fs =>
    if f = .opt then before.count .arithOp :: optNumbers (before ++ [f]) fs
    else optNumbers (before ++ [f]) fs

theorem optNumbers_append (before fs gs : List Family) :
    optNumbers before (fs ++ gs) = optNumbers before fs ++ optNumbers (before ++ fs) gs := by
  induction fs generalizing before with
  | nil => simp [optNumbers]
  | cons f fs ih => by_cases hf : f = .opt <;> simp [optNumbers, hf, ih]

theorem length_optNumbers (before fs : List Family) : (optNumbers before fs).length = fs.count .opt := by
  induction fs generalizing before with
  | nil => rfl
  | cons f fs ih => by_cases hf : f = .opt <;> simp [optNumbers, hf, ih]

variable {before fs : List Family} {alu : String}

theorem le_of_mem_optNumbers {n : Nat} (h : n ∈ optNumbers before fs) :
    before.count .arithOp ≤ n := by
  induction fs generalizing before with
  | nil => exact nomatch h
  | cons f fs ih =>
    have hcount : before.count .arithOp ≤ (before ++ [f]).count .arithOp := by
      rw [List.count_append]
      omega
    unfold optNumbers at h
    split at h
    · rcases List.mem_cons.1 h with rfl | h
      · exact Nat.le_refl _
      · exact Nat.le_trans hcount (ih h)
    · exact Nat.le_trans hcount (ih h)

theorem mem_usedKeys_of_mem_optNumbers (alu : String) {n : Nat}
    (h : n ∈ optNumbers before fs) : Family.opt.globalHole alu n ∈ holeKeys alu usedNumber before fs := by
  induction fs generalizing before with
  | nil => exact nomatch h
  | cons f fs ih =>
    rw [holeKeys]
    unfold optNumbers at h
    split at h
    · next hf =>
      subst hf
      rcases List.mem_cons.1 h with rfl | h
      · exact List.mem_cons_self
      · exact List.mem_cons_of_mem _ (ih h)
    · exact List.mem_cons_of_mem _ (ih h)

/-- Where no hole is used up twice, the numbers for optional operands grow. -/
theorem optNumbers_pairwise
    (h : (holeKeys alu usedNumber before fs).Nodup) : (optNumbers before fs).Pairwise (· < ·) := by
  induction fs generalizing before with
  | nil => exact .nil
  | cons f fs ih =>
    rw [holeKeys, List.nodup_cons] at h
    unfold optNumbers
    split
    · next hf =>
      subst hf
      refine List.pairwise_cons.2 ⟨fun n hn => ?_, ih h.2⟩
      have hle := le_of_mem_optNumbers hn
      rw [List.count_append] at hle
      have hne : before.count .arithOp ≠ n := by
        rintro rfl
        exact h.1 (mem_usedKeys_of_mem_optNumbers alu hn)
      have hzero : [Family.opt].count .arithOp = 0 := rfl
      omega
    · exact ih h.2

theorem eq_range'_of_pairwise {xs : List Nat} {low : Nat} (hgrows : xs.Pairwise (· < ·))
    (hlow : ∀ x ∈ xs, low ≤ x) (hhigh : ∀ x ∈ xs, x < low + xs.length) : xs = List.range' low xs.length := by
  induction xs generalizing low with
  | nil => rfl
  | cons x xs ih =>
    obtain ⟨hx, htail⟩ := List.pairwise_cons.1 hgrows
    have hle : low ≤ x := hlow x List.mem_cons_self
    have hrest : xs = List.range' (low + 1) xs.length := by
      refine ih htail (fun y hy => ?_) fun y hy => ?_
      · have hlt := hx y hy
        omega
      · have hlt := hhigh y (List.mem_cons_of_mem x hy)
        rw [List.length_cons] at hlt
        omega
    have hhead : x = low := by
      cases hxs : xs with
      | nil =>
        have hlt := hhigh x List.mem_cons_self
        rw [hxs] at hlt
        simp only [List.length_cons, List.length_nil] at hlt
        omega
      | cons y ys =>
        have hy : y = low + 1 := by
          rw [hxs, List.length_cons, List.range'_succ] at hrest
          exact (List.cons.inj hrest).1
        have hlt := hx y (hxs ▸ List.mem_cons_self)
        omega
    rw [List.length_cons, List.range'_succ, ← hrest, hhead]

/-- Where all holes can be used up out of those of the sketch, optional operands and arithmetic operators
match. -/
theorem optsMatchArithmetic_of_taken {holes holes' : Table Int}
    (h : Table.Taken holes (holeKeys alu usedNumber [] fs) holes')
    (hkeys : ∀ k ∈ holes.keys, k ∈ holeKeys alu ownNumber [] fs) : OptsMatchArithmetic fs := by
  have hbelow (n : Nat) (hn : n ∈ optNumbers [] fs) : n < 0 + (optNumbers [] fs).length := by
    rw [length_optNumbers]
    have hmem := hkeys _ (h.mem_keys (mem_usedKeys_of_mem_optNumbers alu hn))
    exact (number_of_mem_ownKeys hmem).2
  have hrange := eq_range'_of_pairwise (optNumbers_pairwise h.nodup) (fun n _ => Nat.zero_le n) hbelow
  intro done rest hsplit
  -- The number of an optional operand stands at the place that the optional operands before it leave.
  have hplace : (optNumbers [] fs)[done.count .opt]? = some (done.count .arithOp) := by
    rw [hsplit, optNumbers_append, ← length_optNumbers [] done,
      List.getElem?_append_right (Nat.le_refl _), Nat.sub_self]
    rfl
  have hlt : done.count .opt < (optNumbers [] fs).length := by
    rw [length_optNumbers, hsplit, List.count_append, List.count_cons_self]
    omega
  rw [hrange, List.getElem?_range' hlt] at hplace
  have hnumber := Option.some.inj hplace
  omega

namespace StatefulAlu

/-- How a run uses up the holes of primitives of some families: in their order, up to a hole that is not there or
another error. It ends only where writing the sketch does. -/
structure UsesHoles (r : Setting) (holes : Table Int) (fs : List Family) (written result : Except Error Unit)
    (l : Lowering) : Prop where
  taken : Table.Taken holes (holeKeys r.alu usedNumber [] l.resolved) l.holes
  inOrder : l.resolved <+: fs
  ends : result = .ok () → written = .ok () ∧ l.resolved = fs
  stops : ∀ e, result = .error e → e = .wrongType ∨ e = .outOfRange ∨
    (written = .error e ∧ l.resolved = fs) ∨
    ∃ f rest, fs = l.resolved ++ f :: rest ∧
      e = .missingKey (f.globalHole r.alu (usedNumber l.resolved f)) ∧
      l.holes.get? (f.globalHole r.alu (usedNumber l.resolved f)) = none

theorem TakesHoles.resolved_eq {r : Setting} {ps : List Primitive} {holes : Table Int} {l : Lowering}
    (h : TakesHoles r ps { holes := holes } l) : l.resolved = ps.map Primitive.family := by
  rw [h.resolved, List.nil_append]

theorem lower_usesHoles (r : Setting) (holes : Table Int) (source : Alu.Source) :
    UsesHoles r holes ((sourceWalk source).primitives.map Primitive.family) (sourceWalk source).outcome
      (lower r holes source).1 (lower r holes source).2 := by
  have hfollows : Follows r False (sourceWalk source) (lowerSource source) := follows_lowerSource source
  rcases ends_or_stops ((lowerSource source).run r) { holes := holes } with ⟨_, l, hend⟩ | ⟨e, l, hstop⟩
  · have hrun : lower r holes source = (.ok (), l) := hend
    obtain ⟨hok, htakes, -⟩ := hfollows.ends hend
    rw [hrun, ← htakes.resolved_eq]
    refine ⟨?_, List.prefix_refl _, fun _ => ⟨hok, rfl⟩, fun e he => nomatch he⟩
    rw [htakes.resolved_eq]
    exact htakes.taken
  · have hrun : lower r holes source = (.error e, l) := hstop
    obtain ⟨done, rest, hsplit, htakes, hstops⟩ := hfollows.stops hstop
    rw [hrun, hsplit, List.map_append, ← htakes.resolved_eq]
    refine ⟨?_, List.prefix_append _ _, (fun hok => nomatch hok), fun e' he' => ?_⟩
    · rw [htakes.resolved_eq]
      exact htakes.taken
    · cases he'
      cases hstops with
      | textless => exact .inl rfl
      | outOfRange => exact .inr (.inl rfl)
      | walk herror => exact .inr (.inr (.inl ⟨herror, by simp⟩))
      | @missing p rest hnone =>
        rw [nextHole_eq] at hnone ⊢
        exact .inr (.inr (.inr ⟨p.family, rest.map Primitive.family, rfl, rfl, hnone⟩))

def writtenHelpers (source : Alu.Source) : List Helper :=
  ((Sketch.StatefulAlu.putSource source).run.run {}).2.helpers

def writtenFamilies (source : Alu.Source) : List Family :=
  (writtenHelpers source).map fun h => h.primitive.family

theorem writtenHelpers_eq (source : Alu.Source) :
    writtenHelpers source = numbered [] (sourceWalk source).primitives := by
  obtain ⟨draft, hrun, hhelpers⟩ := Sketch.StatefulAlu.run_putSource source
  unfold writtenHelpers
  rw [hrun]
  exact hhelpers

theorem writtenFamilies_eq (source : Alu.Source) :
    writtenFamilies source = (sourceWalk source).primitives.map Primitive.family := by
  have hprimitives := Sketch.primitives_numbered [] (sourceWalk source).primitives
  rw [List.map_nil, List.nil_append] at hprimitives
  rw [writtenFamilies, writtenHelpers_eq, ← hprimitives, List.map_map]
  simp [hprimitives]

theorem writtenHoles_eq (alu : String) (source : Alu.Source) :
    (writtenHelpers source).map (Helper.globalHole alu) = holeKeys alu ownNumber [] (writtenFamilies source) := by
  rw [writtenFamilies_eq, writtenHelpers_eq, globalHoles_numbered]
  rfl

/-- Lowering uses up the holes of the primitives in the order in which the sketch has them. They are the holes of
the sketch, under the same names, exactly if optional operands match arithmetic operators. Where there are just
the holes of the sketch, lowering ends only in this case, and with none left; and in this case none is missing. -/
theorem holes_used_are_those_of_sketch_iff_opts_match_arithmetic (r : Setting) (source : Alu.Source) :
    (∀ holes, UsesHoles r holes (writtenFamilies source) ((Sketch.StatefulAlu.putSource source).run.run {}).1
      (lower r holes source).1 (lower r holes source).2) ∧
    (holeKeys r.alu usedNumber [] (writtenFamilies source) =
        (writtenHelpers source).map (Helper.globalHole r.alu) ↔
      OptsMatchArithmetic (writtenFamilies source)) ∧
    ∀ holes : Table Int, (∀ k, k ∈ holes.keys ↔ k ∈ (writtenHelpers source).map (Helper.globalHole r.alu)) →
      ((lower r holes source).1 = .ok () →
        OptsMatchArithmetic (writtenFamilies source) ∧ (lower r holes source).2.holes.keys = []) ∧
      (OptsMatchArithmetic (writtenFamilies source) →
        ∀ k, (lower r holes source).1 ≠ .error (.missingKey k)) := by
  obtain ⟨draft, hrun, -⟩ := Sketch.StatefulAlu.run_putSource source
  have huses (holes : Table Int) := lower_usesHoles r holes source
  have hsame := usedKeys_eq_ownKeys_iff r.alu (writtenFamilies source)
  rw [hrun, writtenHoles_eq]
  rw [writtenFamilies_eq] at hsame ⊢
  refine ⟨huses, hsame, fun holes hkeys => ⟨fun hok => ?_, fun hmatch k hmissing => ?_⟩⟩
  · have htaken := (huses holes).taken
    rw [((huses holes).ends hok).2] at htaken
    have hmatch := optsMatchArithmetic_of_taken htaken fun k hk => (hkeys k).1 hk
    exact ⟨hmatch, htaken.keys_eq_nil fun k hk => hsame.2 hmatch ▸ (hkeys k).1 hk⟩
  · rcases (huses holes).stops _ hmissing with herror | herror | ⟨herror, -⟩ | ⟨f, rest, hsplit, -, hnone⟩
    · exact nomatch herror
    · exact nomatch herror
    · exact neverMisses_sourceWalk source k herror
    · -- The next hole is one of the sketch, and it has not been used up before.
      have hused := hsame.2 hmatch
      have hnodup := ownKeys_nodup r.alu [] ((sourceWalk source).primitives.map Primitive.family)
      rw [← hused, hsplit, holeKeys_append, List.nil_append, holeKeys, List.nodup_append] at hnodup
      have hnew := fun hmem => hnodup.2.2 _ hmem _ List.mem_cons_self rfl
      rw [(huses holes).taken.get?_eq, if_neg hnew, Table.get?_eq_none_iff, hkeys, ← hused, hsplit,
        holeKeys_append, List.nil_append, holeKeys] at hnone
      exact hnone (List.mem_append_right _ List.mem_cons_self)

/-! ### Two optional operands -/

namespace TwoOpts

/-- `state_lo = Opt(state_lo) + Opt(metadata_lo); return state_lo;` -/
def description : Alu.Description where
  indicator := .stateful
  stateVars := ["state_lo"]
  holeVars := []
  packetFields := ["metadata_lo", "metadata_hi"]
  body := .cons (.update "state_lo" (.binary .add (.opt (.var "state_lo")) (.opt (.var "metadata_lo"))) ";")
    (.last (.ret (.var "state_lo") ";"))

def setting : Setting :=
  ⟨"alu", [], "ipv4.pkt_0", "ipv4.pkt_1"⟩

def holeValues : Table Int :=
  .ofList [("alu_Opt_0_global", 0), ("alu_Opt_1_global", 0)]

/-- Both optional operands are numbered by the arithmetic operators before them, of which there are none: the
hole of the first one is looked for again, and the one of the second is left. -/
theorem second_opt_looks_for_hole_of_first :
    (writtenHelpers (.whole description)).map (Helper.globalHole setting.alu) = holeValues.keys ∧
    (lower setting holeValues (.whole description)).1 ≠ .ok () ∧
    (lower setting holeValues (.whole description)).1 = .error (.missingKey "alu_Opt_0_global") ∧
    (lower setting holeValues (.whole description)).2.holes.keys = ["alu_Opt_1_global"] := by
  have hholes : (writtenHelpers (.whole description)).map (Helper.globalHole setting.alu) =
      holeValues.keys := by decide +kernel
  refine ⟨hholes, fun hok => ?_, by decide +kernel, by decide +kernel⟩
  obtain ⟨-, -, hexact⟩ :=
    holes_used_are_those_of_sketch_iff_opts_match_arithmetic setting (.whole description)
  obtain ⟨hmatch, -⟩ := (hexact holeValues fun k => by rw [hholes]).1 hok
  have hcount := hmatch [.opt] [] (by decide +kernel)
  exact nomatch hcount

end TwoOpts

end StatefulAlu

end SwitchSynth.P4
