import Mathlib.Data.List.Nodup
import SwitchSynth.Proofs.Listing
import SwitchSynth.Proofs.Sketch.Walk
import SwitchSynth.Sketch.DataPath

/-!
# The names of the functions of a sketch

A sketch names each of its functions by what it is for: the words for its kind, with the numbers of its stage and
of its place in the stage. None of the words has an underscore, so the name tells which function it is, and a
sketch that has each function once gives each name once.
-/

namespace SwitchSynth.Sketch

open Text (Plain path path_append path_concat plain_toString path_inj toString_nat_injective)

/-- The words of the name of a family's helpers. -/
def Family.words : Family → List String
  | relOp => ["rel", "op"]
  | arithOp => ["arith", "op"]
  | computeAlu => ["compute", "alu"]
  | boolOp => ["bool", "op"]
  | f => [f.helperStem]

theorem Family.path_words (f : Family) : path f.words = "_" ++ f.helperStem := by
  cases f <;> decide

theorem Family.helper_eq_path (f : Family) (alu : String) (n : Nat) :
    f.helper alu n = alu ++ path (f.words ++ [toString n]) := by
  rw [path_concat, f.path_words, Family.helper]
  simp only [String.append_assoc]

theorem Family.plain_words (f : Family) : ∀ w ∈ f.words, Plain w := by
  cases f <;> simp [Family.words, helperStem, holeStem, Plain]

theorem Family.words_inj {f f' : Family} (h : f.words = f'.words) : f = f' := by
  cases f <;> cases f' <;> first | rfl | exact absurd h (by decide)

/-- The functions of a sketch, by what they are for. -/
inductive FunctionName where
  /-- The multiplexer of an operand of a stateful ALU. -/
  | operandMux (stage unit operand : Nat)
  /-- The multiplexer of a container behind a stage. -/
  | outputMux (stage container : Nat)
  /-- The multiplexer of a packet field of a stateless ALU. -/
  | fieldMux (stage alu field : Nat)
  | stateless (stage alu : Nat)
  /-- A helper of a stateful ALU. -/
  | helper (stage unit : Nat) (family : Family) (number : Nat)
  | stateful (stage unit : Nat)
  deriving DecidableEq, Repr

namespace FunctionName

def words : FunctionName → List String
  | operandMux i l k => ["stateful", "alu", toString i, toString l, "operand", "mux", toString k]
  | outputMux i c => ["output", "mux", "phv", toString i, toString c]
  | fieldMux i j k => ["stateless", "alu", toString i, toString j, "operand", "mux", toString k]
  | stateless i j => ["stateless", "alu", toString i, toString j]
  | helper i l f n => ["stateful", "alu", toString i, toString l] ++ f.words ++ [toString n]
  | stateful i l => ["stateful", "alu", toString i, toString l]

def text (sketch : String) (n : FunctionName) : String :=
  sketch ++ path n.words

theorem plain_words (n : FunctionName) : ∀ w ∈ n.words, Plain w := by
  have hwords : Plain "stateful" ∧ Plain "stateless" ∧ Plain "alu" ∧ Plain "operand" ∧ Plain "mux" ∧
      Plain "output" ∧ Plain "phv" := by
    simp [Plain]
  cases n with
  | helper i l f k =>
    intro w hw
    simp only [words, List.mem_append, List.mem_cons, List.not_mem_nil, or_false] at hw
    rcases hw with ((rfl | rfl | rfl | rfl) | hw) | rfl
    · exact hwords.1
    · exact hwords.2.2.1
    · exact plain_toString i
    · exact plain_toString l
    · exact f.plain_words w hw
    · exact plain_toString k
  | _ =>
    simp only [words, List.forall_mem_cons, plain_toString, hwords, and_self, List.not_mem_nil, false_implies,
      implies_true]

theorem helper_words_inj {f f' : Family} {m n : Nat}
    (h : f.words ++ [toString m] = f'.words ++ [toString n]) : f = f' ∧ m = n := by
  obtain ⟨hwords, hlast⟩ := List.append_inj' h rfl
  exact ⟨Family.words_inj hwords, toString_nat_injective (List.cons.inj hlast).1⟩

theorem helper_words_ne (f : Family) (n k : Nat) :
    f.words ++ [toString n] ≠ ["operand", "mux"] ++ [toString k] := by
  intro h
  have hwords : f.words = ["operand", "mux"] := (List.append_inj' h rfl).1
  cases f <;> exact absurd hwords (by decide)

theorem words_inj {a b : FunctionName} (h : a.words = b.words) : a = b := by
  cases a <;> cases b
  -- The number of words of a helper depends on its family, so it is compared with its neighbours by hand.
  case helper.helper i l f m i' l' f' n =>
    simp only [words, List.cons_append, List.nil_append, List.cons.injEq, true_and] at h
    obtain ⟨hi, hl, hrest⟩ := h
    obtain ⟨rfl, rfl⟩ := helper_words_inj hrest
    rw [toString_nat_injective hi, toString_nat_injective hl]
  case helper.operandMux i l f m i' l' k =>
    simp only [words, List.cons_append, List.nil_append, List.cons.injEq, true_and] at h
    exact absurd h.2.2 (helper_words_ne f m k)
  case operandMux.helper i l k i' l' f m =>
    simp only [words, List.cons_append, List.nil_append, List.cons.injEq, true_and] at h
    exact absurd h.2.2.symm (helper_words_ne f m k)
  case helper.stateful => simp [words] at h
  case stateful.helper => simp [words] at h
  all_goals
    simp only [words, List.cons_append, List.nil_append, List.cons.injEq, String.reduceEq, false_and, and_false,
      true_and, and_true, reduceCtorEq] at h
  all_goals
    grind [toString_nat_injective]

theorem text_inj {sketch : String} {a b : FunctionName} (h : a.text sketch = b.text sketch) : a = b :=
  words_inj (path_inj a.plain_words b.plain_words ((String.append_right_inj sketch).1 h))

theorem path_numbers (ws : List String) (i j : Nat) :
    path (ws ++ [toString i, toString j]) = path ws ++ "_" ++ toString i ++ "_" ++ toString j := by
  rw [List.append_cons, path_concat, path_concat]

theorem path_operandMux (ws : List String) (k : Nat) :
    path (ws ++ ["operand", "mux", toString k]) = path ws ++ "_operand_mux_" ++ toString k := by
  have hwords : path ["operand", "mux"] ++ "_" = "_operand_mux_" := by decide
  rw [show ws ++ ["operand", "mux", toString k] = ws ++ ["operand", "mux"] ++ [toString k] by simp,
    path_concat, path_append, ← hwords]
  simp only [String.append_assoc]

section Text

variable (p : Plan) (i j k : Nat)

theorem text_stateless : (stateless i j).text p.shape.sketchName = p.statelessName i j := by
  have hpath : path (stateless i j).words = "_stateless_alu_" ++ toString i ++ "_" ++ toString j :=
    path_numbers ["stateless", "alu"] i j
  rw [text, hpath, Plan.statelessName]
  simp only [String.append_assoc]

theorem text_stateful : (stateful i j).text p.shape.sketchName = p.statefulName i j := by
  have hpath : path (stateful i j).words = "_stateful_alu_" ++ toString i ++ "_" ++ toString j :=
    path_numbers ["stateful", "alu"] i j
  rw [text, hpath, Plan.statefulName]
  simp only [String.append_assoc]

theorem text_outputMux : (outputMux i j).text p.shape.sketchName = p.outputMux i j := by
  have hpath : path (outputMux i j).words = "_output_mux_phv_" ++ toString i ++ "_" ++ toString j :=
    path_numbers ["output", "mux", "phv"] i j
  rw [text, hpath, Plan.outputMux]
  simp only [String.append_assoc]

theorem text_fieldMux : (fieldMux i j k).text p.shape.sketchName =
    p.statelessName i j ++ "_operand_mux_" ++ toString k := by
  have hpath : path (fieldMux i j k).words = _ := path_operandMux (stateless i j).words k
  rw [← text_stateless, text, text, hpath]
  simp only [String.append_assoc]

theorem text_operandMux : (operandMux i j k).text p.shape.sketchName = p.operandMux i j k := by
  have hpath : path (operandMux i j k).words = _ := path_operandMux (stateful i j).words k
  rw [Plan.operandMux, ← text_stateful, text, text, hpath]
  simp only [String.append_assoc]

theorem text_helper (f : Family) : (helper i j f k).text p.shape.sketchName = f.helper (p.statefulName i j) k := by
  have hpath : path (helper i j f k).words = path (stateful i j).words ++ path (f.words ++ [toString k]) := by
    rw [← path_append, ← List.append_assoc]
    rfl
  rw [f.helper_eq_path, ← text_stateful, text, text, hpath, String.append_assoc]

end Text

def stage : FunctionName → Nat
  | operandMux i _ _ | outputMux i _ | fieldMux i _ _ | stateless i _ | helper i _ _ _ | stateful i _ => i

def place : FunctionName → Nat
  | operandMux _ l _ | outputMux _ l | fieldMux _ l _ | stateless _ l | helper _ l _ _ | stateful _ l => l

end FunctionName

/-! ### Each name once -/

/-- The functions for a stateless ALU: its multiplexers and itself. -/
def statelessNames (muxes i j : Nat) : List FunctionName :=
  (List.range muxes).map (.fieldMux i j) ++ [.stateless i j]

/-- The functions for a stateful ALU: its helpers, by family and number, and itself. -/
def statefulNames (helpers : List (Family × Nat)) (i l : Nat) : List FunctionName :=
  helpers.map (fun h => .helper i l h.1 h.2) ++ [.stateful i l]

namespace Plan

def operandNames (p : Plan) : List FunctionName :=
  (upTo p.shape.stages).flatMap fun i => p.units.flatMap fun l =>
    (List.range p.operands).map (.operandMux i l)

/-- The multiplexers behind the stages. -/
def outputNames (p : Plan) : List FunctionName :=
  if p.shape.tofino then []
  else (upTo p.shape.stages).flatMap fun i => (upTo p.shape.containers).map (.outputMux i)

def stageNames (p : Plan) (helpers : List (Family × Nat)) (i : Nat) : List FunctionName :=
  (upTo p.shape.alus).flatMap (statelessNames p.statelessMuxes i) ++ p.units.flatMap (statefulNames helpers i)

def functionNames (p : Plan) (helpers : List (Family × Nat)) : List FunctionName :=
  p.operandNames ++ p.outputNames ++ (upTo p.shape.stages).flatMap (p.stageNames helpers)

end Plan

variable {α β : Type} {helpers : List (Family × Nat)} {n : FunctionName}

/-- Lists whose entries tell what they belong to have nothing in common. -/
theorem nodup_flatMap_of_tag {l : List α} {f : α → List β} (tag : β → α) (hl : l.Nodup)
    (hf : ∀ x, (f x).Nodup) (htag : ∀ x, ∀ y ∈ f x, tag y = x) : (l.flatMap f).Nodup := by
  refine List.nodup_flatMap.2 ⟨fun x _ => hf x, hl.imp fun {x x'} hne y hy hy' => hne ?_⟩
  rw [← htag x y hy, htag x' y hy']

/-- Pairs of entries of two lists, under something that tells them apart. -/
theorem nodup_pairs {γ : Type} {f : α → β → γ} {as : List α} {bs : List β}
    (hf : ∀ a b a' b', f a b = f a' b' → a = a' ∧ b = b') (has : as.Nodup) (hbs : bs.Nodup) :
    (as.flatMap fun a => bs.map (f a)).Nodup := by
  refine List.nodup_flatMap.2 ⟨fun a _ => hbs.map fun b b' h => (hf a b a b' h).2, ?_⟩
  refine has.imp fun {a a'} hne st hst hst' => ?_
  obtain ⟨b, -, rfl⟩ := List.mem_map.1 hst
  obtain ⟨b', -, heq⟩ := List.mem_map.1 hst'
  exact hne (hf a' b' a b heq).1.symm

theorem nodup_upTo (n : Int) : (upTo n).Nodup :=
  List.nodup_range

theorem Plan.nodup_units (p : Plan) : p.units.Nodup := by
  unfold Plan.units
  split <;> exact nodup_upTo _

theorem nodup_map_concat {l : List α} {f : α → β} {b : β} (hl : l.Nodup)
    (hf : ∀ x y, f x = f y → x = y) (hb : ∀ x, f x ≠ b) : (l.map f ++ [b]).Nodup := by
  refine List.nodup_append.2 ⟨hl.map fun x y => hf x y, List.nodup_singleton b, ?_⟩
  intro y hy b' hb' heq
  obtain ⟨x, -, rfl⟩ := List.mem_map.1 hy
  exact hb x (heq.trans (List.mem_singleton.1 hb'))

theorem nodup_statelessNames (muxes i j : Nat) : (statelessNames muxes i j).Nodup :=
  nodup_map_concat List.nodup_range (fun _ _ h => by cases h; rfl) fun _ h => nomatch h

theorem nodup_statefulNames (h : helpers.Nodup) (i l : Nat) :
    (statefulNames helpers i l).Nodup := by
  refine nodup_map_concat h (fun x y heq => ?_) fun _ h => nomatch h
  injection heq with _ _ hfamily hnumber
  exact Prod.ext hfamily hnumber

theorem mem_statelessNames {muxes i j : Nat} (h : n ∈ statelessNames muxes i j) :
    n = .stateless i j ∨ ∃ k, n = .fieldMux i j k := by
  rcases List.mem_append.1 h with h | h
  · obtain ⟨k, -, rfl⟩ := List.mem_map.1 h
    exact .inr ⟨k, rfl⟩
  · exact .inl (List.mem_singleton.1 h)

theorem mem_statefulNames {i l : Nat}
    (h : n ∈ statefulNames helpers i l) : n = .stateful i l ∨ ∃ f k, n = .helper i l f k := by
  rcases List.mem_append.1 h with h | h
  · obtain ⟨k, -, rfl⟩ := List.mem_map.1 h
    exact .inr ⟨k.1, k.2, rfl⟩
  · exact .inl (List.mem_singleton.1 h)

namespace Plan

variable {p : Plan} {helpers : List (Family × Nat)} {n : FunctionName}

theorem mem_operandNames : n ∈ p.operandNames ↔
    ∃ i ∈ upTo p.shape.stages, ∃ l ∈ p.units, ∃ k < p.operands, .operandMux i l k = n := by
  simp [operandNames]

theorem mem_outputNames (h : n ∈ p.outputNames) : ∃ i c, n = .outputMux i c := by
  unfold outputNames at h
  split at h
  · exact nomatch h
  · obtain ⟨i, -, h⟩ := List.mem_flatMap.1 h
    obtain ⟨c, -, rfl⟩ := List.mem_map.1 h
    exact ⟨i, c, rfl⟩

theorem nodup_operandNames (p : Plan) : p.operandNames.Nodup := by
  refine nodup_flatMap_of_tag FunctionName.stage (nodup_upTo _) (fun i => ?_) fun i n hn => ?_
  · refine nodup_flatMap_of_tag FunctionName.place p.nodup_units (fun l => ?_) fun l n hn => ?_
    · exact List.nodup_range.map fun _ _ h => by cases h; rfl
    · obtain ⟨k, -, rfl⟩ := List.mem_map.1 hn
      rfl
  · obtain ⟨l, -, hn⟩ := List.mem_flatMap.1 hn
    obtain ⟨k, -, rfl⟩ := List.mem_map.1 hn
    rfl

theorem nodup_outputNames (p : Plan) : p.outputNames.Nodup := by
  unfold outputNames
  split
  · exact List.nodup_nil
  · refine nodup_flatMap_of_tag FunctionName.stage (nodup_upTo _) (fun i => ?_) fun i n hn => ?_
    · exact (nodup_upTo _).map fun _ _ h => by cases h; rfl
    · obtain ⟨k, -, rfl⟩ := List.mem_map.1 hn
      rfl

/-- The functions for the ALUs of a stage are of its kinds and belong to it. -/
theorem mem_stageNames {i : Nat} (h : n ∈ p.stageNames helpers i) :
    (∃ j, n = .stateless i j ∨ ∃ k, n = .fieldMux i j k) ∨
      ∃ l, n = .stateful i l ∨ ∃ f k, n = .helper i l f k := by
  rcases List.mem_append.1 h with h | h
  · obtain ⟨j, -, h⟩ := List.mem_flatMap.1 h
    exact .inl ⟨j, mem_statelessNames h⟩
  · obtain ⟨l, -, h⟩ := List.mem_flatMap.1 h
    exact .inr ⟨l, mem_statefulNames h⟩

theorem nodup_stageNames (hhelpers : helpers.Nodup) (i : Nat) : (p.stageNames helpers i).Nodup := by
  refine List.nodup_append.2 ⟨?_, ?_, ?_⟩
  · refine nodup_flatMap_of_tag FunctionName.place (nodup_upTo _) (nodup_statelessNames _ i)
      fun j n hn => ?_
    rcases mem_statelessNames hn with rfl | ⟨k, rfl⟩ <;> rfl
  · refine nodup_flatMap_of_tag FunctionName.place p.nodup_units (nodup_statefulNames hhelpers i)
      fun l n hn => ?_
    rcases mem_statefulNames hn with rfl | ⟨f, k, rfl⟩ <;> rfl
  · -- What is written for a stateless ALU is of other kinds than what is written for a stateful one.
    intro a ha b hb heq
    obtain ⟨j, -, ha⟩ := List.mem_flatMap.1 ha
    obtain ⟨l, -, hb⟩ := List.mem_flatMap.1 hb
    rcases mem_statelessNames ha with rfl | ⟨k, rfl⟩ <;> rcases mem_statefulNames hb with rfl | ⟨f, k', rfl⟩ <;>
      cases heq

theorem nodup_functionNames (p : Plan) (hhelpers : helpers.Nodup) : (p.functionNames helpers).Nodup := by
  -- The multiplexers in front of and behind the ALUs are of kinds of their own.
  have hkinds : ∀ n ∈ (upTo p.shape.stages).flatMap (p.stageNames helpers),
      (∀ i l k, n ≠ .operandMux i l k) ∧ ∀ i c, n ≠ .outputMux i c := by
    intro n hn
    obtain ⟨i, -, hn⟩ := List.mem_flatMap.1 hn
    rcases mem_stageNames hn with ⟨j, rfl | ⟨k, rfl⟩⟩ | ⟨l, rfl | ⟨f, k, rfl⟩⟩ <;> simp
  refine List.nodup_append.2 ⟨List.nodup_append.2 ⟨p.nodup_operandNames, p.nodup_outputNames, ?_⟩, ?_, ?_⟩
  · intro a ha b hb heq
    obtain ⟨i, -, l, -, k, -, rfl⟩ := mem_operandNames.1 ha
    obtain ⟨i', c, rfl⟩ := mem_outputNames hb
    cases heq
  · refine nodup_flatMap_of_tag FunctionName.stage (nodup_upTo _) (nodup_stageNames hhelpers) fun i n hn => ?_
    rcases mem_stageNames hn with ⟨j, rfl | ⟨k, rfl⟩⟩ | ⟨l, rfl | ⟨f, k, rfl⟩⟩ <;> rfl
  · rintro a ha b hb rfl
    rcases List.mem_append.1 ha with ha | ha
    · obtain ⟨i, -, l, -, k, -, rfl⟩ := mem_operandNames.1 ha
      exact (hkinds _ hb).1 i l k rfl
    · obtain ⟨i, c, rfl⟩ := mem_outputNames ha
      exact (hkinds _ hb).2 i c rfl

end Plan

end SwitchSynth.Sketch
