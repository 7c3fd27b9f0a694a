import Mathlib.Data.Finset.Card
import Mathlib.Data.List.ProdSigma
import Mathlib.Logic.Relator
import SwitchSynth.Proofs.Predicates
import SwitchSynth.Proofs.Sketch.AluLimit
import SwitchSynth.Proofs.Sketch.HoleNames

/-!
# What the allocations assert

The constraints of an allocation bound sums of bits. Read as arithmetic (`Constraint.truth?_sum`), they say which of the
bits may be set together. Each allocation is a relation between two kinds of things, with a bit for each pair.
-/

namespace SwitchSynth.Sketch

open Reading (IsName Reads truth? chars chars_append)

variable {hole : String → Int}

/-! ### Constraints as predicates -/

namespace Spacing

/-- What stands in front of a term. -/
def lead : Spacing → String
  | leading => " "
  | tight | wide => ""

/-- The plus sign with the blanks around it. -/
def plus : Spacing → String
  | leading | tight => "+"
  | wide => " + "

theorem term_eq (s : Spacing) (n : String) : s.term n = s.lead ++ n ++ s.plus := by
  cases s <;> simp [term, lead, plus]

theorem reads_lead {n : String} (hn : IsName n) (s : Spacing) : Reads hole 6 (chars (s.lead ++ n)) (hole n) := by
  have hname : Reads hole 6 (chars n) (hole n) := (Reading.reads_name hn).mono (by decide)
  cases s with
  | leading => simpa [lead, chars_append] using hname.padLeft
  | tight | wide => simpa [lead] using hname

theorem apart_lead {n : String} (hn : IsName n) (s : Spacing) : Reading.Apart .sign (chars (s.lead ++ n)) := by
  cases s with
  | leading => exact ⟨.char ' ', chars n, chars_append .., by rintro c ⟨⟩; decide⟩
  | tight | wide => simpa [lead] using hn.isWord.apart

theorem reads_plus {l r : List Reading.Symbol} {a b : Int} (s : Spacing) (hl : Reads hole 5 l a) (hr : Reads hole 6 r b)
    (hapart : Reading.Apart .sign r) : Reads hole 5 (l ++ (chars s.plus ++ r)) (a + b) := by
  cases s with
  | leading | tight => exact (Reading.introduces_joined (s := "+") (o := .add) rfl hapart).reads hl hr
  | wide => exact Reading.reads_spaced (Reading.spells_sign (s := "+") (o := .add) rfl) hl hr

theorem reads_terms {l : List Reading.Symbol} {a : Int} {names : List String} (s : Spacing) (hl : Reads hole 5 l a)
    (hnames : ∀ n ∈ names, IsName n) :
    Reads hole 5 (l ++ (chars s.plus ++ chars (String.join (names.map s.term) ++ "0"))) (a + (names.map hole).sum) := by
  induction names generalizing l a with
  | nil =>
    have htext : String.join ([].map s.term) ++ "0" = toString (0 : Int) := by rw [List.map_nil]; decide
    rw [htext]
    exact s.reads_plus hl (Reading.reads_toString 0) (Reading.isNumeral_toString 0).isWord.apart
  | cons n names ih =>
    obtain ⟨hn, hnames⟩ := List.forall_mem_cons.1 hnames
    -- What has been read so far takes in the first of the terms.
    have hreads := ih (s.reads_plus hl (s.reads_lead hn) (s.apart_lead hn)) hnames
    simpa [term_eq, chars_append, Int.add_assoc] using hreads

end Spacing

namespace Constraint

variable {names : List String}

theorem reads_sum (hnames : ∀ n ∈ names, IsName n) (s : Spacing) :
    Reads hole 5 (chars (String.join (names.map s.term) ++ "0")) (names.map hole).sum := by
  cases names with
  | nil => exact (Reading.reads_toString 0).mono (by decide)
  | cons n names =>
    obtain ⟨hn, hnames⟩ := List.forall_mem_cons.1 hnames
    have hfirst : Reads hole 6 (chars (s.lead ++ n)) (hole n) := s.reads_lead hn
    have hreads := s.reads_terms (hfirst.mono (by decide)) hnames
    simpa [Spacing.term_eq, chars_append] using hreads

def sumText (s : Spacing) (names : List String) : String :=
  "(" ++ (String.join (names.map s.term) ++ "0") ++ ")" ++ " "

theorem text_sum (s : Spacing) (names : List String) (sign bound : String) :
    "(" ++ String.join (names.map s.term) ++ "0)" ++ (" " ++ sign ++ " " ++ bound) =
      sumText s names ++ sign ++ (" " ++ bound) := by
  rw [sumText, show "0)" = "0" ++ ")" by decide]
  simp only [String.append_assoc]

theorem isComparison_sumText (hnames : ∀ n ∈ names, IsName n) (s : Spacing) :
    ∀ c ∈ (sumText s names).toList, Reading.isComparison c = false := by
  have hsigns (text : String) (h : text.toList.all fun c => !Reading.isComparison c) :
      ∀ c ∈ text.toList, Reading.isComparison c = false := by simpa using h
  have hterm {n : String} (hn : n ∈ names) : ∀ c ∈ (s.term n).toList, Reading.isComparison c = false := by
    rw [Spacing.term_eq, String.toList_append, String.toList_append, List.forall_mem_append, List.forall_mem_append]
    refine ⟨⟨hsigns _ (by cases s <;> decide), fun c hc => ?_⟩, hsigns _ (by cases s <;> decide)⟩
    exact Reading.isComparison_of_word ((hnames n hn).isWord.kind_eq c hc)
  simp only [sumText, String.toList_append, List.forall_mem_append, String.toList_join]
  refine ⟨⟨⟨hsigns "(" (by decide), fun c hc => ?_, hsigns "0" (by decide)⟩, hsigns ")" (by decide)⟩,
    hsigns " " (by decide)⟩
  obtain ⟨n, hn, hc⟩ := List.mem_flatMap.1 hc
  obtain ⟨n, hname, rfl⟩ := List.mem_map.1 hn
  exact hterm hname c hc

theorem truth?_sum (hnames : ∀ n ∈ names, IsName n) (s : Spacing) (b : Bound) :
    truth? hole (sum s names b).text = some (decide ((sum s names b).Holds hole)) := by
  have hleft := isComparison_sumText hnames s
  have hsum : Reading.value? hole (chars (sumText s names)) = some (names.map hole).sum := by
    rw [sumText, chars_append, chars_append, chars_append]
    exact (Reading.reads_group (reads_sum hnames s) (by decide)).padRight.value?_eq (by decide)
  have hbound (n : Int) : Reading.value? hole (chars (" " ++ toString n)) = some n :=
    chars_append .. ▸ (Reading.reads_toString n).padLeft.value?_eq (by decide)
  cases b with
  | atMost n =>
    rw [text, Bound.text, show " <= " = " " ++ "<=" ++ " " by decide, text_sum,
      Reading.truth?_atMost hleft hsum (hbound n)]
    rfl
  | exactly n =>
    rw [text, Bound.text, show " == " = " " ++ "==" ++ " " by decide, text_sum,
      Reading.truth?_equal hleft hsum (hbound n)]
    rfl

end Constraint

/-! ### Names of bits -/

section Names

variable {s : Shape}

theorem isName_activeBit (h : IsName s.sketchName) (i k : Nat) : IsName (Allocation.activeBit s i k) := by
  have hstem : Reading.Wordy (s.sketchName ++ "_salu_config_") := .append h.isWord.kind_eq (Reading.kind_eq_of_all rfl)
  exact Reading.isName_of_mem ((hstem.append (Reading.wordy_toString i)).number k) (by simp [Allocation.activeBit])

theorem isName_groupBit (h : IsName s.sketchName) (i j k : Nat) : IsName (Allocation.groupBit s i j k) :=
  Reading.isName_of_mem (.number (isName_activeBit h i j).isWord.kind_eq k) (by simp [Allocation.groupBit])

theorem isName_fieldConfig (k j : Nat) : IsName (Plan.fieldConfig k j) := by
  have hstem : Reading.Wordy "phv_config_" := Reading.kind_eq_of_all rfl
  exact Reading.isName_of_mem ((hstem.append (Reading.wordy_toString k)).number j) (by simp [Plan.fieldConfig])

end Names

/-! ### Bits that are set together -/

section Bits

variable {α : Type} {bit : α → Int} {xs : List α} (hbits : ∀ x ∈ xs, bit x = 0 ∨ bit x = 1) (hxs : xs.Nodup)

include hbits hxs

theorem sum_le_one_iff : (xs.map bit).sum ≤ 1 ↔ ∀ x ∈ xs, ∀ y ∈ xs, bit x = 1 → bit y = 1 → x = y := by
  classical
  have hcard := List.toFinset_card_of_nodup (hxs.filter fun x => bit x = 1)
  rw [sum_eq_countP hbits, List.countP_eq_length_filter, ← hcard]
  norm_cast
  rw [Finset.card_le_one]
  simp only [List.mem_toFinset, List.mem_filter, decide_eq_true_eq]
  grind

end Bits

/-! ### The allocations -/

namespace Constraint

def Sums (P : String → Prop) (c : Constraint) : Prop :=
  ∃ s names b, c = .sum s names b ∧ ∀ n ∈ names, P n

open Relator (LeftUnique RightUnique)

variable {α β : Type} {name : α → β → String} {as : List α} {bs : List β} {z : Spacing} {R : α → β → Prop}
  (hR : ∀ a b, R a b ↔ a ∈ as ∧ b ∈ bs ∧ hole (name a b) = 1)
  (hbits : ∀ a ∈ as, ∀ b ∈ bs, hole (name a b) = 0 ∨ hole (name a b) = 1) (hbs : bs.Nodup)

include hR hbits hbs

theorem atMostOne_iff_rightUnique :
    (∀ a ∈ as, (sum z (bs.map (name a)) (.atMost 1)).Holds hole) ↔ RightUnique R := by
  have hrow {a : α} (ha : a ∈ as) : (sum z (bs.map (name a)) (.atMost 1)).Holds hole ↔
      ∀ b ∈ bs, ∀ c ∈ bs, hole (name a b) = 1 → hole (name a c) = 1 → b = c := by
    rw [← sum_le_one_iff (hbits a ha) hbs, Holds, Bound.Holds, List.map_map]
    rfl
  simp only [RightUnique, hR]
  exact ⟨fun h a b c hb hc => (hrow hb.1).1 (h a hb.1) b hb.2.1 c hc.2.1 hb.2.2 hc.2.2,
    fun h a ha => (hrow ha).2 fun b hb c hc hone hone' => h ⟨ha, hb, hone⟩ ⟨ha, hc, hone'⟩⟩

omit hR in
theorem atMostOne_iff_leftUnique {R : β → α → Prop} (hR : ∀ a b, R b a ↔ a ∈ as ∧ b ∈ bs ∧ hole (name a b) = 1) :
    (∀ a ∈ as, (sum z (bs.map (name a)) (.atMost 1)).Holds hole) ↔ LeftUnique R :=
  (atMostOne_iff_rightUnique hR hbits hbs).trans ⟨fun h _ _ _ ha hb => h ha hb, fun h _ _ _ ha hb => h ha hb⟩

theorem exactlyOne_iff : (∀ a ∈ as, (sum z (bs.map (name a)) (.exactly 1)).Holds hole) ↔
    (∀ a ∈ as, ∃ b, R a b) ∧ RightUnique R := by
  rw [← atMostOne_iff_rightUnique hR hbits hbs (z := z), ← forall₂_and]
  refine forall₂_congr fun a ha => ?_
  have hsome : 0 < (bs.map fun b => hole (name a b)).sum ↔ ∃ b, R a b := by
    rw [sum_eq_countP (hbits a ha), Int.natCast_pos, List.countP_pos_iff]
    simp [hR, ha]
  simp only [Holds, Bound.Holds, List.map_map, Function.comp_def, ← hsome]
  omega

end Constraint

namespace Allocation

open Relator (RightUnique BiUnique)

def ActiveIn (s : Shape) (hole : String → Int) (group stage : Nat) : Prop :=
  group ∈ upTo s.groups ∧ stage ∈ upTo s.stages ∧ hole (activeBit s stage group) = 1

/-- A state group is given to the stateful ALU of a stage and a container. -/
def GivenTo (s : Shape) (hole : String → Int) (group : Nat) (alu : Nat × Nat) : Prop :=
  group ∈ upTo s.groups ∧ alu ∈ upTo s.stages ×ˢ upTo s.containers ∧ hole (groupBit s group alu.1 alu.2) = 1

def FieldIn (s : Shape) (hole : String → Int) (field : Int) (container : Nat) : Prop :=
  field ∈ s.inputFields ∧ container ∈ upTo s.containers ∧ hole (Plan.fieldConfig field container) = 1

variable {s : Shape} {P : String → Prop}

/-- No stage has more active groups than ALUs, and no group is active in two stages. -/
theorem canonical_holds_iff (hbits : ∀ x ∈ (canonical s).bits, hole x = 0 ∨ hole x = 1) :
    (∀ c ∈ (canonical s).constraints, c.Holds hole) ↔
      (∀ i ∈ upTo s.stages, ((upTo s.groups).countP fun k => hole (activeBit s i k) = 1 : Nat) ≤ s.alus) ∧
      RightUnique (ActiveIn s hole) := by
  have hbit {i k : Nat} (hi : i ∈ upTo s.stages) (hk : k ∈ upTo s.groups) :
      hole (activeBit s i k) = 0 ∨ hole (activeBit s i k) = 1 :=
    hbits _ (List.mem_flatMap.2 ⟨i, hi, List.mem_map_of_mem hk⟩)
  simp only [canonical, List.forall_mem_append, List.forall_mem_map]
  refine and_congr (forall₂_congr fun i hi => ?_)
    (Constraint.atMostOne_iff_rightUnique (fun _ _ => Iff.rfl) (fun k hk i hi => hbit hi hk) (nodup_upTo _))
  rw [← sum_eq_countP fun k hk => hbit hi hk, Constraint.Holds, Bound.Holds, List.map_map]
  rfl

theorem flatMap_map_eq_product {α β γ : Type} (f : α → β → γ) (xs : List α) (ys : List β) :
    (xs.flatMap fun x => ys.map (f x)) = (xs ×ˢ ys).map fun p => f p.1 p.2 := by
  simp only [SProd.sprod, List.product, List.map_flatMap, List.map_map]
  rfl

theorem ofGroups_holds_iff (hbits : ∀ x ∈ (ofGroups s).bits, hole x = 0 ∨ hole x = 1) :
    (∀ c ∈ (ofGroups s).constraints, c.Holds hole) ↔ BiUnique (GivenTo s hole) := by
  have hbit : ∀ i ∈ upTo s.groups, ∀ p ∈ upTo s.stages ×ˢ upTo s.containers,
      hole (groupBit s i p.1 p.2) = 0 ∨ hole (groupBit s i p.1 p.2) = 1 := by
    intro i hi p hp
    refine hbits _ ?_
    simp only [ofGroups, flatMap_map_eq_product]
    exact List.mem_map.2 ⟨(i, p), List.mem_product.2 ⟨hi, hp⟩, rfl⟩
  simp only [ofGroups, flatMap_map_eq_product, List.forall_mem_append, List.forall_mem_map, BiUnique]
  rw [and_comm]
  exact and_congr
    (Constraint.atMostOne_iff_leftUnique (fun p hp i hi => hbit i hi p hp) (nodup_upTo _) fun p i => and_left_comm)
    (Constraint.atMostOne_iff_rightUnique (fun _ _ => Iff.rfl) hbit ((nodup_upTo _).product (nodup_upTo _)))

/-- The fields that are read are given to containers by an injective map. -/
theorem ofFields_holds_iff (hdistinct : s.inputFields.Nodup) (hbelow : ∀ k ∈ s.inputFields, 0 ≤ k ∧ k < s.fields)
    (hbits : ∀ x ∈ (ofFields s).bits, hole x = 0 ∨ hole x = 1) :
    (∀ c ∈ (ofFields s).constraints, c.Holds hole) ↔
      (∀ k ∈ s.inputFields, ∃ j, FieldIn s hole k j) ∧ BiUnique (FieldIn s hole) := by
  have hbit : ∀ k ∈ s.inputFields, ∀ j ∈ upTo s.containers,
      hole (Plan.fieldConfig k j) = 0 ∨ hole (Plan.fieldConfig k j) = 1 := by
    intro k hk j hj
    obtain ⟨hnonneg, hlt⟩ := hbelow k hk
    refine hbits _ (List.mem_flatMap.2 ⟨j, hj, List.mem_map.2 ⟨k.toNat, List.mem_range.2 (by omega), ?_⟩⟩)
    rw [Int.toNat_of_nonneg hnonneg]
  simp only [ofFields, List.forall_mem_append, List.forall_mem_map, BiUnique]
  rw [and_left_comm]
  exact and_congr
    (Constraint.atMostOne_iff_leftUnique (fun j hj k hk => hbit k hk j hj) hdistinct fun j k => and_left_comm)
    (Constraint.exactlyOne_iff (fun _ _ => Iff.rfl) hbit (nodup_upTo _))

theorem canonical_sums (hP : ∀ i k, P (activeBit s i k)) : ∀ c ∈ (canonical s).constraints, c.Sums P := by
  simp only [canonical, List.forall_mem_append, List.forall_mem_map]
  exact ⟨fun i _ => ⟨_, _, _, rfl, by simp [hP]⟩, fun l _ => ⟨_, _, _, rfl, by simp [hP]⟩⟩

theorem ofGroups_sums (hP : ∀ i j k, P (groupBit s i j k)) : ∀ c ∈ (ofGroups s).constraints, c.Sums P := by
  simp only [ofGroups, flatMap_map_eq_product, List.forall_mem_append, List.forall_mem_map]
  exact ⟨fun i _ => ⟨_, _, _, rfl, List.forall_mem_map.2 fun p _ => hP ..⟩, fun p _ => ⟨_, _, _, rfl, by simp [hP]⟩⟩

theorem ofFields_sums (hP : ∀ k ∈ s.inputFields, ∀ j, P (Plan.fieldConfig k j)) :
    ∀ c ∈ (ofFields s).constraints, c.Sums P := by
  simp only [ofFields, List.forall_mem_append, List.forall_mem_map]
  exact ⟨fun j _ => ⟨_, _, _, rfl, by simpa using fun k hk => hP k hk j⟩,
    fun k hk => ⟨_, _, _, rfl, by simpa using fun j _ => hP k hk j⟩⟩

theorem nodup_canonical (s : Shape) : (canonical s).bits.Nodup := by
  refine nodup_pairs (fun i k i' k' h => ?_) (nodup_upTo _) (nodup_upTo _)
  rw [← HoleName.text_active, ← HoleName.text_active] at h
  cases HoleName.text_inj h
  exact ⟨rfl, rfl⟩

theorem nodup_ofGroups (s : Shape) : (ofGroups s).bits.Nodup := by
  simp only [ofGroups, flatMap_map_eq_product]
  refine ((nodup_upTo _).product ((nodup_upTo _).product (nodup_upTo _))).map fun p q h => ?_
  rw [← HoleName.text_served, ← HoleName.text_served] at h
  injection HoleName.text_inj h with hgroup hstage hcontainer
  exact Prod.ext hgroup (Prod.ext hstage hcontainer)

theorem nodup_ofFields (s : Shape) : (ofFields s).bits.Nodup := by
  refine nodup_pairs (fun j k j' k' h => ?_) (nodup_upTo _) (nodup_upTo _)
  rw [← HoleName.text_field _ _ s.sketchName, ← HoleName.text_field _ _ s.sketchName] at h
  cases HoleName.text_inj h
  exact ⟨rfl, rfl⟩

end Allocation

namespace Generator

open Allocation (ActiveIn GivenTo FieldIn activeBit)

variable {g : Generator} {readable : Prop} {meaning : (String → Int) → Prop}

/-- A step of a generator adds holes and constraints, and these say what is meant. Whenever the names of the holes can be
read, each constraint is true as a predicate exactly if it holds; and for all values of the holes, the constraints hold
together exactly if what is meant is so. -/
def Asserts (step : Generate Unit) (files : Files) (g : Generator) (readable : Prop)
    (meaning : (String → Int) → Prop) : Prop :=
  ∃ holes constraints,
    EndsIn step files g () { g with holes := g.holes ++ holes, constraints := g.constraints ++ constraints } ∧
    (holes.map Hole.name).Nodup ∧ ∀ hole : String → Int,
      (readable → ∀ c ∈ constraints, truth? hole c.text = some (decide (c.Holds hole))) ∧
      ((∀ h ∈ holes, h.Admits (hole h.name)) → ((∀ c ∈ constraints, c.Holds hole) ↔ meaning hole))

theorem asserts_allocation (files : Files) (allocate : Shape → Allocation) (hnodup : (allocate g.shape).bits.Nodup)
    (hsums : readable → ∀ c ∈ (allocate g.shape).constraints, c.Sums IsName)
    (hiff : ∀ hole : String → Int, (∀ x ∈ (allocate g.shape).bits, hole x = 0 ∨ hole x = 1) →
      ((∀ c ∈ (allocate g.shape).constraints, c.Holds hole) ↔ meaning hole)) :
    Asserts (do addAllocation (allocate (← get).shape)) files g readable meaning := by
  generalize ha : allocate g.shape = a at hnodup hsums hiff
  refine ⟨a.bits.map fun name => ⟨name, 1⟩, a.constraints, ?_, ?_, fun hole => ⟨?_, ?_⟩⟩
  · subst ha
    exact endsIn_bind.2 ⟨g, g, endsIn_get.2 ⟨rfl, rfl⟩, endsIn_modify.2 rfl⟩
  · simpa [Function.comp_def] using hnodup
  · intro hreadable c hc
    obtain ⟨s, names, b, rfl, hnames⟩ := hsums hreadable c hc
    exact Constraint.truth?_sum hnames s b
  · intro hvalues
    refine hiff hole fun x hx => ?_
    obtain ⟨hlow, hhigh⟩ := hvalues _ (List.mem_map_of_mem hx)
    rw [show (⟨x, 1⟩ : Hole).greatest = 1 from rfl] at hhigh
    dsimp only at hlow hhigh
    omega

/-- The asserts of the allocators say what they are meant to say: that no stage has more active groups than ALUs and no
group is active in two stages; that the bits give groups to stateful ALUs as a partial injective map does; and that they
give the fields that are read to containers as a total injective map does. -/
theorem allocators_assert_placements (files : Files) (g : Generator) (hdistinct : g.shape.inputFields.Nodup)
    (hbelow : ∀ k ∈ g.shape.inputFields, 0 ≤ k ∧ k < g.shape.fields) :
    Asserts stateAllocatorCanonical files g (IsName g.shape.sketchName) (fun hole =>
      (∀ i ∈ upTo g.shape.stages,
        ((upTo g.shape.groups).countP fun k => hole (activeBit g.shape i k) = 1 : Nat) ≤ g.shape.alus) ∧
      Relator.RightUnique (ActiveIn g.shape hole)) ∧
    Asserts stateAllocatorSynthesized files g (IsName g.shape.sketchName)
      (fun hole => Relator.BiUnique (GivenTo g.shape hole)) ∧
    Asserts fieldAllocator files g True (fun hole =>
      (∀ k ∈ g.shape.inputFields, ∃ j, FieldIn g.shape hole k j) ∧ Relator.BiUnique (FieldIn g.shape hole)) := by
  have hfields : ∀ k ∈ g.shape.inputFields, ∀ j, IsName (Plan.fieldConfig k j) := fun k hk j => by
    rw [← Int.toNat_of_nonneg (hbelow k hk).1]
    exact isName_fieldConfig _ j
  refine ⟨?_, ?_, ?_⟩
  · exact asserts_allocation files .canonical (Allocation.nodup_canonical _)
      (fun h => Allocation.canonical_sums fun i k => isName_activeBit h i k) fun hole => Allocation.canonical_holds_iff
  · exact asserts_allocation files .ofGroups (Allocation.nodup_ofGroups _)
      (fun h => Allocation.ofGroups_sums fun i j k => isName_groupBit h i j k) fun hole => Allocation.ofGroups_holds_iff
  · exact asserts_allocation files .ofFields (Allocation.nodup_ofFields _)
      (fun _ => Allocation.ofFields_sums hfields) fun hole => Allocation.ofFields_holds_iff hdistinct hbelow

/-- Two of three packet fields are read, the last one first. -/
def twoFields : Generator where
  shape := ⟨"sample", 2, 2, 1, 2, 3, [0], [0], [2, 0], 1, false⟩
  synthesized := true
  statefulFile := "stateful.alu"
  statelessFile := "stateless.alu"
  constants := ⟨["0", "1"], true⟩
  constantBits := 1

theorem two_fields_have_containers_of_their_own :
    twoFields.shape.inputFields.Nodup ∧ (∀ k ∈ twoFields.shape.inputFields, 0 ≤ k ∧ k < twoFields.shape.fields) ∧
      Asserts fieldAllocator .empty twoFields True fun hole =>
        (∀ k ∈ [2, 0], ∃ j, FieldIn twoFields.shape hole k j) ∧ Relator.BiUnique (FieldIn twoFields.shape hole) :=
  ⟨by decide, by decide, (allocators_assert_placements .empty twoFields (by decide) (by decide)).2.2⟩

end Generator

end SwitchSynth.Sketch
