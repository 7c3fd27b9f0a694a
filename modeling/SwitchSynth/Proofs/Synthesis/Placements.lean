import Mathlib.Data.Fintype.Basic
import Mathlib.Data.List.FinRange
import Mathlib.Data.List.Nodup
import SwitchSynth.Proofs.Sketch.Allocations
import SwitchSynth.Proofs.Synthesis.OwnFiles

/-!
# The search by placements

The search for values of the holes is split by the stages that the state groups are placed in. A placement demands of
each hole that activates a group whether it is set, so that what a valuation of these holes says about the groups picks
the placement: there is one where every group is active in one stage, and none otherwise. The results of the jobs are
taken as they come in, and a success among them is found in whichever order that is.
-/

namespace SwitchSynth

open Sketch (upTo Shape)
open Sketch.Allocation (activeBit)

theorem Sketch.mem_upTo {n : Int} {i : Nat} : i ∈ upTo n ↔ i < n.toNat :=
  List.mem_range

namespace Compile

/-! ### Placements -/

variable {n value group stage : Nat} {placement : List Nat} {name : String}

theorem mem_placements {bound : Int} :
    placement ∈ placements bound n ↔ placement.length = n ∧ ∀ stage ∈ placement, stage ∈ upTo bound := by
  induction n generalizing placement with
  | zero =>
    rw [placements, List.mem_singleton]
    constructor
    · rintro rfl
      exact ⟨rfl, fun stage h => absurd h List.not_mem_nil⟩
    · rintro ⟨hlength, -⟩
      exact List.length_eq_zero_iff.1 hlength
  | succ n ih =>
    simp only [placements, List.mem_flatMap, List.mem_map]
    constructor
    · rintro ⟨stage, hstage, rest, hrest, rfl⟩
      obtain ⟨hlength, hall⟩ := ih.1 hrest
      exact ⟨by rw [List.length_cons, hlength], List.forall_mem_cons.2 ⟨hstage, hall⟩⟩
    · rintro ⟨hlength, hall⟩
      cases placement with
      | nil => exact absurd hlength (by simp)
      | cons stage rest =>
        rw [List.forall_mem_cons] at hall
        exact ⟨stage, hall.1, rest, ih.2 ⟨Nat.succ.inj hlength, hall.2⟩, rfl⟩

theorem nodup_placements (bound : Int) (n : Nat) : (placements bound n).Nodup := by
  induction n with
  | zero => exact List.nodup_singleton []
  | succ n ih =>
    rw [placements, List.nodup_flatMap]
    refine ⟨fun stage _ => ih.map fun _ _ h => (List.cons.inj h).2, ?_⟩
    -- Placements that begin with different stages differ.
    refine (Sketch.nodup_upTo bound).imp fun {stage stage'} hne => ?_
    intro placement h h'
    obtain ⟨_, -, rfl⟩ := List.mem_map.1 h
    obtain ⟨_, -, heq⟩ := List.mem_map.1 h'
    exact hne (List.cons.inj heq).1.symm

/-! ### What a placement demands -/

def Equates (hole : String → Int) (constraint : String) : Prop :=
  ∃ (name : String) (value : Nat), constraint = name ++ " == " ++ toString value ∧ hole name = value

theorem equation_inj {name' : String} {value' : Nat}
    (h : name ++ " == " ++ toString value = name' ++ " == " ++ toString value') : name = name' ∧ value = value' := by
  have hchars := congrArg (fun text => text.toList.reverse) h
  simp only [String.toList_append, List.reverse_append] at hchars
  -- From the end, the digits go on up to the space in front of them.
  have hdigits (n : Nat) : ∀ c ∈ (toString n).toList.reverse, c.isDigit = true :=
    fun c hc => Text.isDigit_of_mem_toString (List.mem_reverse.1 hc)
  have hspace (xs : List Char) : ∀ c ∈ (" == ".toList.reverse ++ xs).head?, ¬ c.isDigit = true := by
    intro c hc
    cases hc
    decide
  obtain ⟨hvalue, hrest⟩ :=
    Text.eq_of_append_eq_of_stops (hdigits value) (hdigits value') (hspace _) (hspace _) hchars
  exact ⟨String.toList_inj.1 (List.reverse_inj.1 (List.append_cancel_left hrest)),
    Text.toString_nat_injective (String.toList_inj.1 (List.reverse_inj.1 hvalue))⟩

theorem equates_iff {hole : String → Int} :
    Equates hole (name ++ " == " ++ toString value) ↔ hole name = value := by
  constructor
  · rintro ⟨name', value', heq, hvalue⟩
    obtain ⟨rfl, rfl⟩ := equation_inj heq
    exact hvalue
  · exact fun h => ⟨name, value, rfl, h⟩

theorem reads_equates {hole : String → Int} (hname : Reading.IsName name) :
    ∃ v, Reading.value? hole (Reading.chars (name ++ " == " ++ toString value)) = some v ∧
      (v ≠ 0 ↔ Equates hole (name ++ " == " ++ toString value)) := by
  have hreads := Reading.reads_spaced Reading.spells_eq
    ((Reading.reads_name (σ := hole) hname).mono (by decide)) ((Reading.reads_numeral (Reading.isNumeral_toString value)).mono (by decide))
  have htext : Reading.chars (name ++ " == " ++ toString value) = Reading.chars name ++
      (.char ' ' :: ("==".toList.map .char ++ .char ' ' :: Reading.chars (toString value))) := by
    simp [Reading.chars]
  refine ⟨_, htext ▸ hreads.value?_eq (by decide), ?_⟩
  rw [equates_iff, Reading.Operator.apply, Reading.numeral_toString, ne_eq, Reading.bit_eq_zero, Decidable.not_not]

/-- A valuation of the holes places a state group in a stage, and in no other. -/
def Places (hole : String → Int) (s : Shape) (group stage : Nat) : Prop :=
  ∀ i ∈ upTo s.stages, hole (activeBit s i group) = if i = stage then 1 else 0

theorem demand_eq (s : Shape) (group stage i : Nat) :
    activeBit s i group ++ (if i = stage then " == 1" else " == 0") =
      activeBit s i group ++ " == " ++ toString (if i = stage then 1 else 0 : Nat) := by
  split
  · rw [String.append_assoc]
    rfl
  · rw [String.append_assoc]
    rfl

theorem mem_placementConstraints {s : Shape} {constraint : String} :
    constraint ∈ placementConstraints s placement ↔ ∃ group stage, placement[group]? = some stage ∧
      ∃ i ∈ upTo s.stages,
        constraint = activeBit s i group ++ " == " ++ toString (if i = stage then 1 else 0 : Nat) := by
  simp only [placementConstraints, List.mem_flatMap, List.mem_map, demand_eq, Prod.exists,
    List.mem_zipIdx_iff_getElem?]
  constructor
  · rintro ⟨stage, group, hstage, i, hi, rfl⟩
    exact ⟨group, stage, hstage, i, hi, rfl⟩
  · rintro ⟨group, stage, hstage, i, hi, rfl⟩
    exact ⟨stage, group, hstage, i, hi, rfl⟩

theorem placementConstraints_hold_iff {hole : String → Int} {s : Shape} :
    (∀ constraint ∈ placementConstraints s placement, Equates hole constraint) ↔
      ∀ group stage, placement[group]? = some stage → Places hole s group stage := by
  have hvalue (i stage : Nat) : ((if i = stage then 1 else 0 : Nat) : Int) = if i = stage then 1 else 0 := by
    split <;> rfl
  constructor
  · intro h group stage hstage i hi
    rw [← hvalue, ← equates_iff]
    exact h _ (mem_placementConstraints.2 ⟨group, stage, hstage, i, hi, rfl⟩)
  · intro h constraint hmem
    obtain ⟨group, stage, hstage, i, hi, rfl⟩ := mem_placementConstraints.1 hmem
    rw [equates_iff, hvalue]
    exact h group stage hstage i hi

theorem places_iff {hole : String → Int} {s : Shape}
    (hbits : ∀ i ∈ upTo s.stages, hole (activeBit s i group) = 0 ∨ hole (activeBit s i group) = 1) :
    Places hole s group stage ↔ ∀ i ∈ upTo s.stages, hole (activeBit s i group) = 1 ↔ i = stage := by
  constructor
  · intro h i hi
    rw [h i hi]
    split <;> simp [*]
  · intro h i hi
    split
    · next heq => exact (h i hi).2 heq
    · next hne => exact (hbits i hi).resolve_right fun hone => hne ((h i hi).1 hone)

/-- A state group is active in exactly one stage. -/
def ActiveOnce (hole : String → Int) (s : Shape) (group : Nat) : Prop :=
  ∃! i, i ∈ upTo s.stages ∧ hole (activeBit s i group) = 1

variable {hole : String → Int} {s : Shape}

theorem ActiveOnce.places (h : ActiveOnce hole s group) (hstage : stage ∈ upTo s.stages)
    (hbits : ∀ i ∈ upTo s.stages, hole (activeBit s i group) = 0 ∨ hole (activeBit s i group) = 1)
    (hactive : hole (activeBit s stage group) = 1) : Places hole s group stage := by
  refine (places_iff hbits).2 fun i hi => ⟨fun hone => h.unique ⟨hi, hone⟩ ⟨hstage, hactive⟩, ?_⟩
  rintro rfl
  exact hactive

theorem activeOnce_of_hold (hmem : placement ∈ placements s.stages s.groups.toNat)
    (hholds : ∀ constraint ∈ placementConstraints s placement, Equates hole constraint)
    (hgroup : group ∈ upTo s.groups) : ActiveOnce hole s group := by
  obtain ⟨hlength, hall⟩ := mem_placements.1 hmem
  have hlt : group < placement.length := by
    rw [hlength]
    exact Sketch.mem_upTo.1 hgroup
  have hplaces := placementConstraints_hold_iff.1 hholds group _ (List.getElem?_eq_getElem hlt)
  have hstage := hall _ (List.getElem_mem hlt)
  refine ⟨placement[group], ⟨hstage, by rw [hplaces _ hstage, if_pos rfl]⟩, ?_⟩
  rintro i ⟨hi, hone⟩
  rw [hplaces i hi] at hone
  by_contra hne
  rw [if_neg hne] at hone
  exact absurd hone (by decide)

theorem placement_unique {placement' : List Nat} (hmem : placement ∈ placements s.stages s.groups.toNat)
    (hmem' : placement' ∈ placements s.stages s.groups.toNat)
    (hholds : ∀ constraint ∈ placementConstraints s placement, Equates hole constraint)
    (hholds' : ∀ constraint ∈ placementConstraints s placement', Equates hole constraint) :
    placement = placement' := by
  obtain ⟨hlength, hall⟩ := mem_placements.1 hmem
  obtain ⟨hlength', -⟩ := mem_placements.1 hmem'
  refine List.ext_getElem (hlength.trans hlength'.symm) fun group hlt hlt' => ?_
  have hplaces := placementConstraints_hold_iff.1 hholds group _ (List.getElem?_eq_getElem hlt)
  have hplaces' := placementConstraints_hold_iff.1 hholds' group _ (List.getElem?_eq_getElem hlt')
  have hstage := hall _ (List.getElem_mem hlt)
  -- The hole of the stage that the first one chooses is set, so that the second one chooses it too.
  have hone := hplaces _ hstage
  rw [if_pos rfl, hplaces' _ hstage] at hone
  by_contra hne
  rw [if_neg hne] at hone
  exact absurd hone (by decide)

def activeStage (hole : String → Int) (s : Shape) (group : Nat) : Nat :=
  ((upTo s.stages).find? fun i => hole (activeBit s i group) = 1).getD 0

theorem activeStage_spec (h : ActiveOnce hole s group) :
    activeStage hole s group ∈ upTo s.stages ∧ hole (activeBit s (activeStage hole s group) group) = 1 := by
  obtain ⟨i, ⟨hi, hone⟩, -⟩ := h
  unfold activeStage
  cases hfind : (upTo s.stages).find? fun i => hole (activeBit s i group) = 1 with
  | none => exact absurd hone (by simpa using List.find?_eq_none.1 hfind i hi)
  | some j => exact ⟨List.mem_of_find?_eq_some hfind, by simpa using List.find?_some hfind⟩

/-- Where every group is active in exactly one stage, the constraints of one placement hold, and of one only. -/
theorem existsUnique_placement
    (hbits : ∀ i ∈ upTo s.stages, ∀ k ∈ upTo s.groups, hole (activeBit s i k) = 0 ∨ hole (activeBit s i k) = 1)
    (hactive : ∀ k ∈ upTo s.groups, ActiveOnce hole s k) :
    ∃! placement, placement ∈ placements s.stages s.groups.toNat ∧
      ∀ constraint ∈ placementConstraints s placement, Equates hole constraint := by
  have hmem : (upTo s.groups).map (activeStage hole s) ∈ placements s.stages s.groups.toNat := by
    refine mem_placements.2 ⟨by rw [List.length_map]; exact List.length_range, fun stage hstage => ?_⟩
    obtain ⟨k, hk, rfl⟩ := List.mem_map.1 hstage
    exact (activeStage_spec (hactive k hk)).1
  have hholds : ∀ constraint ∈ placementConstraints s ((upTo s.groups).map (activeStage hole s)),
      Equates hole constraint := by
    refine placementConstraints_hold_iff.2 fun group stage hstage => ?_
    rw [List.getElem?_map, Option.map_eq_some_iff] at hstage
    obtain ⟨k, hk, rfl⟩ := hstage
    obtain ⟨hlt, hk⟩ := List.getElem?_eq_some_iff.1 hk
    obtain rfl : group = k := List.getElem_range hlt ▸ hk
    have hgroup : group ∈ upTo s.groups := List.mem_range.2 (hlt.trans_eq List.length_range)
    obtain ⟨hstage, hone⟩ := activeStage_spec (hactive group hgroup)
    exact (hactive group hgroup).places hstage (fun i hi => hbits i hi group hgroup) hone
  exact ⟨_, ⟨hmem, hholds⟩, fun placement h => placement_unique h.1 hmem h.2 hholds⟩

/-! ### The jobs of a search -/

def searchJobs (c : Compiler) (base : List String) (testcases : String) : List Job :=
  (placementJobs c base testcases).map fun x => x.2.2

/-- A valuation of the holes satisfies the constraints that a job adds to others. -/
def Job.Admits (base : List String) (hole : String → Int) (j : Job) : Prop :=
  ∀ constraint ∈ j.constraints.drop base.length, Equates hole constraint

variable {c : Compiler} {base : List String} {testcases : String}

theorem length_searchJobs :
    (searchJobs c base testcases).length = (placements c.options.stages c.groups).length := by
  simp only [searchJobs, placementJobs, List.length_map, List.length_zipIdx]

theorem searchJobs_getElem (hn : n < (searchJobs c base testcases).length)
    (hn' : n < (placements c.options.stages c.groups).length) :
    (searchJobs c base testcases)[n] =
      { constraints := base ++ placementConstraints c.generator.shape (placements c.options.stages c.groups)[n]
        testcases := testcases
        file := c.options.sketchName ++ "_" ++ toString (n + 1) ++ "_codegen.sk" } := by
  simp only [searchJobs, placementJobs, List.getElem_map, List.getElem_zipIdx, Nat.zero_add]

theorem admits_getElem_iff (hn : n < (searchJobs c base testcases).length)
    (hn' : n < (placements c.options.stages c.groups).length) :
    ((searchJobs c base testcases)[n]).Admits base hole ↔
      ∀ constraint ∈ placementConstraints c.generator.shape (placements c.options.stages c.groups)[n],
        Equates hole constraint := by
  rw [Job.Admits, searchJobs_getElem hn hn', List.drop_left]

theorem nodup_searchJobs_files : ((searchJobs c base testcases).map Job.file).Nodup := by
  refine List.pairwise_iff_getElem.2 fun m n hm hn hlt heq => ?_
  rw [List.length_map] at hm hn
  rw [List.getElem_map, List.getElem_map, searchJobs_getElem hm (length_searchJobs ▸ hm),
    searchJobs_getElem hn (length_searchJobs ▸ hn)] at heq
  obtain ⟨-, hnumber⟩ := Text.numbered_inj ((String.append_left_inj _).1 heq)
  omega

theorem searchJobs_ne_nil (hstages : 0 < c.options.stages) : searchJobs c base testcases ≠ [] := by
  have hmem : List.replicate c.groups 0 ∈ placements c.options.stages c.groups := by
    refine mem_placements.2 ⟨List.length_replicate, fun stage hstage => ?_⟩
    rw [List.eq_of_mem_replicate hstage]
    exact Sketch.mem_upTo.2 (by omega)
  have hpos : 0 < (searchJobs c base testcases).length := by
    rw [length_searchJobs]
    exact List.length_pos_of_mem hmem
  exact List.length_pos_iff.1 hpos

/-! ### What comes of the jobs -/

theorem settle_finds {runs : List Run} (last : Option Run) (hlast : ∀ run ∈ last, run.code ≠ 0)
    (hsome : last.isSome ∨ runs ≠ []) (w : Workspace) :
    ∃ run w', Ends (settle last (runs.map .ok)) c w (some run) c w' ∧ (run ∈ last ∨ run ∈ runs) ∧
      (run.code = 0 ↔ ∃ r ∈ runs, r.code = 0) := by
  induction runs generalizing last w with
  | nil =>
    obtain ⟨run, rfl⟩ := Option.isSome_iff_exists.1 (hsome.resolve_right fun h => h rfl)
    refine ⟨run, w, ends_pure.2 ⟨rfl, rfl, rfl⟩, .inl rfl, ?_⟩
    simpa using hlast run rfl
  | cons first rest ih =>
    by_cases hcode : first.code = 0
    · -- The first success ends the search.
      refine ⟨first, { w with printed := w.printed ++ "Success" ++ "\n" }, ?_, .inr List.mem_cons_self, ?_⟩
      · rw [List.map_cons, settle, if_pos hcode]
        exact ends_bind.2 ⟨(), c, _, ends_work.2 ⟨rfl, rfl⟩, ends_pure.2 ⟨rfl, rfl, rfl⟩⟩
      · exact ⟨fun h => ⟨first, List.mem_cons_self, h⟩, fun _ => hcode⟩
    · obtain ⟨run, w', hends, hmem, hiff⟩ := ih (some first)
        (fun run hrun => by rw [← Option.mem_some.1 hrun]; exact hcode) (.inl rfl)
        { w with printed := w.printed ++ "One run failed, waiting for others." ++ "\n" }
      refine ⟨run, w', ?_, ?_, ?_⟩
      · rw [List.map_cons, settle, if_neg hcode]
        exact ends_bind.2 ⟨(), c, _, ends_work.2 ⟨rfl, rfl⟩, hends⟩
      · rcases hmem with hmem | hmem
        · rw [← Option.mem_some.1 hmem]
          exact .inr List.mem_cons_self
        · exact .inr (List.mem_cons_of_mem _ hmem)
      · rw [hiff]
        simp [hcode]

theorem attempt_ends (j : Job) (c : Compiler) (w : Workspace) : ∃ r w', Ends (attempt j) c w r c w' :=
  ⟨((job j).run.run c w).1.1, ((job j).run.run c w).2, rfl⟩

theorem attempts_end (jobs : List Job) (c : Compiler) (w : Workspace) :
    ∃ results w', Ends (jobs.mapM attempt) c w results c w' ∧ results.length = jobs.length := by
  induction jobs generalizing w with
  | nil => exact ⟨[], w, ends_pure.2 ⟨rfl, rfl, rfl⟩, rfl⟩
  | cons j jobs ih =>
    obtain ⟨r, w₁, hj⟩ := attempt_ends j c w
    obtain ⟨results, w', hjobs, hlength⟩ := ih w₁
    refine ⟨r :: results, w', ?_, by rw [List.length_cons, List.length_cons, hlength]⟩
    simp only [List.mapM_cons, ends_bind, ends_pure]
    exact ⟨r, c, w₁, hj, results, c, w', hjobs, rfl, rfl, rfl⟩

theorem forM_say_ends {γ : Type} (line : γ → String) (xs : List γ) (c : Compiler) (w : Workspace) :
    ∃ w', Ends (xs.forM fun x => say (line x)) c w ⟨⟩ c w' ∧ w.Prints w' := by
  induction xs generalizing w with
  | nil => exact ⟨w, ends_pure.2 ⟨rfl, rfl, rfl⟩, prints.refl w⟩
  | cons x xs ih =>
    obtain ⟨w', hends, hprints⟩ := ih { w with printed := w.printed ++ line x ++ "\n" }
    exact ⟨w', ends_bind.2 ⟨(), c, _, ends_work.2 ⟨rfl, rfl⟩, hends⟩, prints.trans ⟨_, rfl⟩ hprints⟩

theorem Ends.bind_iff {α β : Type} {m : Compile α} {f : α → Compile β} {a : α} {c c₁ : Compiler} {w w₁ : Workspace}
    (h : Ends m c w a c₁ w₁) {b : β} {c' : Compiler} {w' : Workspace} :
    Ends (m >>= f) c w b c' w' ↔ Ends (f a) c₁ w₁ b c' w' := by
  refine ends_bind.trans ⟨?_, fun h' => ⟨a, c₁, w₁, h, h'⟩⟩
  rintro ⟨a', c₂, w₂, hm, h'⟩
  cases h.symm.trans hm
  exact h'

/-- Jobs side by side are all attempted, and what comes of them is settled. -/
theorem parallel_settles (hjobs : searchJobs c base testcases ≠ []) (w : Workspace) :
    ∃ w₁ results w₂, w.Prints w₁ ∧ Ends ((searchJobs c base testcases).mapM attempt) c w₁ results c w₂ ∧
      results.length = (searchJobs c base testcases).length ∧
      ∀ found c' w', Ends (parallel base testcases) c w found c' w' ↔ Ends (settle none results) c w₂ found c' w' := by
  obtain ⟨w₁, hsay, hprints⟩ := forM_say_ends (fun x : List Nat × Nat × Job =>
    "Now in assignment #  " ++ toString x.2.1 ++ "  assignment is  " ++ placementText x.1)
    (placementJobs c base testcases) c w
  obtain ⟨results, w₂, hattempts, hlength⟩ := attempts_end (searchJobs c base testcases) c w₁
  refine ⟨w₁, results, w₂, hprints, hattempts, hlength, fun found c' w' => ?_⟩
  have hnonempty : ¬ (placementJobs c base testcases).isEmpty = true := by
    rw [List.isEmpty_iff]
    exact fun h => hjobs (by rw [searchJobs, h, List.map_nil])
  have hmapM : (placementJobs c base testcases).mapM (fun x => attempt x.2.2) =
      (searchJobs c base testcases).mapM attempt := by
    rw [searchJobs, List.mapM_map]
    rfl
  unfold parallel
  rw [(ends_get.2 ⟨rfl, rfl, rfl⟩).bind_iff, hsay.bind_iff, if_neg hnonempty]
  rw [← hmapM] at hattempts
  exact hattempts.bind_iff

end Compile

/-- The generator of a compiler works for the stages and the state groups of the compiler. -/
structure Compiler.Fits (c : Compiler) : Prop where
  stages : c.generator.shape.stages = c.options.stages
  groups : c.generator.shape.groups = c.groups

theorem Compiler.create_fits {o : Compiler.Options} {files : Files} {c : Compiler}
    (h : Compiler.create o files = .ok c) : c.Fits := by
  obtain ⟨-, fields, bits, -, hoptions, -, hgenerator⟩ := Compiler.create_ok h
  constructor
  · rw [hgenerator, hoptions]
    rfl
  · rw [hgenerator]
    rfl

theorem Compiler.Fits.placements_eq {c : Compiler} (h : c.Fits) :
    Compile.placements c.options.stages c.groups =
      Compile.placements c.generator.shape.stages c.generator.shape.groups.toNat := by
  rw [h.stages, h.groups, Int.toNat_natCast]

namespace Compile

variable {c : Compiler} {base : List String} {testcases : String} {hole : String → Int}

/-- Where every group is active in exactly one stage, one job admits the valuation, and one only. -/
theorem existsUnique_job (hfits : c.Fits)
    (hbits : ∀ bit ∈ (Sketch.Allocation.canonical c.generator.shape).bits, hole bit = 0 ∨ hole bit = 1)
    (hactive : ∀ k ∈ upTo c.generator.shape.groups, ActiveOnce hole c.generator.shape k) :
    ∃! n : Fin (searchJobs c base testcases).length, ((searchJobs c base testcases).get n).Admits base hole := by
  obtain ⟨placement, ⟨hmem, hholds⟩, hunique⟩ := existsUnique_placement
    (fun i hi k hk => hbits _ (List.mem_flatMap.2 ⟨i, hi, List.mem_map_of_mem hk⟩)) hactive
  rw [← hfits.placements_eq] at hmem
  obtain ⟨n, hn, rfl⟩ := List.getElem_of_mem hmem
  refine ⟨⟨n, length_searchJobs ▸ hn⟩, (admits_getElem_iff _ hn).2 hholds, fun m hm => ?_⟩
  have hm' : m.1 < (placements c.options.stages c.groups).length := length_searchJobs ▸ m.2
  have heq := hunique _ ⟨hfits.placements_eq ▸ List.getElem_mem hm', (admits_getElem_iff m.2 hm').1 hm⟩
  exact Fin.ext ((nodup_placements _ _).getElem_inj_iff.1 heq)

/-- A job only admits valuations for which every group is active in exactly one stage. -/
theorem activeOnce_of_admits (hfits : c.Fits) {n : Fin (searchJobs c base testcases).length}
    (h : ((searchJobs c base testcases).get n).Admits base hole) {k : Nat}
    (hk : k ∈ upTo c.generator.shape.groups) : ActiveOnce hole c.generator.shape k := by
  have hn : n.1 < (placements c.options.stages c.groups).length := length_searchJobs ▸ n.2
  exact activeOnce_of_hold (hfits.placements_eq ▸ List.getElem_mem hn) ((admits_getElem_iff n.2 hn).1 h) hk

/-- The jobs for the placements split the search without gaps and without overlaps: a valuation of the holes that
activate groups is admitted by exactly one job if it has every group active in exactly one stage, and by none otherwise.
Every job keeps the constraints that are given, in front of its own, and has a file of its own. Whatever the results of
all jobs are, and in whichever order they come in, a success is settled on if there is one. -/
theorem placement_jobs_partition_search_and_settle_in_any_order (hfits : c.Fits) (hstages : 0 < c.options.stages)
    (base : List String) (testcases : String) :
    (∀ hole : String → Int,
      (∀ bit ∈ (Sketch.Allocation.canonical c.generator.shape).bits, hole bit = 0 ∨ hole bit = 1) →
      ((∀ k ∈ upTo c.groups, ActiveOnce hole c.generator.shape k) →
        ∃! n : Fin (searchJobs c base testcases).length,
          ((searchJobs c base testcases).get n).Admits base hole) ∧
      (¬ (∀ k ∈ upTo c.groups, ActiveOnce hole c.generator.shape k) →
        ∀ n : Fin (searchJobs c base testcases).length,
          ¬ ((searchJobs c base testcases).get n).Admits base hole)) ∧
    (∀ j ∈ searchJobs c base testcases, base <+: j.constraints ∧ j.testcases = testcases ∧
      ∀ constraint ∈ j.constraints.drop base.length, Reading.IsName c.generator.shape.sketchName →
        ∀ hole, ∃ v, Reading.value? hole (Reading.chars constraint) = some v ∧ (v ≠ 0 ↔ Equates hole constraint)) ∧
    ((searchJobs c base testcases).map Job.file).Nodup ∧
    (∀ (outcome : Fin (searchJobs c base testcases).length → Run)
      (order : List (Fin (searchJobs c base testcases).length)),
      order.Perm (List.finRange _) → ∀ w, ∃ n w',
        Ends (settle none (order.map fun n => .ok (outcome n))) c w (some (outcome n)) c w' ∧
        ((outcome n).code = 0 ↔ ∃ m, (outcome m).code = 0)) ∧
    ∀ w, ∃ w₁ results w₂, w.Prints w₁ ∧ Ends ((searchJobs c base testcases).mapM attempt) c w₁ results c w₂ ∧
      results.length = (searchJobs c base testcases).length ∧
      ∀ found c' w', Ends (parallel base testcases) c w found c' w' ↔
        Ends (settle none results) c w₂ found c' w' := by
  have hjobs : searchJobs c base testcases ≠ [] := searchJobs_ne_nil hstages
  refine ⟨fun hole hbits => ⟨fun hactive => ?_, fun hnot n hadmits => ?_⟩, fun j hj => ?_, nodup_searchJobs_files,
    fun outcome order horder w => ?_, parallel_settles hjobs⟩
  · exact existsUnique_job hfits hbits (hfits.groups.symm ▸ hactive)
  · exact hnot fun k hk => activeOnce_of_admits hfits hadmits (hfits.groups.symm ▸ hk)
  · obtain ⟨n, hn, rfl⟩ := List.getElem_of_mem hj
    rw [searchJobs_getElem hn (length_searchJobs ▸ hn)]
    refine ⟨List.prefix_append _ _, rfl, fun constraint hmem hname hole => ?_⟩
    rw [List.drop_left] at hmem
    obtain ⟨group, stage, -, i, -, rfl⟩ := mem_placementConstraints.1 hmem
    exact reads_equates (Sketch.isName_activeBit hname i group)
  · have hne : order.map outcome ≠ [] := by
      rw [ne_eq, List.map_eq_nil_iff]
      rintro rfl
      exact hjobs (by simpa using horder.length_eq.symm)
    obtain ⟨run, w', hends, hmem, hiff⟩ := settle_finds (c := c) none (by simp) (.inr hne) w
    obtain ⟨n, -, rfl⟩ := List.mem_map.1 (hmem.resolve_left (by simp))
    refine ⟨n, w', by rwa [List.map_map] at hends, hiff.trans ?_⟩
    simp only [List.mem_map, horder.mem_iff, List.mem_finRange, true_and, exists_exists_eq_and]

end Compile

namespace TwoStageSearch

/-- The small switch with a second stage. -/
def options : Compiler.Options :=
  { (SmallSwitch.arguments false).options 1 with stages := 2 }

theorem exists_compiler :
    ∃ c, Compiler.create options SmallSwitch.files = .ok c ∧ c.options.stages = 2 ∧ c.groups = 1 := by
  have hcheck : (match Compiler.create options SmallSwitch.files with
      | .ok c => decide (c.options.stages = 2 ∧ c.groups = 1)
      | .error _ => false) = true := by decide +kernel
  split at hcheck
  · next c hcreate => exact ⟨c, hcreate, of_decide_eq_true hcheck⟩
  · exact nomatch hcheck

/-- A group that is active in the second stage only is searched for in one job, and one that is active in both stages
in none. -/
theorem second_stage_searched_once :
    ∃ c, Compiler.create options SmallSwitch.files = .ok c ∧
      (∃! n : Fin (Compile.searchJobs c ["x == 1"] "").length,
        ((Compile.searchJobs c ["x == 1"] "").get n).Admits ["x == 1"]
          fun name => if name = activeBit c.generator.shape 1 0 then 1 else 0) ∧
      ∀ n : Fin (Compile.searchJobs c ["x == 1"] "").length,
        ¬ ((Compile.searchJobs c ["x == 1"] "").get n).Admits ["x == 1"] fun _ => 1 := by
  obtain ⟨c, hcreate, hstages, hgroups⟩ := exists_compiler
  have hfits := Compiler.create_fits hcreate
  obtain ⟨hadmits, -⟩ := Compile.placement_jobs_partition_search_and_settle_in_any_order hfits
    (by rw [hstages]; decide) ["x == 1"] ""
  refine ⟨c, hcreate, (hadmits _ fun bit _ => ?_).1 fun k hk => ?_, (hadmits _ fun _ _ => .inr rfl).2 fun hactive => ?_⟩
  · split
    · exact .inr rfl
    · exact .inl rfl
  · obtain rfl : k = 0 := by
      rw [hgroups] at hk
      exact List.mem_singleton.1 hk
    refine ⟨1, ⟨by rw [hfits.stages, hstages]; decide, if_pos rfl⟩, ?_⟩
    rintro i ⟨-, hone⟩
    dsimp only at hone
    split at hone
    · next heq => exact (Sketch.Generator.activeBit_inj heq).1
    · exact absurd hone (by decide)
  · have hzero : 0 ∈ upTo c.groups := by rw [hgroups]; decide
    have hstage (i : Nat) (hi : i < 2) : i ∈ upTo c.generator.shape.stages := by
      rw [hfits.stages, hstages]
      exact Sketch.mem_upTo.2 hi
    exact absurd ((hactive 0 hzero).unique ⟨hstage 0 (by decide), rfl⟩ ⟨hstage 1 (by decide), rfl⟩) (by decide)

end TwoStageSearch

end SwitchSynth
