import Mathlib
import SwitchSynth.Proofs.Reading
import SwitchSynth.Proofs.Sketch.History
import SwitchSynth.Proofs.Synthesis.OwnFiles

/-!
# Elimination of assignments ends

The constraint that excludes an assignment reads as true exactly where some hole has another value. So if the
synthesiser keeps to the constraints, it never finds an assignment twice; and as the sketch is generated with the
same holes in every round, there are no more rounds than assignments, and one.
-/

namespace SwitchSynth

open Reading (Reads IsName IsNumeral numeral chars bit)
open Sketch (Hole HoleValue Generator)

/-! ### What a constraint says -/

namespace Elimination

variable {σ : String → Int}

def equationText (e : String × String) : String :=
  "(" ++ e.1 ++ " == " ++ e.2 ++ ")"

theorem reads_equation {e : String × String} (hname : IsName e.1) (hnumeral : IsNumeral e.2) :
    Reads σ Reading.atomLevel (chars (equationText e)) (bit (σ e.1 = numeral e.2)) := by
  have hleft : Reads σ 4 (chars e.1) (σ e.1) := (Reading.reads_name hname).mono (by decide)
  have hright : Reads σ 5 (chars e.2) (numeral e.2) := (Reading.reads_numeral hnumeral).mono (by decide)
  have htext : chars (equationText e) = .char '(' :: (chars e.1 ++
      (.char ' ' :: ("==".toList.map .char ++ .char ' ' :: chars e.2))) ++ [.char ')'] := by
    simp [equationText, chars]
  rw [htext]
  exact Reading.reads_group (Reading.reads_spaced Reading.spells_eq hleft hright) (by decide)

theorem intercalate_merge (separator a b : String) (rest : List String) :
    separator.intercalate (a :: b :: rest) = separator.intercalate ((a ++ separator ++ b) :: rest) := by
  cases rest with
  | nil => simp [String.intercalate_cons_cons]
  | cons c rest => simp only [String.intercalate_cons_cons, String.append_assoc]

/-- Equations behind a text that reads as a truth value: all together hold if each of them does. -/
theorem reads_conjunction {text : String} {v : Int} {es : List (String × String)}
    (hes : ∀ e ∈ es, IsName e.1 ∧ IsNumeral e.2) (h : Reads σ 2 (chars text) v) :
    ∃ u, Reads σ 2 (chars (" && ".intercalate (text :: es.map equationText))) u ∧
      (u ≠ 0 ↔ v ≠ 0 ∧ ∀ e ∈ es, σ e.1 = numeral e.2) := by
  induction es generalizing text v with
  | nil =>
    refine ⟨v, ?_, by simp⟩
    rw [List.map_nil, String.intercalate_singleton]
    exact h
  | cons e es ih =>
    obtain ⟨hname, hnumeral⟩ := hes e List.mem_cons_self
    have hequation : Reads σ 3 (chars (equationText e)) (bit (σ e.1 = numeral e.2)) :=
      (reads_equation hname hnumeral).mono (by decide)
    have hboth := Reading.reads_spaced Reading.spells_and_sign h hequation
    have htext : chars (text ++ " && " ++ equationText e) = chars text ++
        (.char ' ' :: ("&&".toList.map .char ++ .char ' ' :: chars (equationText e))) := by
      simp [chars]
    rw [← htext] at hboth
    obtain ⟨u, hreads, hu⟩ := ih (fun e he => hes e (List.mem_cons_of_mem _ he)) hboth
    refine ⟨u, ?_, ?_⟩
    · rw [List.map_cons, intercalate_merge]
      exact hreads
    · rw [hu, List.forall_mem_cons]
      simp only [Reading.Operator.apply, ne_eq, Reading.bit_eq_zero, Decidable.not_not, and_assoc]

/-- The constraint that excludes equations holds exactly where one of them does not. -/
theorem text_reads {es : List (String × String)} (hne : es ≠ []) (hes : ∀ e ∈ es, IsName e.1 ∧ IsNumeral e.2) :
    ∃ v, Reading.value? σ (chars (text es)) = some v ∧ (v ≠ 0 ↔ ∃ e ∈ es, σ e.1 ≠ numeral e.2) := by
  cases es with
  | nil => exact absurd rfl hne
  | cons e es =>
    obtain ⟨hname, hnumeral⟩ := hes e List.mem_cons_self
    have hfirst : Reads σ 2 (chars (equationText e)) (bit (σ e.1 = numeral e.2)) :=
      (reads_equation hname hnumeral).mono (by decide)
    obtain ⟨u, hreads, hu⟩ := reads_conjunction (fun e he => hes e (List.mem_cons_of_mem _ he)) hfirst
    have hnot := (Reading.reads_bang hreads (by decide)).value?_eq (by decide)
    have htext : chars (text (e :: es)) = .char '!' :: (.char '(' ::
        chars (" && ".intercalate (equationText e :: es.map equationText)) ++ [.char ')']) := by
      show chars ("!(" ++ " && ".intercalate ((e :: es).map equationText) ++ ")") = _
      simp [chars]
    refine ⟨bit (u = 0), ?_, ?_⟩
    · rw [htext, hnot]
    · rw [ne_eq, Reading.bit_eq_zero, Decidable.not_not, ← Decidable.not_iff_not, ← ne_eq, hu]
      simp

theorem mem_of_equations {values : Table HoleValue} {es : List (String × String)}
    (h : equations values = .ok es) (e : String × String) : e ∈ es ↔ values.get? e.1 = some (.text e.2) := by
  have hall : ∀ (xs : List (String × HoleValue)) {es : List (String × String)},
      (xs.mapM fun x => do return (x.1, ← x.2.asText)) = Except.ok es →
      (e ∈ es ↔ (e.1, .text e.2) ∈ xs) := by
    intro xs
    induction xs with
    | nil =>
      intro es h
      cases h
      simp
    | cons x xs ih =>
      intro es h
      obtain ⟨hole, value⟩ := x
      rw [List.mapM_cons] at h
      cases value with
      | number n => cases h
      | groups ss => cases h
      | text s =>
        cases hrest : xs.mapM fun (x : String × HoleValue) => do return (x.1, ← x.2.asText) with
        | error err =>
          rw [hrest] at h
          cases h
        | ok rest =>
          rw [hrest] at h
          cases h
          rw [List.mem_cons, List.mem_cons, ih hrest]
          obtain ⟨name, digits⟩ := e
          simp
  rw [hall _ h, Report.sorted, List.mem_mergeSort, Table.get?_eq_some_iff]

theorem constraints_ok {values : Table HoleValue} {new : List String} (h : constraints values = .ok new) :
    ∃ es, equations values = .ok es ∧ new = if es.isEmpty then [] else [text es] := by
  unfold constraints at h
  cases hes : equations values with
  | error e =>
    rw [hes] at h
    exact nomatch h
  | ok es =>
    rw [hes] at h
    exact ⟨es, rfl, (Except.ok.inj h).symm⟩

end Elimination

/-! ### What the synthesiser answers -/

/-- The number that an assignment gives to a hole; zero if it gives none. -/
def amount (values : Table HoleValue) (hole : String) : Int :=
  match values.get? hole with
  | some (.text digits) => numeral digits
  | _ => 0

theorem amount_eq {values : Table HoleValue} {hole digits : String} (h : values.get? hole = some (.text digits)) :
    amount values hole = numeral digits := by
  rw [amount, h]

/-- An assignment answers a sketch with some holes and constraints: the holes can be named in an expression, each
of them has a number of its width, and every constraint is true. -/
structure Answers (holes : List Hole) (constraints : List String) (values : Table HoleValue) : Prop where
  isName : ∀ hole ∈ holes, IsName hole.name
  number : ∀ hole ∈ holes, ∃ digits, values.get? hole.name = some (.text digits) ∧ IsNumeral digits ∧
    numeral digits < 2 ^ hole.width.toNat
  holds : ∀ text ∈ constraints, ∃ v, Reading.value? (amount values) (chars text) = some v ∧ v ≠ 0

/-- Whether an assignment gives a hole a number of its width. -/
def fits (values : Table HoleValue) (hole : Hole) : Bool :=
  match values.get? hole.name with
  | some (.text digits) => decide (IsNumeral digits ∧ numeral digits < 2 ^ hole.width.toNat)
  | _ => false

theorem fits_iff {values : Table HoleValue} {hole : Hole} : fits values hole = true ↔
    ∃ digits, values.get? hole.name = some (.text digits) ∧ IsNumeral digits ∧
      numeral digits < 2 ^ hole.width.toNat := by
  unfold fits
  split
  · next digits hdigits => simp [hdigits]
  · next hother =>
    constructor
    · intro h
      exact nomatch h
    · rintro ⟨digits, hdigits, -⟩
      exact absurd hdigits (hother digits)

instance (holes : List Hole) (constraints : List String) (values : Table HoleValue) :
    Decidable (Answers holes constraints values) :=
  decidable_of_iff
    (holes.all (fun hole => decide (IsName hole.name)) = true ∧ holes.all (fits values) = true ∧
      constraints.all (fun text => (Reading.value? (amount values) (chars text)).any (· != 0)) = true) (by
    simp only [List.all_eq_true, decide_eq_true_eq, fits_iff, Option.any_eq_true, bne_iff_ne]
    exact ⟨fun h => ⟨h.1, h.2.1, h.2.2⟩, fun h => ⟨h.isName, h.number, h.holds⟩⟩)

/-- Some hole of an assignment has another number in a second one. -/
def Differ (values values' : Table HoleValue) : Prop :=
  ∃ hole ∈ values.keys, amount values' hole ≠ amount values hole

/-- Steps that add no other key than their own leave no other keys behind. -/
theorem keys_of_foldlM {add : Table HoleValue → String → Except Error (Table HoleValue)} {k : String}
    (hadd : ∀ {t t' : Table HoleValue} {name : String}, add t name = .ok t' → k ∈ t'.keys → k ∈ t.keys ∨ k = name)
    {names : List String} {t t' : Table HoleValue} (h : names.foldlM add t = .ok t') (hk : k ∈ t'.keys) :
    k ∈ t.keys ∨ k ∈ names := by
  induction names generalizing t with
  | nil =>
    cases h
    exact .inl hk
  | cons name names ih =>
    rw [List.foldlM_cons] at h
    cases hstep : add t name with
    | error e =>
      rw [hstep] at h
      cases h
    | ok t₁ =>
      rw [hstep] at h
      rcases ih h with hmem | hmem
      · rcases hadd hstep hmem with hmem | rfl
        · exact .inl hmem
        · exact .inr List.mem_cons_self
      · exact .inr (List.mem_cons_of_mem name hmem)

theorem mem_of_assignment {holes : List String} {solved : String} {values : Table HoleValue}
    (h : Sketch.assignment holes solved = .ok values) {k : String} (hk : k ∈ values.keys) : k ∈ holes := by
  refine (keys_of_foldlM (fun {t t' hole} h hk => ?_) h hk).resolve_left fun hnone => by cases hnone
  cases hvalues : Sketch.valuesOf hole solved with
  | error e =>
    rw [hvalues] at h
    cases h
  | ok found =>
    rw [hvalues] at h
    -- A hole is only assigned where it has exactly one value.
    rcases found with _ | ⟨value, _ | ⟨other, rest⟩⟩
    · cases h
    · cases h
      rw [Table.keys_insert] at hk
      split at hk
      · exact .inl hk
      · exact (List.mem_append.1 hk).imp_right List.mem_singleton.1
    · cases h

/-- An assignment that answers a sketch has a constraint, and what keeps to the constraint differs from it. -/
theorem Answers.excluded {holes : List Hole} {constraints new : List String} {values : Table HoleValue}
    (hanswers : Answers holes constraints values) (hne : holes ≠ [])
    (hkeys : ∀ k ∈ values.keys, k ∈ holes.map (·.name)) (h : Elimination.constraints values = .ok new) :
    ∃ text, new = [text] ∧ ∀ {values' : Table HoleValue} {v : Int},
      Reading.value? (amount values') (chars text) = some v → v ≠ 0 → Differ values values' := by
  obtain ⟨es, hes, hnew⟩ := Elimination.constraints_ok h
  have hnonempty : es ≠ [] := by
    obtain ⟨hole, hhole⟩ := List.exists_mem_of_ne_nil holes hne
    obtain ⟨digits, hdigits, -⟩ := hanswers.number hole hhole
    exact List.ne_nil_of_mem ((Elimination.mem_of_equations hes (hole.name, digits)).2 hdigits)
  have hkey : ∀ e ∈ es, e.1 ∈ values.keys := by
    intro e he
    have hget := (Elimination.mem_of_equations hes e).1 he
    exact List.mem_map_of_mem ((values.get?_eq_some_iff _ _).1 hget)
  have hforms : ∀ e ∈ es, IsName e.1 ∧ IsNumeral e.2 := by
    intro e he
    have hget := (Elimination.mem_of_equations hes e).1 he
    obtain ⟨hole, hhole, hname⟩ := List.mem_map.1 (hkeys _ (hkey e he))
    obtain ⟨digits, hdigits, hnumeral, -⟩ := hanswers.number hole hhole
    rw [hname, hget] at hdigits
    cases hdigits
    exact ⟨hname ▸ hanswers.isName hole hhole, hnumeral⟩
  rw [if_neg (by simpa using hnonempty)] at hnew
  refine ⟨Elimination.text es, hnew, fun {values' v} hvalue htrue => ?_⟩
  obtain ⟨u, hu, hiff⟩ := Elimination.text_reads (σ := amount values') hnonempty hforms
  obtain rfl : v = u := Option.some.inj (hvalue.symm.trans hu)
  obtain ⟨e, he, hdiffers⟩ := hiff.1 htrue
  have hamount := amount_eq ((Elimination.mem_of_equations hes e).1 he)
  exact ⟨e.1, hkey e he, hamount ▸ hdiffers⟩

/-! ### What a round keeps -/

namespace Loop

open Sketch.Generator (Alike HasAlus Ready)

variable {s : Setup} {x y z : Stand} {run : Compile.Run} {c : Compiler} {w : Workspace}
  {l : List (Compile.Run × Formula.Counterexample)}

/-- What a sketch depends on is the same at two stands, unless the synthesiser writes the file of an ALU. -/
structure Keeps (x y : Stand) : Prop where
  options : y.compiler.options = x.compiler.options
  alike : Alike x.compiler.generator y.compiler.generator
  stateless : x.workspace.Spares (pathName x.compiler.generator.statelessFile) y.workspace
  stateful : x.workspace.Spares (pathName x.compiler.generator.statefulFile) y.workspace

theorem Keeps.refl (x : Stand) : Keeps x x :=
  ⟨rfl, Generator.alike.refl _, (spares _).refl _, (spares _).refl _⟩

theorem Keeps.trans (h : Keeps x y) (h' : Keeps y z) : Keeps x z := by
  have hstateless := h'.stateless
  have hstateful := h'.stateful
  rw [h.alike.statelessFile] at hstateless
  rw [h.alike.statefulFile] at hstateful
  exact ⟨h'.options.trans h.options, Generator.alike.trans h.alike h'.alike,
    (spares _).trans h.stateless hstateless, (spares _).trans h.stateful hstateful⟩

/-- No reply that is still to come writes the file of an ALU. -/
def KeepsAlus (x : Stand) : Prop :=
  ∀ r ∈ x.workspace.replies, ∀ f ∈ r.files, pathName f.1 ≠ pathName x.compiler.generator.statelessFile ∧
    pathName f.1 ≠ pathName x.compiler.generator.statefulFile

def holesFrom (x : Stand) : List Hole :=
  (x.compiler.generator.fileLayout x.workspace.files).holes

theorem Keeps.holesFrom_eq (h : Keeps x y) (halus : KeepsAlus x) : holesFrom y = holesFrom x := by
  unfold holesFrom
  rw [h.alike.fileLayout_eq (h.stateless.file fun r hr f hf => (halus r hr f hf).1)
    (h.stateful.file fun r hr f hf => (halus r hr f hf).2)]

/-- What is known of a stand from which synthesis goes on. -/
structure Goes (s : Setup) (x : Stand) : Prop where
  ready : Ready x.compiler.generator
  name : x.compiler.options.sketchName = s.arguments.sketchName
  stateless : x.compiler.generator.statelessFile = s.arguments.statelessFile
  stateful : x.compiler.generator.statefulFile = s.arguments.statefulFile

theorem Begins.goes (h : Begins s x) : Goes s x := by
  obtain ⟨fields, bits, -, hgenerator⟩ := h.generator
  have hoptions := h.options
  constructor
  · rw [hgenerator]
    exact .inl ⟨rfl, rfl⟩
  · rw [hoptions]
    rfl
  · rw [hgenerator]
  · rw [hgenerator]

/-- The one sketch of a round: it has the holes from there on, and there are some. -/
theorem Tries.holes (hserial : s.arguments.parallel = false) (hready : Ready x.compiler.generator)
    (h : Tries s x run c w) :
    Alike x.compiler.generator c.generator ∧ HasAlus c.generator ∧ c.generator.holes = holesFrom x ∧
      c.generator.holes ≠ [] ∧ (∀ hole ∈ c.generator.holes, 0 ≤ hole.width) ∧
      (run.code = 0 → ∀ k ∈ run.values.keys, k ∈ c.generator.holes.map (·.name)) := by
  obtain ⟨j, -, files, p, g, hprogram, rfl, hvalues, hfiles⟩ := h.sketch
  obtain rfl := hfiles hserial
  have hbehind : generatorBehind s x g = g := if_neg (by simp [hserial])
  have halus := hready.hasAlus hprogram
  obtain ⟨halike, -, hwidths⟩ := Generator.program_holes halus hprogram
  simp only [hbehind]
  exact ⟨halike, halus.of_alike halike, Generator.program_fileLayout halus hprogram,
    Generator.program_holes_ne_nil halus hprogram, hwidths, fun hcode k hk => mem_of_assignment (hvalues hcode) hk⟩

theorem Turns.keeps {found : Formula.Counterexample} (hserial : s.arguments.parallel = false)
    (helimination : s.arguments.holeElimination = true) (hgoes : Goes s x) (h : Turns s x run found y) :
    Keeps x y ∧ Goes s y := by
  obtain ⟨f, c₂, w₂, w₃, hasks, -, -, hprints, hlearn⟩ := h
  obtain ⟨new, -, -, hcompiler, hworkspace⟩ := learn_constraints helimination hlearn
  obtain ⟨c₁, w₁, p, g, htries, -, -, hprogram, hc₂⟩ := hasks.sketch
  obtain ⟨_, _, files, p', g', hfirst, hc₁, -, -⟩ := htries.sketch
  obtain ⟨halike, halus, -⟩ := htries.holes hserial hgoes.ready
  have halike' := (Generator.program_holes halus hprogram).1
  obtain ⟨⟨text, htext⟩, text', htext'⟩ := Generator.program_reads (hgoes.ready.hasAlus hfirst) hfirst
  have hstateless : s.arguments.statelessFile ∈ s.arguments.sources := by simp [Arguments.sources]
  have hstateful : s.arguments.statefulFile ∈ s.arguments.sources := by simp [Arguments.sources]
  have hspares₁ := hasks.spares hserial hgoes.name (hgoes.stateless ▸ hstateless) (Generator.readAscii_ok htext)
  have hspares₂ := hasks.spares hserial hgoes.name (hgoes.stateful ▸ hstateful) (Generator.readAscii_ok htext')
  have hboth : Alike x.compiler.generator g := Generator.alike.trans halike halike'
  have hgenerator : y.compiler.generator = g := by rw [hcompiler, hc₂]
  have hoptions : y.compiler.options = x.compiler.options := by rw [hcompiler, hc₂, hc₁]
  have hkeeps : Keeps x y := by
    refine ⟨hoptions, hgenerator ▸ hboth, ?_, ?_⟩
    · rw [hworkspace]
      exact (spares _).trans hspares₁ (hprints.spares _)
    · rw [hworkspace]
      exact (spares _).trans hspares₂ (hprints.spares _)
  refine ⟨hkeeps, .inr (hgenerator ▸ halus.of_alike halike'), ?_, ?_, ?_⟩
  · rw [hoptions, hgoes.name]
  · rw [hkeeps.alike.statelessFile, hgoes.stateless]
  · rw [hkeeps.alike.statefulFile, hgoes.stateful]

theorem Course.keeps (hserial : s.arguments.parallel = false) (helimination : s.arguments.holeElimination = true)
    (hgoes : Goes s x) (h : Course s x l y) : Keeps x y ∧ Goes s y := by
  induction h with
  | start => exact ⟨.refl x, hgoes⟩
  | round _ hturn ih =>
    obtain ⟨hkeeps, hgoes'⟩ := ih
    obtain ⟨hround, hgoes''⟩ := hturn.keeps hserial helimination hgoes'
    exact ⟨hkeeps.trans hround, hgoes''⟩

/-! ### What a course excludes -/

/-- The assignments of a course are excluded one after the other, and each differs from those before it. -/
structure Excludes (l : List (Compile.Run × Formula.Counterexample)) (y : Stand) : Prop where
  constraints : List.Forall₂ (fun r text => Elimination.constraints r.1.values = .ok [text]) l y.progress.constraints
  differs : ∀ {values : Table HoleValue}, (∀ text ∈ y.progress.constraints, ∃ v,
    Reading.value? (amount values) (chars text) = some v ∧ v ≠ 0) → ∀ r ∈ l, Differ r.1.values values
  pairwise : l.Pairwise fun r r' => Differ r.1.values r'.1.values

/-- The synthesiser keeps to what it is asked for in every round. -/
def KeepsTo (s : Setup) (x : Stand) : Prop :=
  ∀ l y run c w, Course s x l y → Tries s y run c w → run.code = 0 →
    Answers c.generator.holes y.progress.constraints run.values

/-- A round adds the constraint of what it has found behind those of earlier rounds. -/
theorem Excludes.round {found : Formula.Counterexample} (hserial : s.arguments.parallel = false)
    (helimination : s.arguments.holeElimination = true) (hready : Ready y.compiler.generator)
    (hanswers : ∀ c w, Tries s y run c w → run.code = 0 → Answers c.generator.holes y.progress.constraints run.values)
    (h : Excludes l y) (hturn : Turns s y run found z) : Excludes (l ++ [(run, found)]) z := by
  obtain ⟨f, c₂, w₂, w₃, hasks, -, -, -, hlearn⟩ := hturn
  obtain ⟨new, hnew, hprogress, -, -⟩ := learn_constraints helimination hlearn
  obtain ⟨c₁, w₁, _, _, htries, hcode, -⟩ := hasks.sketch
  have hanswer := hanswers c₁ w₁ htries hcode
  obtain ⟨-, -, -, hne, -, hkeys⟩ := htries.holes hserial hready
  obtain ⟨text, rfl, hexcluded⟩ := hanswer.excluded hne (hkeys hcode) hnew
  have hconstraints : z.progress.constraints = y.progress.constraints ++ [text] := by rw [hprogress]
  constructor
  · rw [hconstraints]
    exact List.rel_append h.constraints (.cons hnew .nil)
  · intro values hholds r hr
    rw [hconstraints] at hholds
    rcases List.mem_append.1 hr with hr | hr
    · exact h.differs (fun t ht => hholds t (List.mem_append_left _ ht)) r hr
    · obtain rfl := List.mem_singleton.1 hr
      obtain ⟨v, hv, htrue⟩ := hholds text (List.mem_append_right _ (List.mem_singleton.2 rfl))
      exact hexcluded hv htrue
  · rw [List.pairwise_append]
    refine ⟨h.pairwise, List.pairwise_singleton _ _, fun r hr r' hr' => ?_⟩
    obtain rfl := List.mem_singleton.1 hr'
    exact h.differs hanswer.holds r hr

theorem Course.excludes (hserial : s.arguments.parallel = false) (helimination : s.arguments.holeElimination = true)
    (hgoes : Goes s x) (hstart : x.progress.constraints = []) (hkeepsTo : KeepsTo s x) (h : Course s x l y) :
    Excludes l y := by
  induction h with
  | start => exact ⟨by rw [hstart]; exact .nil, fun _ r hr => absurd hr List.not_mem_nil, .nil⟩
  | round hcourse hturn ih =>
    exact ih.round hserial helimination (hcourse.keeps hserial helimination hgoes).2.ready
      (hkeepsTo _ _ _ · · hcourse) hturn

theorem Course.answers (hserial : s.arguments.parallel = false) (helimination : s.arguments.holeElimination = true)
    (hgoes : Goes s x) (hkeepsTo : KeepsTo s x) (halus : KeepsAlus x) (h : Course s x l y) :
    ∀ r ∈ l, (∃ constraints, Answers (holesFrom x) constraints r.1.values) ∧
      ∀ k ∈ r.1.values.keys, k ∈ (holesFrom x).map (·.name) := by
  induction h with
  | start => exact fun r hr => absurd hr List.not_mem_nil
  | round hcourse hturn ih =>
    intro r hr
    rcases List.mem_append.1 hr with hr | hr
    · exact ih r hr
    · obtain rfl := List.mem_singleton.1 hr
      obtain ⟨f, c₂, w₂, w₃, hasks, -⟩ := hturn
      obtain ⟨c₁, w₁, _, _, htries, hcode, -⟩ := hasks.sketch
      obtain ⟨hkeeps, hgoes'⟩ := hcourse.keeps hserial helimination hgoes
      obtain ⟨-, -, hholes, -, -, hkeys⟩ := htries.holes hserial hgoes'.ready
      rw [hkeeps.holesFrom_eq halus] at hholes
      rw [← hholes]
      exact ⟨⟨_, hkeepsTo _ _ _ _ _ hcourse htries hcode⟩, hkeys hcode⟩

end Loop

/-! ### Assignments as numbers -/

/-- The assignment of some holes as one number, in which each of them has as many bits as it is wide. -/
def pack (values : Table HoleValue) : List Hole → Nat
  | [] => 0
  | hole :: rest => (amount values hole.name).toNat + 2 ^ hole.width.toNat * pack values rest

/-- An assignment gives a hole a number of its width. -/
def InRange (values : Table HoleValue) (hole : Hole) : Prop :=
  0 ≤ amount values hole.name ∧ amount values hole.name < 2 ^ hole.width.toNat

theorem Answers.inRange {holes : List Hole} {constraints : List String} {values : Table HoleValue}
    (h : Answers holes constraints values) {hole : Hole} (hhole : hole ∈ holes) : InRange values hole := by
  obtain ⟨digits, hdigits, -, hlt⟩ := h.number hole hhole
  rw [InRange, amount_eq hdigits]
  exact ⟨Int.natCast_nonneg _, hlt⟩

theorem InRange.toNat_lt {values : Table HoleValue} {hole : Hole} (h : InRange values hole) :
    (amount values hole.name).toNat < 2 ^ hole.width.toNat := by
  have hlt : amount values hole.name < ((2 ^ hole.width.toNat : Nat) : Int) := by
    rw [Int.natCast_pow]
    exact h.2
  have hnonneg := h.1
  omega

theorem pack_lt {values : Table HoleValue} {holes : List Hole} (h : ∀ hole ∈ holes, InRange values hole) :
    pack values holes < 2 ^ (holes.map fun hole => hole.width.toNat).sum := by
  induction holes with
  | nil => exact Nat.one_pos
  | cons hole rest ih =>
    have hfirst := (h hole List.mem_cons_self).toNat_lt
    have hrest := ih fun hole hmem => h hole (List.mem_cons_of_mem _ hmem)
    rw [pack, List.map_cons, List.sum_cons, Nat.pow_add]
    calc (amount values hole.name).toNat + 2 ^ hole.width.toNat * pack values rest
        < 2 ^ hole.width.toNat + 2 ^ hole.width.toNat * pack values rest := by omega
      _ = 2 ^ hole.width.toNat * (pack values rest + 1) := by rw [Nat.mul_add, Nat.mul_one, Nat.add_comm]
      _ ≤ 2 ^ hole.width.toNat * 2 ^ (rest.map fun hole => hole.width.toNat).sum := Nat.mul_le_mul_left _ hrest

theorem pack_inj {values values' : Table HoleValue} {holes : List Hole}
    (h : ∀ hole ∈ holes, InRange values hole) (h' : ∀ hole ∈ holes, InRange values' hole)
    (heq : pack values holes = pack values' holes) :
    ∀ hole ∈ holes, amount values hole.name = amount values' hole.name := by
  induction holes with
  | nil => exact fun hole hmem => absurd hmem List.not_mem_nil
  | cons first rest ih =>
    have hfirst := h first List.mem_cons_self
    have hfirst' := h' first List.mem_cons_self
    rw [pack, pack] at heq
    -- The number of the first hole is the remainder, and the number of the others is the quotient.
    have hmod := congrArg (· % 2 ^ first.width.toNat) heq
    have hdiv := congrArg (· / 2 ^ first.width.toNat) heq
    have hpos : 0 < 2 ^ first.width.toNat := Nat.two_pow_pos _
    simp only [Nat.add_mul_mod_self_left, Nat.mod_eq_of_lt hfirst.toNat_lt, Nat.mod_eq_of_lt hfirst'.toNat_lt] at hmod
    simp only [Nat.add_mul_div_left _ _ hpos, Nat.div_eq_of_lt hfirst.toNat_lt, Nat.div_eq_of_lt hfirst'.toNat_lt,
      Nat.zero_add] at hdiv
    intro hole hmem
    rcases List.mem_cons.1 hmem with rfl | hmem
    · have hnonneg := hfirst.1
      have hnonneg' := hfirst'.1
      omega
    · exact ih (fun hole hmem => h hole (List.mem_cons_of_mem _ hmem))
        (fun hole hmem => h' hole (List.mem_cons_of_mem _ hmem)) hdiv hole hmem

theorem length_le_of_pairwise_differ {holes : List Hole} {assignments : List (Table HoleValue)}
    (hrange : ∀ values ∈ assignments, ∀ hole ∈ holes, InRange values hole)
    (hkeys : ∀ values ∈ assignments, ∀ k ∈ values.keys, k ∈ holes.map (·.name))
    (hdiffer : assignments.Pairwise Differ) :
    assignments.length ≤ 2 ^ (holes.map fun hole => hole.width.toNat).sum := by
  have hnodup : (assignments.map (pack · holes)).Nodup := by
    rw [List.Nodup, List.pairwise_map]
    refine hdiffer.imp_of_mem fun {values values'} hmem hmem' hdiffers heq => ?_
    obtain ⟨name, hname, hne⟩ := hdiffers
    obtain ⟨hole, hhole, rfl⟩ := List.mem_map.1 (hkeys values hmem name hname)
    exact hne (pack_inj (hrange values hmem) (hrange values' hmem') heq hole hhole).symm
  have hbelow : assignments.map (pack · holes) ⊆ List.range (2 ^ (holes.map fun hole => hole.width.toNat).sum) := by
    intro n hn
    obtain ⟨values, hmem, rfl⟩ := List.mem_map.1 hn
    exact List.mem_range.2 (pack_lt (hrange values hmem))
  have hle := (hnodup.subperm hbelow).length_le
  rwa [List.length_map, List.length_range] at hle

theorem totalBits_eq {g : Generator} (h : ∀ hole ∈ g.holes, 0 ≤ hole.width) :
    g.totalBits = ((g.holes.map fun hole => hole.width.toNat).sum : Nat) := by
  have hall : ∀ (holes : List Hole) (start : Int), (∀ hole ∈ holes, 0 ≤ hole.width) →
      (holes.map Hole.width).foldl (· + ·) start = start + ((holes.map fun hole => hole.width.toNat).sum : Nat) := by
    intro holes
    induction holes with
    | nil => simp
    | cons hole rest ih =>
      intro start h
      have hwidth := h hole List.mem_cons_self
      rw [List.map_cons, List.foldl_cons, ih _ fun hole hmem => h hole (List.mem_cons_of_mem _ hmem), List.map_cons,
        List.sum_cons]
      omega
  rw [Generator.totalBits, hall _ _ h, Int.zero_add]

/-! ### Synthesis ends -/

namespace SmallSwitch

/-- Whether the first sketch has four bits, and is solved as is asked for. -/
def solves (c : Compiler) : Bool :=
  let said := ((Work.say ("Iteration #" ++ toString ({} : Loop.Progress).round)).run.run workspace).2
  match ((Loop.candidate (setup true) {}).run.run c).run said with
  | ((.ok run, c'), _) =>
    run.code == 0 && decide (Answers c'.generator.holes [] run.values) && c'.generator.totalBits == 4
  | _ => false

theorem exists_tries :
    ∃ c run c' w', Compiler.create ((arguments true).options 1) files = .ok c ∧
      Loop.Tries (setup true) ⟨{}, c, workspace⟩ run c' w' ∧ Answers c'.generator.holes [] run.values ∧
      c'.generator.totalBits = 4 := by
  have hcheck : (match Compiler.create ((arguments true).options 1) files with
      | .ok c => solves c
      | .error _ => false) = true := by decide +kernel
  generalize Compiler.create ((arguments true).options 1) files = created at hcheck
  cases created with
  | error e => exact nomatch hcheck
  | ok c =>
    dsimp only [solves] at hcheck
    split at hcheck
    · next run c' w' hrun =>
      simp only [Bool.and_eq_true, decide_eq_true_eq, beq_iff_eq] at hcheck
      exact ⟨c, run, c', w', rfl, ⟨_, rfl, hrun⟩, hcheck.1.2, hcheck.2⟩
    · exact nomatch hcheck

/-- The first sketch is solved as is asked for, and there are no replies to further ones. -/
theorem keepsTo {c c' : Compiler} {run : Compile.Run} {w' : Workspace}
    (h : Loop.Tries (setup true) ⟨{}, c, workspace⟩ run c' w') (hanswers : Answers c'.generator.holes [] run.values) :
    Loop.KeepsTo (setup true) ⟨{}, c, workspace⟩ := by
  intro l y run' c₁ w₁ hcourse htries hcode
  cases hcourse with
  | start =>
    obtain ⟨rfl, rfl⟩ := h.unique htries
    exact hanswers
  | round hbefore hturn =>
    have hreplies : y.workspace.replies = [] := by
      rw [(hbefore.round hturn).replies rfl, List.drop_eq_nil_iff, List.length_append, List.length_singleton]
      show 4 ≤ _
      omega
    rw [(htries.replies rfl).1, hreplies] at hcode
    exact absurd hcode (by decide)

end SmallSwitch

end SwitchSynth
