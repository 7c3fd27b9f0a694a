import SwitchSynth.Proofs.Synthesis.Success

/-!
# The course of synthesis

Every round that leads to another one has found values for the holes and a counterexample to them. A course
is the list of these, round by round, between two stands of synthesis. What a round asks for and what it hands on
is said once, and what holds along a course follows by induction.
-/

namespace SwitchSynth

open Formula (Solver Counterexample Quantified)
open Sketch (Generator Generate HoleValue)

/-! ### Printing -/

/-- Nothing but printed text was added. -/
def Workspace.Prints (w w' : Workspace) : Prop :=
  ∃ text, w' = { w with printed := text }

theorem prints : Lasting Workspace.Prints where
  refl w := ⟨w.printed, rfl⟩
  trans := by
    rintro w _ _ ⟨_, rfl⟩ ⟨text, rfl⟩
    exact ⟨text, rfl⟩

namespace Workspace.Prints

variable {w w' : Workspace}

theorem files (h : Prints w w') : w'.files = w.files := by
  obtain ⟨_, rfl⟩ := h
  rfl

theorem replies (h : Prints w w') : w'.replies = w.replies := by
  obtain ⟨_, rfl⟩ := h
  rfl

end Workspace.Prints

theorem Work.say_prints (line : String) : Moves Workspace.Prints (Work.say line) :=
  moves_modify fun w => ⟨w.printed ++ line ++ "\n", rfl⟩

theorem Work.fillIn_prints {α : Type} (zero : α) (names : List String) (values : Table α) :
    Moves Workspace.Prints (fillIn zero values names) := by
  unfold fillIn
  induction names generalizing values with
  | nil => exact prints.pure _
  | cons name rest ih =>
    refine prints.bind ?_ ih
    dsimp only
    split
    · exact prints.pure _
    · exact prints.bind (Work.say_prints _) fun _ => prints.pure _

def filled {α : Type} (zero : α) (values : Table α) (names : List String) : Table α :=
  names.foldl (fun values name => if values.contains name then values else values.insert name zero) values

theorem fillIn_eq {α : Type} {zero : α} {values t : Table α} {names : List String} {w w' : Workspace}
    (h : Ends (fillIn zero values names) w t w') : t = filled zero values names := by
  unfold fillIn at h
  unfold filled
  induction names generalizing values w with
  | nil => exact (ends_pure.1 h).1
  | cons name rest ih =>
    rw [List.foldlM_cons, ends_bind] at h
    obtain ⟨values', w₁, hname, hrest⟩ := h
    rw [List.foldl_cons, ih hrest]
    congr 1
    split at hname
    · next hcontains => rw [if_pos hcontains, (ends_pure.1 hname).1]
    · next hcontains =>
      simp only [ends_bind, ends_pure] at hname
      obtain ⟨_, _, -, rfl, -⟩ := hname
      rw [if_neg hcontains]

/-! ### The sketches of a round -/

namespace Compile

variable {α : Type} {c c' : Compiler} {w w' : Workspace}

@[simp] theorem ends_modify {f : Compiler → Compiler} {u : PUnit} :
    Ends (modify f) c w u c' w' ↔ c' = f c ∧ w' = w := by
  show (((.ok PUnit.unit, f c), w) : (Except Error PUnit × Compiler) × Workspace) =
    ((.ok u, c'), w') ↔ _
  simp only [Prod.mk.injEq, true_and]
  exact ⟨fun h => ⟨h.1.symm, h.2.symm⟩, fun h => ⟨h.1.symm, h.2.symm⟩⟩

/-- The generator works on the files of the workspace, and nothing else changes. -/
@[simp] theorem ends_generating {m : Generate α} {a : α} :
    Ends (generating m) c w a c' w' ↔
      ∃ g, EndsIn m w.files c.generator a g ∧ c' = { c with generator := g } ∧ w' = w := by
  unfold Ends EndsIn SwitchSynth.Ends
  show ((((m.run w.files).run.run c.generator).1,
    { c with generator := ((m.run w.files).run.run c.generator).2 }), w) = ((.ok a, c'), w') ↔ _
  generalize (m.run w.files).run.run c.generator = r
  obtain ⟨r, g⟩ := r
  constructor
  · intro h
    cases h
    exact ⟨g, rfl, rfl, rfl⟩
  · rintro ⟨g', h, rfl, rfl⟩
    cases h
    rfl

def Job.request (j : Job) (o : Compiler.Options) : Generator.Request where
  specFile := o.specFile
  mode := .codegen
  synthesized := o.synthesized
  extraConstraints := j.constraints
  testcases := j.testcases

def checkRequest (o : Compiler.Options) (values : Table HoleValue) : Generator.Request where
  specFile := o.specFile
  mode := .verify
  synthesized := o.synthesized
  values := values.toList.map fun (hole, value) => (hole, value.shown)

/-- The steps of a job: a sketch is generated and written, and the synthesiser answers. If it found values,
they are read off its output. -/
theorem job_inv {j : Job} {run : Run} (h : Ends (job j) c w run c' w') :
    ∃ sketch g w₁ w₂ w₃,
      EndsIn (Generator.sketch (j.request c.options)) w.files c.generator sketch g ∧
      c' = { c with generator := g } ∧
      SwitchSynth.Ends (Work.write j.file sketch) w () w₁ ∧ w₁.Prints w₂ ∧
      SwitchSynth.Ends (Synthesizer.synthesize j.file "2" "1" c.options.parallelSketch) w₂
        (run.code, run.output) w₃ ∧
      SwitchSynth.Ends (Work.write (outputFile j.file) run.output) w₃ () w' ∧
      (run.code = 0 → Sketch.assignment (g.holes.map (·.name)) run.output = .ok run.values) := by
  simp only [job, ends_bind, ends_get, ends_generating, ends_work, say] at h
  obtain ⟨_, c, w, ⟨rfl, rfl, rfl⟩, sketch, _, _, ⟨g, hsketch, rfl, rfl⟩, _, _, _, ⟨hwrite, rfl⟩, _, _, w₁,
    ⟨rfl, rfl, rfl⟩, _, _, w₂, ⟨hbits, rfl⟩, _, _, w₃, ⟨hfile, rfl⟩, ⟨code, output⟩, _, w₄,
    ⟨hsynthesize, rfl⟩, _, _, w₅, ⟨houtput, rfl⟩, h⟩ := h
  have hprints : Workspace.Prints w₁ w₃ :=
    prints.trans ((Work.say_prints _).related hbits) ((Work.say_prints _).related hfile)
  split at h
  · next hcode =>
    simp only [ends_bind, ends_get, ends_work, ends_pure, Work.ends_ofExcept] at h
    obtain ⟨_, _, _, ⟨rfl, rfl, rfl⟩, values, _, _, ⟨⟨hvalues, rfl⟩, rfl⟩, rfl, rfl, rfl⟩ := h
    exact ⟨sketch, g, w₁, w₃, w₄, hsketch, rfl, hwrite, hprints, hsynthesize, houtput, fun _ => hvalues⟩
  · next hcode =>
    simp only [ends_bind, ends_pure] at h
    obtain ⟨_, _, _, ⟨rfl, rfl, rfl⟩, rfl, rfl, rfl⟩ := h
    exact ⟨sketch, g, w₁, w₃, w₄, hsketch, rfl, hwrite, hprints, hsynthesize, houtput,
      fun hzero => absurd hzero hcode⟩

/-- The steps of a question: every hole has a value, a sketch with the values is generated and written, and the
synthesiser gives its circuit. -/
theorem question_inv {values : Table HoleValue} {inputBits : Int} {iteration : String} {f : Quantified}
    (h : Ends (question values inputBits iteration) c w f c' w') :
    ∃ sketch g w₁ circuit,
      (∀ hole ∈ c.generator.holes, values.contains hole.name = true) ∧
      EndsIn (Generator.sketch (checkRequest c.options values)) w.files c.generator sketch g ∧
      c' = { c with generator := g } ∧
      SwitchSynth.Ends (Work.write (plainPath (c.options.sketchName ++ "_verify_iter_" ++ iteration ++ ".sk"))
        sketch) w () w₁ ∧
      SwitchSynth.Ends (Synthesizer.circuit (c.options.sketchName ++ "_verify_iter_" ++ iteration ++ ".sk"))
        w₁ circuit w' := by
  simp only [question, ends_bind, ends_get, ends_generating, ends_work, Work.ends_ofExcept] at h
  obtain ⟨_, _, _, ⟨rfl, rfl, rfl⟩, _, _, w₀, ⟨hrequire, rfl⟩, sketch, _, _, ⟨g, hsketch, rfl, rfl⟩, _, _, w₁,
    ⟨hwrite, rfl⟩, circuit, _, w₂, ⟨hcircuit, rfl⟩, ⟨-, rfl⟩, rfl⟩ := h
  unfold Work.require at hrequire
  split at hrequire
  · next hall =>
    obtain ⟨-, rfl⟩ := SwitchSynth.ends_pure.1 hrequire
    exact ⟨sketch, g, w₁, circuit, fun hole hmem => List.all_eq_true.1 hall hole hmem, hsketch, rfl, hwrite,
      hcircuit⟩
  · exact absurd hrequire SwitchSynth.ends_throw

theorem judge_inv {verdict : Formula.Verdict} {found : Counterexample}
    (h : Ends (judge verdict) c w found c' w') :
    c' = c ∧ w.Prints w' ∧
      (found.isEmpty = false → ∃ model, verdict = .sat model ∧ found = Counterexample.ofValues model) := by
  have hnone {line : String} (h : Ends (say line >>= fun _ => pure {}) c w found c' w') :
      c' = c ∧ w.Prints w' ∧ found = {} := by
    simp only [ends_bind, ends_pure, say, ends_work] at h
    obtain ⟨_, _, _, ⟨hsay, rfl⟩, rfl, rfl, rfl⟩ := h
    exact ⟨rfl, (Work.say_prints _).related hsay, rfl⟩
  cases verdict with
  | sat model =>
    obtain ⟨rfl, rfl, rfl⟩ := ends_pure.1 h
    exact ⟨rfl, prints.refl w', fun _ => ⟨model, rfl, rfl⟩⟩
  | unsat =>
    obtain ⟨hc, hprints, rfl⟩ := hnone h
    exact ⟨hc, hprints, fun hfound => absurd hfound (by decide)⟩
  | unknown =>
    obtain ⟨hc, hprints, rfl⟩ := hnone h
    exact ⟨hc, hprints, fun hfound => absurd hfound (by decide)⟩

theorem forM_say_inv {γ : Type} {xs : List γ} {line : γ → String} {u : PUnit}
    (h : Ends (xs.forM fun x => say (line x)) c w u c' w') : c' = c := by
  induction xs generalizing c w with
  | nil => exact (ends_pure.1 h).2.1
  | cons x xs ih =>
    obtain ⟨_, c₁, w₁, hsay, hrest⟩ := ends_bind.1 h
    rw [ih hrest]
    exact (ends_work.1 hsay).2

theorem attempt_inv {j : Job} {r : Except Error Run} (h : Ends (attempt j) c w r c' w') :
    c' = c ∧ ∀ run, r = .ok run → ∃ c₁, Ends (job j) c w run c₁ w' := by
  have hr : ((job j).run.run c w).1.1 = r := Except.ok.inj (congrArg (fun x => x.1.1) h)
  have hw : ((job j).run.run c w).2 = w' := congrArg (fun x => x.2) h
  refine ⟨(congrArg (fun x => x.1.2) h).symm, fun run hrun => ⟨((job j).run.run c w).1.2, ?_⟩⟩
  rw [Ends, ← hw, ← hrun, ← hr]
  rfl

variable {results : List (Except Error Run)} {found : Option Run}

/-- Attempts one after the other keep the compiler, and each result is that of one of the jobs. -/
theorem attempts_inv {γ : Type} {xs : List γ} {jobOf : γ → Job}
    (h : Ends (xs.mapM fun x => attempt (jobOf x)) c w results c' w') :
    c' = c ∧ ∀ run, .ok run ∈ results → ∃ x ∈ xs, ∃ w₁ c₂ w₂, Ends (job (jobOf x)) c w₁ run c₂ w₂ := by
  induction xs generalizing c w results with
  | nil =>
    obtain ⟨rfl, rfl, rfl⟩ := ends_pure.1 h
    exact ⟨rfl, fun run hrun => absurd hrun List.not_mem_nil⟩
  | cons x xs ih =>
    simp only [List.mapM_cons, ends_bind, ends_pure] at h
    obtain ⟨r, c₁, w₁, hx, rest, c₂, w₂, hxs, rfl, rfl, rfl⟩ := h
    obtain ⟨rfl, hfirst⟩ := attempt_inv hx
    obtain ⟨rfl, hrest⟩ := ih hxs
    refine ⟨rfl, fun run hrun => ?_⟩
    rcases List.mem_cons.1 hrun with hr | hr
    · obtain ⟨c₃, hjob⟩ := hfirst run hr.symm
      exact ⟨x, List.mem_cons_self, w, c₃, w₁, hjob⟩
    · obtain ⟨x', hx', hjob⟩ := hrest run hr
      exact ⟨x', List.mem_cons_of_mem x hx', hjob⟩

theorem settle_inv {last : Option Run}
    (h : Ends (settle last results) c w found c' w') :
    c' = c ∧ (found = last ∨ ∃ run, found = some run ∧ .ok run ∈ results) := by
  induction results generalizing last c w with
  | nil =>
    obtain ⟨rfl, rfl, -⟩ := ends_pure.1 h
    exact ⟨rfl, .inl rfl⟩
  | cons r rest ih =>
    cases r with
    | error e => exact absurd h ends_throw
    | ok first =>
      unfold settle at h
      split at h
      · simp only [ends_bind, ends_pure, say, ends_work] at h
        obtain ⟨_, _, _, ⟨-, rfl⟩, rfl, rfl, -⟩ := h
        exact ⟨rfl, .inr ⟨first, rfl, List.mem_cons_self⟩⟩
      · obtain ⟨_, c₁, w₁, hsay, hrest⟩ := ends_bind.1 h
        obtain ⟨rfl, hfound⟩ := ih hrest
        refine ⟨(ends_work.1 hsay).2, ?_⟩
        rcases hfound with rfl | ⟨run, rfl, hmem⟩
        · exact .inr ⟨first, rfl, List.mem_cons_self⟩
        · exact .inr ⟨run, rfl, List.mem_cons_of_mem _ hmem⟩

/-- Jobs side by side keep the compiler, and what comes of them is what came of one of them. -/
theorem parallel_inv {constraints : List String} {testcases : String}
    (h : Ends (parallel constraints testcases) c w found c' w') :
    c' = c ∧ ∀ run, found = some run → ∃ x ∈ placementJobs c constraints testcases, ∃ w₁ c₂ w₂,
      Ends (job x.2.2) c w₁ run c₂ w₂ := by
  simp only [parallel, ends_bind, ends_get] at h
  obtain ⟨_, c, w, ⟨rfl, rfl, rfl⟩, _, c₁, w₁, hsay, h⟩ := h
  obtain rfl := forM_say_inv hsay
  split at h
  · simp only [ends_bind, ends_throw, false_and, exists_false] at h
  · obtain ⟨results, c₂, w₂, hattempts, hsettle⟩ := ends_bind.1 h
    obtain ⟨rfl, hresults⟩ := attempts_inv hattempts
    obtain ⟨rfl, hfound⟩ := settle_inv hsettle
    refine ⟨rfl, fun run hrun => ?_⟩
    rcases hfound with rfl | ⟨run', rfl, hmem⟩
    · cases hrun
    · exact hresults run (Option.some.inj hrun ▸ hmem)

end Compile

/-! ### Rounds and what they hand on -/

namespace Loop

variable {s : Setup} {x y z : Stand} {c c' : Compiler} {w w' : Workspace}

/-- What is asked of the synthesiser in a round. -/
def jobs (s : Setup) (x : Stand) : List Compile.Job :=
  if s.arguments.parallel then
    (Compile.placementJobs x.compiler x.progress.constraints x.progress.testcases).map fun j => j.2.2
  else
    [⟨x.progress.constraints, x.progress.testcases,
      x.compiler.options.sketchName ++ "_codegen_iteration_" ++ toString x.progress.round ++ ".sk"⟩]

theorem testcases_of_mem_jobs {j : Compile.Job} (h : j ∈ jobs s x) :
    j.testcases = x.progress.testcases := by
  unfold jobs Compile.placementJobs at h
  split at h
  · simp only [List.map_map, List.mem_map] at h
    obtain ⟨_, -, rfl⟩ := h
    rfl
  · rw [List.mem_singleton.1 h]

variable {run : Compile.Run} {found : Counterexample} {p next : Progress} {f : Quantified}
  {h : List (Compile.Run × Counterexample)}

/-- The result of a round's jobs is that of one of them. The compiler is the one that this job has left, or, if
the jobs were done side by side, the one that they started from. -/
theorem candidate_inv
    (h : Compile.Ends (candidate s x.progress) x.compiler w run c' w') :
    ∃ j ∈ jobs s x, ∃ w₁ c₂ w₂, Compile.Ends (Compile.job j) x.compiler w₁ run c₂ w₂ ∧
      c' = (if s.arguments.parallel then x.compiler else c₂) ∧ (s.arguments.parallel = false → w₁ = w) := by
  unfold candidate at h
  unfold jobs
  split at h
  · next hparallel =>
    obtain ⟨found, c₁, w₁, hjobs, h⟩ := Compile.ends_bind.1 h
    obtain ⟨rfl, hfound⟩ := Compile.parallel_inv hjobs
    cases found with
    | none => exact absurd h Compile.ends_throw
    | some run' =>
      obtain ⟨rfl, rfl, rfl⟩ := Compile.ends_pure.1 h
      obtain ⟨j, hj, w₂, c₃, w₃, hjob⟩ := hfound _ rfl
      simp only [hparallel, if_true]
      exact ⟨j.2.2, List.mem_map_of_mem hj, w₂, c₃, w₃, hjob, trivial, fun h => nomatch h⟩
  · next hparallel =>
    simp only [Compile.serial, Compile.ends_bind, Compile.ends_get] at h
    obtain ⟨_, _, _, ⟨rfl, rfl, rfl⟩, hjob⟩ := h
    rw [if_neg hparallel]
    exact ⟨_, List.mem_singleton.2 rfl, _, c', w', hjob, (if_neg hparallel).symm, fun _ => rfl⟩

/-! ### What is learnt -/

def learntConstants (c : Compiler) (found : Counterexample) : List String :=
  addConstants c.constants ((found.packetFields.values ++ found.states.values).map toString)

/-- The compiler behind a round with a counterexample: it has more constants, and so have its sketches. -/
def learntCompiler (c : Compiler) (found : Counterexample) (bits : Nat) : Compiler :=
  { c with
    constants := learntConstants c found
    generator := { c.generator with constants := ⟨learntConstants c found, false⟩, constantBits := bits } }

def testcaseOf (s : Setup) (round : Nat) (found : Counterexample) : Testcase where
  number := round
  fields := (filled 0 found.packetFields s.inputs.fieldNames).toList.map fun (k, v) => (k, toString v)
  states := (filled 0 found.states s.inputs.stateNames).toList.map fun (k, v) => (k, toString v)
  compared := .ofChoice (s.arguments.outputFields.map fun l => l.map toString)
    (s.arguments.outputGroups.map fun l => l.map toString) s.groupSize

theorem learnConstants_inv (h : Compile.Ends (learnConstants found) c w () c' w') :
    ∃ bits, Sketch.bitWidth (learntConstants c found).length = .ok bits ∧ c' = learntCompiler c found bits ∧
      w.Prints w' := by
  simp only [learnConstants, Compile.ends_bind, Compile.ends_modify, Compile.ends_get, Compile.say,
    Compile.ends_work, Compile.updateConstants, Compile.ends_generating, Generator.updateConstants,
    endsIn_bind, endsIn_modify] at h
  obtain ⟨_, _, _, ⟨rfl, rfl⟩, _, _, _, ⟨rfl, rfl, rfl⟩, _, _, w₁, ⟨hsay, rfl⟩, g, ⟨_, g₁, rfl, hbits⟩, rfl,
    rfl⟩ := h
  split at hbits
  · next bits hwidth =>
    obtain rfl := endsIn_modify.1 hbits
    exact ⟨bits, hwidth, rfl, (Work.say_prints _).related hsay⟩
  · exact absurd hbits endsIn_throw

theorem testcase_inv {n : Nat} {t : Testcase}
    (h : Compile.Ends (testcase s n found) c w t c' w') : t = testcaseOf s n found ∧ c' = c ∧ w.Prints w' := by
  simp only [testcase, Compile.ends_bind, Compile.ends_work, Compile.ends_pure] at h
  obtain ⟨fields, _, w₁, ⟨hfields, rfl⟩, states, _, w₂, ⟨hstates, rfl⟩, rfl, rfl, rfl⟩ := h
  obtain rfl := fillIn_eq hfields
  obtain rfl := fillIn_eq hstates
  exact ⟨rfl, rfl, prints.trans ((Work.fillIn_prints _ _ _).related hfields)
    ((Work.fillIn_prints _ _ _).related hstates)⟩

/-- With elimination, a round hands on the constraints that exclude what it has found, and nothing else. -/
theorem learn_constraints
    (helimination : s.arguments.holeElimination = true)
    (h : Compile.Ends (learn s p run found) c w next c' w') :
    ∃ new, Elimination.constraints run.values = .ok new ∧
      next = { p with round := p.round + 1, constraints := p.constraints ++ new } ∧ c' = c ∧ w' = w := by
  rw [learn, if_pos helimination] at h
  simp only [Compile.ends_bind, Compile.ends_work, Compile.ends_pure, Work.ends_ofExcept] at h
  obtain ⟨new, _, _, ⟨⟨hnew, rfl⟩, rfl⟩, rfl, rfl, rfl⟩ := h
  exact ⟨new, hnew, rfl, rfl, rfl⟩

/-- Without elimination, a round hands on a test case, and a compiler with more constants. -/
theorem learn_testcase
    (helimination : s.arguments.holeElimination = false)
    (h : Compile.Ends (learn s p run found) c w next c' w') :
    ∃ bits, Sketch.bitWidth (learntConstants c found).length = .ok bits ∧
      next = { p with round := p.round + 1, testcases := p.testcases ++ (testcaseOf s p.round found).text } ∧
      c' = learntCompiler c found bits ∧ w.Prints w' := by
  rw [learn, if_neg (by simp [helimination])] at h
  simp only [Compile.ends_bind, Compile.ends_pure, Compile.say, Compile.ends_work] at h
  obtain ⟨_, _, w₁, ⟨hsay, rfl⟩, _, c₁, w₂, hconstants, t, c₂, w₃, htestcase, rfl, rfl, rfl⟩ := h
  obtain ⟨bits, hbits, rfl, hprints⟩ := learnConstants_inv hconstants
  obtain ⟨rfl, rfl, hprints'⟩ := testcase_inv htestcase
  exact ⟨bits, hbits, rfl, rfl, prints.trans ((Work.say_prints _).related hsay) (prints.trans hprints hprints')⟩

/-! ### Courses -/

/-- In a round the synthesiser is asked for values of the holes, and answers. -/
def Tries (s : Setup) (x : Stand) (run : Compile.Run) (c : Compiler) (w : Workspace) : Prop :=
  ∃ w₀, Ends (Work.say ("Iteration #" ++ toString x.progress.round)) x.workspace () w₀ ∧
    Compile.Ends (candidate s x.progress) x.compiler w₀ run c w

theorem Tries.unique {run' : Compile.Run} (h : Tries s x run c w) (h' : Tries s x run' c' w') :
    run' = run ∧ c' = c := by
  obtain ⟨w₀, hline, hrun⟩ := h
  obtain ⟨w₀', hline', hrun'⟩ := h'
  obtain rfl : w₀ = w₀' := congrArg Prod.snd (hline.symm.trans hline')
  have heq := hrun'.symm.trans hrun
  exact ⟨Except.ok.inj (congrArg (fun r => r.1.1) heq), congrArg (fun r => r.1.2) heq⟩

theorem Asks.tries (h : Asks s x run f c w) :
    ∃ c₁ w₁ w₂, Tries s x run c₁ w₁ ∧ run.code = 0 ∧ w₁.Prints w₂ ∧
      Compile.Ends (Compile.question run.values s.arguments.inputBits (toString x.progress.round)) c₁ w₂ f c w := by
  obtain ⟨w₀, c₁, w₁, w₂, hline, hcandidate, hcode, hsay, hquestion⟩ := h
  exact ⟨c₁, w₁, w₂, ⟨w₀, hline, hcandidate⟩, hcode, (Work.say_prints _).related hsay, hquestion⟩

/-- The generator behind a round's jobs: side by side, each of them has a generator of its own. -/
def generatorBehind (s : Setup) (x : Stand) (g : Generator) : Generator :=
  if s.arguments.parallel then x.compiler.generator else g

theorem Tries.sketch (h : Tries s x run c w) :
    ∃ j ∈ jobs s x, ∃ files p g,
      EndsIn (Generator.program (j.request x.compiler.options)) files x.compiler.generator p g ∧
      c = { x.compiler with generator := generatorBehind s x g } ∧
      (run.code = 0 → Sketch.assignment (g.holes.map (·.name)) run.output = .ok run.values) ∧
      (s.arguments.parallel = false → files = x.workspace.files) := by
  obtain ⟨w₀, hline, hcandidate⟩ := h
  have hprints : x.workspace.Prints w₀ := (Work.say_prints _).related hline
  obtain ⟨j, hj, w₁, c₂, w₂, hjob, hc, hserial⟩ := candidate_inv hcandidate
  obtain ⟨text, g, _, _, _, hsketch, rfl, -, -, -, -, hvalues⟩ := Compile.job_inv hjob
  simp only [Generator.sketch, endsIn_bind, endsIn_pure] at hsketch
  obtain ⟨p, _, hprogram, -, rfl⟩ := hsketch
  refine ⟨j, hj, w₁.files, p, _, hprogram, ?_, hvalues, fun hone => ?_⟩
  · rw [hc, generatorBehind]
    split
    · rfl
    · rfl
  · rw [hserial hone, hprints.files]

/-- Jobs that are not done side by side are one job, which is done with the compiler itself. -/
theorem Tries.serial (hserial : s.arguments.parallel = false) (h : Tries s x run c w) :
    ∃ j w₀, jobs s x = [j] ∧ x.workspace.Prints w₀ ∧ Compile.Ends (Compile.job j) x.compiler w₀ run c w := by
  obtain ⟨w₀, hline, hcandidate⟩ := h
  rw [candidate, if_neg (by simp [hserial])] at hcandidate
  simp only [Compile.serial, Compile.ends_bind, Compile.ends_get] at hcandidate
  obtain ⟨_, _, w₁, ⟨rfl, rfl, rfl⟩, hjob⟩ := hcandidate
  exact ⟨_, w₁, if_neg (by simp [hserial]), (Work.say_prints _).related hline, hjob⟩

theorem Tries.replies (hserial : s.arguments.parallel = false) (h : Tries s x run c w) :
    run.code = (x.workspace.replies.tail.headD {}).code ∧ w.replies = x.workspace.replies.tail.tail := by
  obtain ⟨j, w₀, -, hprints, hjob⟩ := h.serial hserial
  obtain ⟨_, _, w₁, w₂, w₃, -, -, hwrite, hprints', hsynthesize, houtput, -⟩ := Compile.job_inv hjob
  obtain ⟨_, -, rfl⟩ := Work.write_inv hwrite
  obtain ⟨_, -, rfl⟩ := Work.write_inv houtput
  obtain ⟨hcode, hreplies⟩ := Synthesizer.synthesize_replies hsynthesize
  have hfirst : w₂.replies = x.workspace.replies := hprints'.replies.trans hprints.replies
  rw [hfirst] at hcode hreplies
  exact ⟨hcode, hreplies⟩

theorem Asks.sketch (h : Asks s x run f c w) :
    ∃ c₁ w₁ p g, Tries s x run c₁ w₁ ∧ run.code = 0 ∧
      (∀ hole ∈ c₁.generator.holes, run.values.contains hole.name = true) ∧
      EndsIn (Generator.program (Compile.checkRequest c₁.options run.values)) w₁.files c₁.generator p g ∧
      c = { c₁ with generator := g } := by
  obtain ⟨c₁, w₁, w₂, htries, hcode, hprints, hquestion⟩ := h.tries
  obtain ⟨text, g, _, _, hvalues, hsketch, rfl, -, -⟩ := Compile.question_inv hquestion
  simp only [Generator.sketch, endsIn_bind, endsIn_pure] at hsketch
  obtain ⟨p, _, hprogram, -, rfl⟩ := hsketch
  rw [hprints.files] at hprogram
  exact ⟨c₁, w₁, p, _, htries, hcode, hvalues, hprogram, rfl⟩

/-- In a round values are found for the holes and the solver has a counterexample to them, and the next round starts
from what is learnt of it. -/
def Turns (s : Setup) (x : Stand) (run : Compile.Run) (found : Counterexample) (y : Stand) : Prop :=
  ∃ f c₁ w₁ w₂, Asks s x run f c₁ w₁ ∧
    (∃ model, s.solver x.progress.round f = .sat model ∧ found = Counterexample.ofValues model) ∧
    found.isEmpty = false ∧ w₁.Prints w₂ ∧
    Compile.Ends (learn s x.progress run found) c₁ w₂ y.progress y.compiler y.workspace

theorem turns_of_ends (h : Compile.Ends (round s x.progress) x.compiler x.workspace (.inr y.progress)
    y.compiler y.workspace) : ∃ run found, Turns s x run found y := by
  rcases round_ends_iff.1 h with ⟨_, _, _, _, _, _, _, _, _, h, _⟩ |
    ⟨run, f, c₁, w₁, found, c₂, w₂, hasks, hjudge, h⟩
  · exact nomatch h
  · rcases h with ⟨-, -, h⟩ | ⟨hempty, c₃, w₃, next, hsay, hlearn, hnext⟩
    · exact nomatch h
    · obtain ⟨rfl, hprints, hmodel⟩ := Compile.judge_inv hjudge
      obtain ⟨hline, rfl⟩ := Compile.ends_work.1 hsay
      obtain rfl := Sum.inr.inj hnext
      exact ⟨run, found, f, _, w₁, w₃, hasks, hmodel hempty, hempty,
        prints.trans hprints ((Work.say_prints _).related hline), hlearn⟩

/-- A round with one job that leads to another one takes four replies. -/
theorem Turns.replies (hserial : s.arguments.parallel = false)
    (h : Turns s x run found y) : y.workspace.replies = x.workspace.replies.drop 4 := by
  obtain ⟨f, c₂, w₂, w₃, hasks, -, -, hprints, hlearn⟩ := h
  obtain ⟨c₁, w₁, w₄, htries, -, hprints', hquestion⟩ := hasks.tries
  obtain ⟨_, _, w₅, _, -, -, -, hwrite, hcircuit⟩ := Compile.question_inv hquestion
  obtain ⟨_, -, rfl⟩ := Work.write_inv hwrite
  have hlearnt : y.workspace.replies = w₃.replies := by
    cases helimination : s.arguments.holeElimination with
    | true =>
      obtain ⟨_, -, -, -, hworkspace⟩ := learn_constraints helimination hlearn
      rw [hworkspace]
    | false =>
      obtain ⟨_, -, -, -, hprints''⟩ := learn_testcase helimination hlearn
      exact hprints''.replies
  have hchecked := Synthesizer.circuit_replies hcircuit
  dsimp only at hchecked
  rw [hlearnt, hprints.replies, hchecked, hprints'.replies, (htries.replies hserial).2]
  simp only [← List.drop_one, List.drop_drop]

/-- The rounds between two stands: what the synthesiser found in each of them, and the counterexample to it. -/
inductive Course (s : Setup) (x : Stand) : List (Compile.Run × Counterexample) → Stand → Prop
  | start : Course s x [] x
  | round {h : List (Compile.Run × Counterexample)} {y z : Stand} {run : Compile.Run} {found : Counterexample} :
      Course s x h y → Turns s y run found z → Course s x (h ++ [(run, found)]) z

theorem Course.cons
    (hfirst : Turns s x run found y) (hrest : Course s y h z) : Course s x ((run, found) :: h) z := by
  induction hrest with
  | start => exact .round .start hfirst
  | round _ hturn ih => exact .round ih hturn

theorem Course.replies (hserial : s.arguments.parallel = false)
    (hcourse : Course s x h y) : y.workspace.replies = x.workspace.replies.drop (4 * h.length) := by
  induction hcourse with
  | start => rfl
  | round _ hturn ih =>
    rw [hturn.replies hserial, ih, List.drop_drop, List.length_append, List.length_singleton, Nat.mul_add]

/-- The round from a stand is the last one, and gives an exit code or an error. -/
def Finishes (s : Setup) (x : Stand) (r : Except Error Int) (c : Compiler) (w : Workspace) : Prop :=
  ((round s x.progress).run.run x.compiler).run x.workspace = ((r.map Sum.inl, c), w)

theorem rounds_finish {fuel : Nat} (hfuel : w.replies.length < fuel) :
    ∃ h y r c' w', Course s ⟨p, c, w⟩ h y ∧ Finishes s y r c' w' ∧
      ((rounds s fuel p).run.run c).run w = ((r, c'), w') := by
  induction fuel generalizing p c w with
  | zero => exact absurd hfuel (Nat.not_lt_zero _)
  | succ fuel ih =>
    rw [rounds, ExceptT.run_bind, StateT.run_bind, StateT.run_bind]
    generalize hround : ((round s p).run.run c).run w = result
    obtain ⟨⟨result, c₁⟩, w₁⟩ := result
    cases result with
    | error e => exact ⟨[], ⟨p, c, w⟩, .error e, c₁, w₁, .start, hround, rfl⟩
    | ok r =>
      cases r with
      | inl code => exact ⟨[], ⟨p, c, w⟩, .ok code, c₁, w₁, .start, hround, rfl⟩
      | inr next =>
        -- The round has used a reply, so one round less is still enough.
        have hreplies : w₁.replies.length < w.replies.length := round_uses_reply hround
        obtain ⟨run, found, hturn⟩ := turns_of_ends (x := ⟨p, c, w⟩) (y := ⟨next, c₁, w₁⟩) hround
        obtain ⟨h, y, r, c', w', hcourse, hlast, hrest⟩ := ih (p := next) (c := c₁) (w := w₁) (by omega)
        exact ⟨(run, found) :: h, y, r, c', w', hcourse.cons hturn, hlast, hrest⟩

end Loop

/-- Synthesis that starts is a course and a last round, which gives the exit code or the error of the whole. -/
theorem synthesize_finishes {solver : Nat → Solver} {a : Arguments} {w : Workspace} {s : Loop.Setup} {c : Compiler}
    (hstarts : Loop.Starts solver a w s c) :
    ∃ h y r c' w', Loop.Course s ⟨{}, c, w⟩ h y ∧ Loop.Finishes s y r c' w' ∧
      (synthesize solver a).run.run w = (r, w') := by
  obtain ⟨h, y, r, c', w', hcourse, hlast, hrounds⟩ :=
    Loop.rounds_finish (s := s) (c := c) (p := {}) (Nat.lt_succ_self w.replies.length)
  refine ⟨h, y, r, c', w', hcourse, hlast, ?_⟩
  obtain ⟨spec, fields, group, states, rest, hspec, hfields, hgroups, hcreate, rfl⟩ := hstarts
  have hread : Ends (Work.readText a.specFile) w spec w := by
    simp only [Work.readText, ends_bind, ends_get, Work.ends_ofExcept]
    exact ⟨w, w, ⟨rfl, rfl⟩, hspec, rfl⟩
  have hcount : Ends (Work.ofExcept (Spec.fieldCount spec)) w fields w := Work.ends_ofExcept.2 ⟨hfields, rfl⟩
  have hcompiler : Ends (Work.ofExcept (Compiler.create (a.options states.length) w.files)) w c w :=
    Work.ends_ofExcept.2 ⟨hcreate, rfl⟩
  have hget : Ends (get : Work Workspace) w w w := ends_get.2 ⟨rfl, rfl⟩
  rw [synthesize, hread.run_bind, hcount.run_bind, hgroups]
  dsimp only
  rw [hget.run_bind, hcompiler.run_bind, hget.run_bind]
  have hdrop (m : Compile Int) {f : Except Error Int × Compiler → StateM Workspace (Except Error Int)}
      (hf : ∀ x, f x = pure x.1) : (ExceptT.mk (m.run.run c >>= f) : Work Int).run.run w =
        (((m.run.run c).run w).1.1, ((m.run.run c).run w).2) := by
    rw [funext hf]
    rfl
  rw [hdrop _ fun _ => rfl, hrounds]

end SwitchSynth
