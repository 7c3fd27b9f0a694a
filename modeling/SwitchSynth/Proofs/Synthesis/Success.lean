import SwitchSynth.Proofs.Synthesis.Replies
import SwitchSynth.Proofs.Table
import SwitchSynth.Synthesis.Loop

/-!
# When synthesis reports success

Synthesis reports success in the round in which no counterexample is seen. A verdict of the solver shows
none if it is that there are no values, but also if the solver gives up, and if the values that it gives
belong to no packet field and to no state. These three are exactly the verdicts that end synthesis with
exit code zero.
-/

namespace SwitchSynth

open Formula (Solver Verdict Counterexample Subject Quantified)

/-! ### Verdicts that show no counterexample -/

namespace Formula

theorem Counterexample.isEmpty_add (c : Counterexample) (x : String × Int) :
    (c.add x).isEmpty = true ↔ c.isEmpty = true ∧ Subject.ofVariable? x.1 = none := by
  unfold Counterexample.add
  split
  · rename_i name hname
    simp [Counterexample.isEmpty, Table.size_insert_ne_zero, hname]
  · rename_i name hname
    simp [Counterexample.isEmpty, Table.size_insert_ne_zero, hname]
  · rename_i hname
    simp [hname]

/-- Values that belong to no packet field and to no state are no counterexample. -/
theorem Counterexample.ofValues_isEmpty_iff (model : List (String × Int)) :
    (Counterexample.ofValues model).isEmpty = true ↔
      ∀ x ∈ model, Subject.ofVariable? x.1 = none := by
  have hfold : ∀ c : Counterexample, (model.foldl Counterexample.add c).isEmpty = true ↔
      c.isEmpty = true ∧ ∀ x ∈ model, Subject.ofVariable? x.1 = none := by
    induction model with
    | nil => simp
    | cons x rest ih =>
      intro c
      rw [List.foldl_cons, ih, Counterexample.isEmpty_add, List.forall_mem_cons, and_assoc]
  rw [Counterexample.ofValues, hfold]
  exact ⟨fun h => h.2, fun h => ⟨rfl, h⟩⟩

/-- The verdicts in which no counterexample is seen. -/
inductive Verdict.Accepted : Verdict → Prop
  /-- There is none. -/
  | unsat : Accepted .unsat
  /-- The solver gave up. -/
  | unknown : Accepted .unknown
  /-- There are values, but they belong to no packet field and to no state. -/
  | nameless {model : List (String × Int)} :
      (∀ x ∈ model, Subject.ofVariable? x.1 = none) → Accepted (.sat model)

end Formula

variable {c : Compiler} {w w' : Workspace}

theorem Compile.judge_isEmpty_iff {verdict : Verdict} {c' : Compiler}
    {found : Counterexample} (h : Compile.Ends (Compile.judge verdict) c w found c' w') :
    found.isEmpty = true ↔ verdict.Accepted := by
  cases verdict with
  | sat model =>
    obtain ⟨rfl, -, -⟩ := Compile.ends_pure.1 h
    rw [Counterexample.ofValues_isEmpty_iff]
    exact ⟨.nameless, fun h => by cases h; assumption⟩
  | unsat =>
    simp only [Compile.judge, Compile.ends_bind, Compile.ends_pure] at h
    obtain ⟨_, _, _, _, rfl, _, _⟩ := h
    exact ⟨fun _ => .unsat, fun _ => rfl⟩
  | unknown =>
    simp only [Compile.judge, Compile.ends_bind, Compile.ends_pure] at h
    obtain ⟨_, _, _, _, rfl, _, _⟩ := h
    exact ⟨fun _ => .unknown, fun _ => rfl⟩

/-! ### Rounds -/

namespace Loop

variable {s : Setup} {p : Progress} {c c' : Compiler} {w w' : Workspace}

/-- Where synthesis stands before a round. -/
structure Stand where
  progress : Progress
  compiler : Compiler
  workspace : Workspace

/-- Rounds lead from one stand to another. -/
inductive Leads (s : Setup) : Stand → Stand → Prop
  | refl (x : Stand) : Leads s x x
  | step {x y z : Stand} :
      Compile.Ends (round s x.progress) x.compiler x.workspace (.inr y.progress) y.compiler
        y.workspace →
      Leads s y z → Leads s x z

/-- In a round the synthesiser finds values of the holes, and the formula which says that they are right is
put to the solver. -/
def Asks (s : Setup) (x : Stand) (run : Compile.Run) (f : Quantified) (c : Compiler)
    (w : Workspace) : Prop :=
  ∃ w₀ c₁ w₁ w₂,
    Ends (Work.say ("Iteration #" ++ toString x.progress.round)) x.workspace () w₀ ∧
    Compile.Ends (candidate s x.progress) x.compiler w₀ run c₁ w₁ ∧
    run.code = 0 ∧
    Ends (Work.say "Synthesis succeeded with 2 bits, proceeding to verification.") w₁ () w₂ ∧
    Compile.Ends (Compile.question run.values s.arguments.inputBits (toString x.progress.round))
      c₁ w₂ f c w

/-- What is left to do in a round in which no counterexample is seen: it is said that the solver gave none,
and success is reported. -/
def concludes (s : Setup) (run : Compile.Run) (verdict : Verdict) : Compile Unit := do
  let _ ← Compile.judge verdict
  succeed s run

/-- The two ways in which a round goes on after the synthesiser: it failed, or the solver is asked. -/
theorem round_ends_iff {r : Int ⊕ Progress} :
    Compile.Ends (round s p) c w r c' w' ↔
      (∃ w₀ run c₁ w₁ w₂, Ends (Work.say ("Iteration #" ++ toString p.round)) w () w₀ ∧
        Compile.Ends (candidate s p) c w₀ run c₁ w₁ ∧ run.code ≠ 0 ∧
        Ends (Report.failure s.arguments.sketchName run.output) w₁ () w₂ ∧
        r = .inl 1 ∧ c' = c₁ ∧ w' = w₂) ∨
      (∃ run f c₁ w₁ found c₂ w₂, Asks s ⟨p, c, w⟩ run f c₁ w₁ ∧
        Compile.Ends (Compile.judge (s.solver p.round f)) c₁ w₁ found c₂ w₂ ∧
        ((found.isEmpty = true ∧ Compile.Ends (succeed s run) c₂ w₂ () c' w' ∧ r = .inl 0) ∨
          (found.isEmpty = false ∧ ∃ c₃ w₃ next,
            Compile.Ends (Compile.say "Verification failed.") c₂ w₂ () c₃ w₃ ∧
            Compile.Ends (learn s p run found) c₃ w₃ next c' w' ∧ r = .inr next))) := by
  unfold round
  -- The branches of a round: synthesis failed, no counterexample is seen, or one is learned from.
  constructor
  · intro h
    simp only [Compile.ends_bind, Compile.say, Compile.ends_work] at h
    obtain ⟨_, _, w₀, ⟨hsay, rfl⟩, run, c₁, w₁, hcandidate, h⟩ := h
    split at h
    · rename_i hcode
      simp only [Compile.ends_bind, Compile.ends_work, Compile.ends_pure] at h
      obtain ⟨_, _, w₂, ⟨hfailure, rfl⟩, rfl, rfl, rfl⟩ := h
      exact .inl ⟨w₀, run, _, w₁, _, hsay, hcandidate, hcode, hfailure, rfl, rfl, rfl⟩
    · rename_i hcode
      simp only [Compile.ends_bind, Compile.ends_work, Compile.verify] at h
      obtain ⟨_, _, w₂, ⟨hsay', rfl⟩, found, c₄, w₄, ⟨f, c₃, w₃, hquestion, hjudge⟩, h⟩ := h
      refine .inr ⟨run, f, c₃, w₃, found, c₄, w₄, ?_, hjudge, ?_⟩
      · exact ⟨w₀, _, w₁, w₂, hsay, hcandidate, Decidable.not_not.1 hcode, hsay', hquestion⟩
      split at h
      · rename_i hempty
        simp only [Compile.ends_bind, Compile.ends_pure] at h
        obtain ⟨_, c₅, w₅, hsucceed, rfl, rfl, rfl⟩ := h
        exact .inl ⟨hempty, hsucceed, rfl⟩
      · rename_i hempty
        simp only [Compile.ends_bind, Compile.ends_work, Compile.ends_pure] at h
        obtain ⟨_, _, w₅, ⟨hfailed, rfl⟩, next, c₆, w₆, hlearn, rfl, rfl, rfl⟩ := h
        exact .inr ⟨Bool.not_eq_true _ ▸ hempty, _, w₅, next, Compile.ends_work.2 ⟨hfailed, rfl⟩,
          hlearn, rfl⟩
  · rintro (⟨w₀, run, c₁, w₁, w₂, hsay, hcandidate, hcode, hfailure, rfl, rfl, rfl⟩ |
      ⟨run, f, c₁, w₁, found, c₂, w₂, ⟨w₀, c₃, w₃, w₄, hsay, hcandidate, hcode, hsay', hquestion⟩,
        hjudge, h⟩)
    · simp only [Compile.ends_bind, Compile.say, Compile.ends_work]
      refine ⟨(), c, w₀, ⟨hsay, rfl⟩, run, c', w₁, hcandidate, ?_⟩
      rw [if_pos hcode]
      simp only [Compile.ends_bind, Compile.ends_work, Compile.ends_pure]
      exact ⟨(), c', w', ⟨hfailure, rfl⟩, trivial, rfl, rfl⟩
    · simp only [Compile.ends_bind, Compile.say, Compile.ends_work]
      refine ⟨(), c, w₀, ⟨hsay, rfl⟩, run, c₃, w₃, hcandidate, ?_⟩
      rw [if_neg (not_not_intro hcode)]
      simp only [Compile.ends_bind, Compile.ends_work, Compile.verify]
      refine ⟨(), c₃, w₄, ⟨hsay', rfl⟩, found, c₂, w₂, ⟨f, c₁, w₁, hquestion, hjudge⟩, ?_⟩
      rcases h with ⟨hempty, hsucceed, rfl⟩ | ⟨hempty, c₅, w₅, next, hfailed, hlearn, rfl⟩
      · rw [if_pos hempty]
        simp only [Compile.ends_bind, Compile.ends_pure]
        exact ⟨(), c', w', hsucceed, trivial, rfl, rfl⟩
      · rw [hempty]
        simp only [Bool.false_eq_true, if_false, Compile.ends_bind, Compile.ends_pure]
        exact ⟨(), c₅, w₅, hfailed, next, c', w', hlearn, rfl, rfl, rfl⟩

/-- A round is the last one and reports success if and only if the solver is asked and its verdict is
accepted. -/
theorem round_ends_zero_iff :
    Compile.Ends (round s p) c w (.inl 0) c' w' ↔
      ∃ run f c₁ w₁, Asks s ⟨p, c, w⟩ run f c₁ w₁ ∧ (s.solver p.round f).Accepted ∧
        Compile.Ends (concludes s run (s.solver p.round f)) c₁ w₁ () c' w' := by
  rw [round_ends_iff]
  constructor
  · rintro (⟨_, _, _, _, _, _, _, _, _, h, _⟩ | ⟨run, f, c₁, w₁, found, c₂, w₂, hasks, hjudge, h⟩)
    · exact nomatch h
    · rcases h with ⟨hempty, hsucceed, -⟩ | ⟨-, _, _, _, _, _, h⟩
      · exact ⟨run, f, c₁, w₁, hasks, (Compile.judge_isEmpty_iff hjudge).1 hempty,
          Compile.ends_bind.2 ⟨found, c₂, w₂, hjudge, hsucceed⟩⟩
      · exact nomatch h
  · rintro ⟨run, f, c₁, w₁, hasks, haccepted, hconcludes⟩
    obtain ⟨found, c₂, w₂, hjudge, hsucceed⟩ := Compile.ends_bind.1 hconcludes
    have hempty := (Compile.judge_isEmpty_iff hjudge).2 haccepted
    exact .inr ⟨run, f, c₁, w₁, found, c₂, w₂, hasks, hjudge, .inl ⟨hempty, hsucceed, rfl⟩⟩

theorem round_uses_reply {next : Progress}
    (h : Compile.Ends (round s p) c w (.inr next) c' w') :
    w'.replies.length < w.replies.length := by
  rcases round_ends_iff.1 h with ⟨_, _, _, _, _, _, _, _, _, h, _⟩ |
    ⟨run, f, c₁, w₁, found, c₂, w₂, ⟨w₀, c₃, w₃, w₄, hsay, hcandidate, hcode, hsay', hquestion⟩,
      hjudge, h⟩
  · exact nomatch h
  · rcases h with ⟨-, -, h⟩ | ⟨-, c₄, w₅, next', hfailed, hlearn, -⟩
    · exact nomatch h
    · -- Only the synthesiser takes a reply; nothing else in the round adds one.
      have h₀ : w₀.replies.length ≤ w.replies.length := (Work.say_frugal _).related hsay
      have h₁ := candidate_uses_reply hcandidate hcode
      have h₂ : w₄.replies.length ≤ w₃.replies.length := (Work.say_frugal _).related hsay'
      have h₃ := (Compile.question_frugal _ _ _).le hquestion
      have h₄ := (Compile.judge_frugal _).le hjudge
      have h₅ := (Compile.say_frugal _).le hfailed
      have h₆ := (learn_frugal _ _ _ _).le hlearn
      omega

/-- Rounds end with success if and only if they lead to a round that reports it. There are enough rounds if
there are more of them than replies. -/
theorem rounds_end_zero_iff {fuel : Nat} (hfuel : w.replies.length < fuel) :
    Compile.Ends (rounds s fuel p) c w 0 c' w' ↔
      ∃ y, Leads s ⟨p, c, w⟩ y ∧
        Compile.Ends (round s y.progress) y.compiler y.workspace (.inl 0) c' w' := by
  induction fuel generalizing p c w with
  | zero => exact absurd hfuel (Nat.not_lt_zero _)
  | succ fuel ih =>
    rw [rounds, Compile.ends_bind]
    constructor
    · rintro ⟨r, c₁, w₁, hround, h⟩
      cases r with
      | inl code =>
        obtain ⟨rfl, rfl, rfl⟩ := Compile.ends_pure.1 h
        exact ⟨⟨p, c, w⟩, .refl _, hround⟩
      | inr next =>
        -- The round has used a reply, so one round less is still enough.
        have hlt := round_uses_reply hround
        obtain ⟨y, hleads, hlast⟩ := (ih (by omega)).1 h
        exact ⟨y, .step (y := ⟨next, c₁, w₁⟩) hround hleads, hlast⟩
    · rintro ⟨y, hleads, hlast⟩
      cases hleads with
      | refl => exact ⟨.inl 0, c', w', hlast, Compile.ends_pure.2 ⟨rfl, rfl, rfl⟩⟩
      | @step _ next _ hround hleads =>
        have hlt : next.workspace.replies.length < w.replies.length := round_uses_reply hround
        exact ⟨.inr next.progress, next.compiler, next.workspace, hround,
          (ih (by omega)).2 ⟨y, hleads, hlast⟩⟩

/-- What synthesis starts with: the setup of its rounds and its compiler. -/
def Starts (solver : Nat → Solver) (a : Arguments) (w : Workspace) (s : Setup)
    (c : Compiler) : Prop :=
  ∃ spec fields group states rest,
    w.files.readText a.specFile = .ok spec ∧
    Spec.fieldCount spec = .ok fields ∧
    (Spec.stateGroups spec).toList = (group, states) :: rest ∧
    Compiler.create (a.options states.length) w.files = .ok c ∧
    s = ⟨a, solver, ⟨fields, (group, states) :: rest⟩, states.length⟩

end Loop

@[simp] theorem Work.ends_ofExcept {α : Type} {r : Except Error α} {a : α} :
    Ends (Work.ofExcept r) w a w' ↔ r = .ok a ∧ w' = w := by
  cases r with
  | error e => exact ⟨fun h => absurd h ends_throw, fun h => nomatch h.1⟩
  | ok b =>
    rw [Work.ofExcept, ends_pure, Except.ok.injEq]
    exact and_congr_left fun _ => eq_comm

theorem ends_dropping_compiler_iff {α : Type} {m : Compile α}
    {a : α} :
    Ends (ExceptT.mk do let (result, _) ← m.run.run c; return result : Work α) w a w' ↔
      ∃ c', Compile.Ends m c w a c' w' := by
  show ((((m.run.run c).run w).1.1, ((m.run.run c).run w).2) : Except Error α × Workspace) =
    (.ok a, w') ↔ _
  unfold Compile.Ends
  generalize (m.run.run c).run w = r
  obtain ⟨⟨r, c₁⟩, w₁⟩ := r
  constructor
  · intro h
    cases h
    exact ⟨c₁, rfl⟩
  · rintro ⟨c', h⟩
    cases h
    rfl

theorem synthesize_ends_iff {solver : Nat → Solver} {a : Arguments}
    {code : Int} :
    Ends (synthesize solver a) w code w' ↔ ∃ s c, Loop.Starts solver a w s c ∧
      ∃ c', Compile.Ends (Loop.rounds s (w.replies.length + 1) {}) c w code c' w' := by
  simp only [synthesize, Work.readText, ends_bind, ends_get, Work.ends_ofExcept]
  constructor
  · rintro ⟨spec, _, ⟨_, _, ⟨rfl, rfl⟩, hspec, rfl⟩, fields, _, ⟨hfields, rfl⟩, h⟩
    cases hgroups : (Spec.stateGroups spec).toList with
    | nil =>
      rw [hgroups] at h
      exact absurd h ends_throw
    | cons first rest =>
      obtain ⟨group, states⟩ := first
      rw [hgroups] at h
      simp only [ends_bind, ends_get, Work.ends_ofExcept] at h
      obtain ⟨_, w₁, ⟨rfl, hw₁⟩, compiler, w₂, ⟨hcreate, rfl⟩, w₃, w₄, ⟨rfl, rfl⟩, h⟩ := h
      subst hw₁
      exact ⟨_, compiler, ⟨spec, fields, group, states, rest, hspec, hfields, hgroups, hcreate, rfl⟩,
        ends_dropping_compiler_iff.1 h⟩
  · rintro ⟨s, c, ⟨spec, fields, group, states, rest, hspec, hfields, hgroups, hcreate, rfl⟩, h⟩
    refine ⟨spec, w, ⟨w, w, ⟨rfl, rfl⟩, hspec, rfl⟩, fields, w, ⟨hfields, rfl⟩, ?_⟩
    rw [hgroups]
    simp only [ends_bind, ends_get, Work.ends_ofExcept]
    exact ⟨w, w, ⟨rfl, rfl⟩, c, w, ⟨hcreate, rfl⟩, w, w, ⟨rfl, rfl⟩,
      ends_dropping_compiler_iff.2 h⟩

/-- Synthesis reports success if and only if its rounds lead to one in which the solver is asked about the
values that the synthesiser found, and in which the verdict shows no counterexample: that there is none, that
the solver gave up, or values that belong to no packet field and to no state. -/
theorem synthesis_succeeds_iff_verdict_accepted (solver : Nat → Solver) (a : Arguments)
    (w w' : Workspace) :
    Ends (synthesize solver a) w 0 w' ↔
      ∃ s c last run f c₁ w₁ c', Loop.Starts solver a w s c ∧ Loop.Leads s ⟨{}, c, w⟩ last ∧
        Loop.Asks s last run f c₁ w₁ ∧ (solver last.progress.round f).Accepted ∧
        Compile.Ends (Loop.concludes s run (solver last.progress.round f)) c₁ w₁ () c' w' := by
  have hfuel : w.replies.length < w.replies.length + 1 := Nat.lt_succ_self _
  have hsolver : ∀ {s c}, Loop.Starts solver a w s c → s.solver = solver := by
    rintro s c ⟨_, _, _, _, _, _, _, _, _, rfl⟩
    rfl
  rw [synthesize_ends_iff]
  constructor
  · rintro ⟨s, c, hstarts, c', hrounds⟩
    obtain ⟨last, hleads, hlast⟩ := (Loop.rounds_end_zero_iff hfuel).1 hrounds
    obtain ⟨run, f, c₁, w₁, hasks, haccepted, hconcludes⟩ := Loop.round_ends_zero_iff.1 hlast
    rw [hsolver hstarts] at haccepted hconcludes
    exact ⟨s, c, last, run, f, c₁, w₁, c', hstarts, hleads, hasks, haccepted, hconcludes⟩
  · rintro ⟨s, c, last, run, f, c₁, w₁, c', hstarts, hleads, hasks, haccepted, hconcludes⟩
    rw [← hsolver hstarts] at haccepted hconcludes
    have hlast := Loop.round_ends_zero_iff.2 ⟨run, f, c₁, w₁, hasks, haccepted, hconcludes⟩
    exact ⟨s, c, hstarts, c', (Loop.rounds_end_zero_iff hfuel).2 ⟨last, hleads, hlast⟩⟩

end SwitchSynth
