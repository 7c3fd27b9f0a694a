import SwitchSynth.Proofs.Ends
import SwitchSynth.Synthesis.Loop

/-!
# Compiling and the replies it uses

Compiling that ends is taken apart like any other computation (`Compile.Ends`). No step of it adds to the
replies that are still to come (`Compile.Frugal`), and values for the holes are only found with a reply, so
every round that leads to another one uses a reply up.
-/

namespace SwitchSynth

open Formula (Counterexample)

/-! ### Compiling that ends -/

namespace Compile

variable {α β : Type} {c c' : Compiler} {w w' : Workspace}

def Ends (m : Compile α) (c : Compiler) (w : Workspace) (a : α) (c' : Compiler)
    (w' : Workspace) : Prop :=
  (m.run.run c).run w = ((.ok a, c'), w')

@[simp] theorem ends_pure {a b : α} : Ends (pure a) c w b c' w' ↔ b = a ∧ c' = c ∧ w' = w := by
  show (((.ok a, c), w) : (Except Error α × Compiler) × Workspace) = ((.ok b, c'), w') ↔ _
  simp only [Prod.mk.injEq, Except.ok.injEq, and_assoc]
  exact ⟨fun h => ⟨h.1.symm, h.2.1.symm, h.2.2.symm⟩, fun h => ⟨h.1.symm, h.2.1.symm, h.2.2.symm⟩⟩

@[simp] theorem ends_throw {e : Error} {a : α} : ¬ Ends (throw e) c w a c' w' := by
  intro h
  have herr : (Except.error e : Except Error α) = .ok a := congrArg (fun r => r.1.1) h
  exact nomatch herr

@[simp] theorem ends_bind {m : Compile α} {f : α → Compile β} {b : β} :
    Ends (m >>= f) c w b c' w' ↔ ∃ a c₁ w₁, Ends m c w a c₁ w₁ ∧ Ends (f a) c₁ w₁ b c' w' := by
  unfold Ends
  rw [ExceptT.run_bind, StateT.run_bind, StateT.run_bind]
  generalize (m.run.run c).run w = r
  obtain ⟨⟨r, c₁⟩, w₁⟩ := r
  cases r with
  | error e =>
    constructor
    · intro h
      have herr : (Except.error e : Except Error β) = .ok b := congrArg (fun r => r.1.1) h
      exact nomatch herr
    · rintro ⟨a, c₂, w₂, h, -⟩
      have herr : (Except.error e : Except Error α) = .ok a := congrArg (fun r => r.1.1) h
      exact nomatch herr
  | ok a =>
    constructor
    · intro h
      exact ⟨a, c₁, w₁, rfl, h⟩
    · rintro ⟨a', c₂, w₂, h, h'⟩
      cases h
      exact h'

@[simp] theorem ends_get {c₁ : Compiler} :
    Ends get c w c₁ c' w' ↔ c₁ = c ∧ c' = c ∧ w' = w :=
  ends_pure

@[simp] theorem ends_work {m : Work α} {a : α} :
    Ends (work m) c w a c' w' ↔ SwitchSynth.Ends m w a w' ∧ c' = c := by
  show ((((m.run.run w).1, c), (m.run.run w).2) : (Except Error α × Compiler) × Workspace) = _ ↔ _
  unfold SwitchSynth.Ends
  generalize m.run.run w = r
  obtain ⟨r, w₁⟩ := r
  constructor
  · intro h
    cases h
    exact ⟨rfl, rfl⟩
  · rintro ⟨h, rfl⟩
    cases h
    rfl

end Compile

/-! ### Replies are only used up -/

/-- There are no more replies to come than before. -/
def FewerReplies (w w' : Workspace) : Prop :=
  w'.replies.length ≤ w.replies.length

theorem fewerReplies : Lasting FewerReplies where
  refl _ := Nat.le_refl _
  trans h₁ h₂ := Nat.le_trans h₂ h₁

def Work.Frugal {α : Type} (m : Work α) : Prop :=
  Moves FewerReplies m

def Compile.Frugal {α : Type} (m : Compile α) : Prop :=
  ∀ c w, ((m.run.run c).run w).2.replies.length ≤ w.replies.length

namespace Work

variable {α : Type}

theorem say_frugal (line : String) : Frugal (say line) := fun _ => Nat.le_refl _

theorem ofExcept_frugal (r : Except Error α) : Frugal (ofExcept r) := by
  cases r with
  | error e => exact fewerReplies.throw e
  | ok a => exact fewerReplies.pure a

theorem require_frugal (holds : Bool) (c : Check) : Frugal (require holds c) := by
  unfold require
  split
  · exact fewerReplies.pure ()
  · exact fewerReplies.throw _

theorem readText_frugal (path : String) : Frugal (readText path) :=
  fewerReplies.bind fewerReplies.get fun _ => ofExcept_frugal _

theorem write_frugal (path text : String) : Frugal (write path text) :=
  fewerReplies.bind fewerReplies.get fun _ => fewerReplies.bind (ofExcept_frugal _) fun _ _ => Nat.le_refl _

theorem command_frugal (line : String) : Frugal (command line) := by
  intro w
  show w.replies.tail.length ≤ w.replies.length
  rw [List.length_tail]
  omega

variable {line : String} {w w' : Workspace} {reply : Reply}

theorem command_uses_reply
    (h : Ends (command line) w reply w') (hcode : reply.code = 0) :
    w'.replies.length < w.replies.length := by
  have hreply : w.replies.headD {} = reply := Except.ok.inj (congrArg Prod.fst h)
  have hreplies : w.replies.tail = w'.replies := congrArg (fun r => r.2.replies) h
  rw [← hreplies]
  cases hw : w.replies with
  | nil =>
    rw [hw] at hreply
    subst hreply
    exact absurd hcode (by decide)
  | cons first rest => simp

theorem command_inv (h : Ends (command line) w reply w') :
    reply = w.replies.headD {} ∧ w'.replies = w.replies.tail :=
  ⟨(Except.ok.inj (congrArg Prod.fst h)).symm, (congrArg (fun r => r.2.replies) h).symm⟩

theorem write_inv {path text : String} (h : Ends (write path text) w () w') :
    ∃ files, w.files.write path text = .ok files ∧ w' = { w with files := files } := by
  simp only [write, ends_bind, ends_get] at h
  obtain ⟨_, w, ⟨rfl, rfl⟩, files, w₁, hfiles, hmodify⟩ := h
  cases hwrite : w.files.write path text with
  | error e =>
    rw [hwrite] at hfiles
    exact absurd hfiles ends_throw
  | ok files' =>
    rw [hwrite] at hfiles
    obtain ⟨rfl, rfl⟩ := ends_pure.1 hfiles
    exact ⟨_, rfl, ends_modify.1 hmodify⟩

theorem require_inv {holds : Bool} {c : Check} (h : Ends (require holds c) w () w') : w' = w := by
  unfold require at h
  split at h
  · exact (ends_pure.1 h).2
  · exact absurd h ends_throw

end Work

namespace Synthesizer

theorem checkSyntax_frugal (file : String) : Work.Frugal (checkSyntax file) := by
  unfold checkSyntax
  refine fewerReplies.bind (Work.command_frugal _) fun reply => ?_
  split
  · exact fewerReplies.bind (Work.say_frugal _) fun _ => Work.require_frugal _ _
  · split
    · exact fewerReplies.throw _
    · exact fewerReplies.pure ()

theorem synthesize_frugal (file inputBits seed : String) (parallel : Option Bool) :
    Work.Frugal (synthesize file inputBits seed parallel) := by
  unfold synthesize
  cases parallel with
  | none => exact fewerReplies.throw _
  | some parallel =>
    refine fewerReplies.bind (checkSyntax_frugal file) fun _ => ?_
    refine fewerReplies.bind (Work.command_frugal _) fun _ => ?_
    exact fewerReplies.bind (Work.require_frugal _ _) fun _ => fewerReplies.pure _

variable {file inputBits seed output : String} {parallel : Option Bool} {w w' : Workspace}

theorem synthesize_uses_reply (h : Ends (synthesize file inputBits seed parallel) w (0, output) w') :
    w'.replies.length < w.replies.length := by
  unfold synthesize at h
  cases parallel with
  | none => exact absurd h ends_throw
  | some parallel =>
    simp only [ends_bind, ends_pure] at h
    obtain ⟨_, w₁, hsyntax, reply, w₂, hcommand, _, w₃, hrequire, hresult, rfl⟩ := h
    have hcode : reply.code = 0 := (Prod.mk.inj hresult).1.symm
    calc w'.replies.length ≤ w₂.replies.length := (Work.require_frugal _ _).related hrequire
      _ < w₁.replies.length := Work.command_uses_reply hcommand hcode
      _ ≤ w.replies.length := (checkSyntax_frugal file).related hsyntax

theorem checkSyntax_replies (h : Ends (checkSyntax file) w () w') :
    w'.replies = w.replies.tail := by
  obtain ⟨reply, w₁, hcommand, h⟩ := ends_bind.1 h
  rw [← (Work.command_inv hcommand).2]
  split at h
  · obtain ⟨_, w₂, hsay, hrequire⟩ := ends_bind.1 h
    rw [Work.require_inv hrequire, ← congrArg (fun r => r.2.replies) hsay]
    rfl
  · split at h
    · exact absurd h ends_throw
    · rw [(ends_pure.1 h).2]

theorem synthesize_replies {code : Int} (h : Ends (synthesize file inputBits seed parallel) w (code, output) w') :
    code = (w.replies.tail.headD {}).code ∧ w'.replies = w.replies.tail.tail := by
  unfold synthesize at h
  cases parallel with
  | none => exact absurd h ends_throw
  | some parallel =>
    simp only [ends_bind, ends_pure] at h
    obtain ⟨_, w₁, hsyntax, reply, w₂, hcommand, _, w₃, hrequire, hresult, rfl⟩ := h
    obtain ⟨rfl, hreplies⟩ := Work.command_inv hcommand
    rw [← checkSyntax_replies hsyntax, Work.require_inv hrequire]
    exact ⟨(Prod.mk.inj hresult).1, hreplies⟩

theorem circuit_replies {text : String} (h : Ends (circuit file) w text w') :
    w'.replies = w.replies.tail.tail := by
  simp only [circuit, ends_bind, Work.readText, ends_get] at h
  obtain ⟨_, w₁, hsyntax, reply, w₂, hcommand, _, _, ⟨rfl, rfl⟩, hread⟩ := h
  rw [← checkSyntax_replies hsyntax, ← (Work.command_inv hcommand).2]
  unfold Work.ofExcept at hread
  split at hread
  · rw [(ends_pure.1 hread).2]
  · exact absurd hread ends_throw

theorem circuit_frugal (file : String) : Work.Frugal (circuit file) := by
  refine fewerReplies.bind (checkSyntax_frugal file) fun _ => ?_
  exact fewerReplies.bind (Work.command_frugal _) fun _ => Work.readText_frugal _

end Synthesizer

namespace Compile

variable {α β : Type} {c c' : Compiler} {w w' : Workspace}

theorem Frugal.le {m : Compile α} (h : Frugal m) {a : α} (hm : Ends m c w a c' w') :
    w'.replies.length ≤ w.replies.length := by
  have hle := h c w
  rw [show (m.run.run c).run w = _ from hm] at hle
  exact hle

theorem pure_frugal (a : α) : Frugal (pure a) := fun _ _ => Nat.le_refl _

theorem get_frugal : Frugal (get : Compile Compiler) := fun _ _ => Nat.le_refl _

theorem bind_frugal {m : Compile α} {f : α → Compile β} (hm : Frugal m)
    (hf : ∀ a, Frugal (f a)) : Frugal (m >>= f) := by
  intro c w
  have hle := hm c w
  rw [ExceptT.run_bind, StateT.run_bind, StateT.run_bind]
  generalize (m.run.run c).run w = r at hle ⊢
  obtain ⟨⟨r, c₁⟩, w₁⟩ := r
  cases r with
  | error e => exact hle
  | ok a => exact Nat.le_trans (hf a c₁ w₁) hle

theorem work_frugal {m : Work α} (h : Work.Frugal m) : Frugal (work m) :=
  fun _ w => h w

theorem say_frugal (line : String) : Frugal (say line) :=
  work_frugal (Work.say_frugal line)

theorem generating_frugal (m : Sketch.Generate α) : Frugal (generating m) :=
  fun _ _ => Nat.le_refl _

theorem job_frugal (j : Job) : Frugal (job j) := by
  unfold job
  refine bind_frugal get_frugal fun c => ?_
  refine bind_frugal (generating_frugal _) fun sketch => ?_
  refine bind_frugal (work_frugal (Work.write_frugal _ _)) fun _ => ?_
  refine bind_frugal get_frugal fun c => ?_
  refine bind_frugal (say_frugal _) fun _ => ?_
  refine bind_frugal (say_frugal _) fun _ => ?_
  refine bind_frugal (work_frugal (Synthesizer.synthesize_frugal _ _ _ _)) fun result => ?_
  refine bind_frugal (work_frugal (Work.write_frugal _ _)) fun _ => ?_
  split
  · refine bind_frugal get_frugal fun c => ?_
    exact bind_frugal (work_frugal (Work.ofExcept_frugal _)) fun _ => pure_frugal _
  · exact pure_frugal _

variable {run : Run} {results : List (Except Error Run)}

theorem job_uses_reply {j : Job} (h : Ends (job j) c w run c' w')
    (hcode : run.code = 0) : w'.replies.length < w.replies.length := by
  simp only [job, ends_bind, ends_get] at h
  obtain ⟨_, _, _, ⟨rfl, rfl, rfl⟩, sketch, c₁, w₁, hsketch, _, c₂, w₂, hwrite, _, _, _,
    ⟨rfl, rfl, rfl⟩, _, c₃, w₃, hsay, _, c₄, w₄, hsay', ⟨code, output⟩, c₅, w₅, hsynth, _, c₆, w₆,
    hwrite', h⟩ := h
  -- What follows the synthesiser keeps its exit code.
  have hrest : run.code = code ∧ w'.replies.length ≤ w₆.replies.length := by
    split at h
    · simp only [ends_bind, ends_get, ends_work, ends_pure] at h
      obtain ⟨_, _, _, ⟨rfl, rfl, rfl⟩, _, _, _, ⟨hvalues, rfl⟩, rfl, rfl, rfl⟩ := h
      exact ⟨rfl, (Work.ofExcept_frugal _).related hvalues⟩
    · simp only [ends_bind, ends_pure] at h
      obtain ⟨_, _, _, ⟨rfl, rfl, rfl⟩, rfl, rfl, rfl⟩ := h
      exact ⟨rfl, Nat.le_refl _⟩
  obtain ⟨hreply, -⟩ := ends_work.1 hsynth
  rw [show code = 0 from hrest.1 ▸ hcode] at hreply
  have hwrite₁ := (work_frugal (Work.write_frugal _ _)).le hwrite
  have hwrite₂ := (work_frugal (Work.write_frugal _ _)).le hwrite'
  have hsketch₁ := (generating_frugal _).le hsketch
  have hsay₁ := (say_frugal _).le hsay
  have hsay₂ := (say_frugal _).le hsay'
  have hreply₁ := Synthesizer.synthesize_uses_reply hreply
  omega

/-- An attempt adds no replies, even if its job stops at an error, and uses one if the job succeeds. -/
theorem attempt_replies {j : Job} {r : Except Error Run} (h : Ends (attempt j) c w r c' w') :
    w'.replies.length ≤ w.replies.length ∧
      ∀ run, r = .ok run → run.code = 0 → w'.replies.length < w.replies.length := by
  have hr : ((job j).run.run c w).1.1 = r := Except.ok.inj (congrArg (fun x => x.1.1) h)
  have hw : ((job j).run.run c w).2 = w' := congrArg (fun x => x.2) h
  constructor
  · rw [← hw]
    exact job_frugal j c w
  · intro run hrun hcode
    have hjob : Ends (job j) c w run ((job j).run.run c w).1.2 w' := by
      rw [Ends, ← hw, ← hrun, ← hr]
      rfl
    exact job_uses_reply hjob hcode

theorem attempts_replies {γ : Type} {xs : List γ} {f : γ → Compile (Except Error Run)} (hf : ∀ x, ∃ j, f x = attempt j)
    (h : Ends (xs.mapM f) c w results c' w') :
    w'.replies.length ≤ w.replies.length ∧
      ∀ run, .ok run ∈ results → run.code = 0 → w'.replies.length < w.replies.length := by
  induction xs generalizing c w results with
  | nil =>
    obtain ⟨rfl, rfl, rfl⟩ := ends_pure.1 h
    exact ⟨Nat.le_refl _, fun run hrun => absurd hrun List.not_mem_nil⟩
  | cons x xs ih =>
    simp only [List.mapM_cons, ends_bind, ends_pure] at h
    obtain ⟨r, c₁, w₁, hx, rest, c₂, w₂, hxs, rfl, rfl, rfl⟩ := h
    obtain ⟨j, hj⟩ := hf x
    obtain ⟨hle, huses⟩ := attempt_replies (hj ▸ hx)
    obtain ⟨hle', huses'⟩ := ih hxs
    refine ⟨Nat.le_trans hle' hle, fun run hrun hcode => ?_⟩
    rcases List.mem_cons.1 hrun with hfirst | hrest
    · exact Nat.lt_of_le_of_lt hle' (huses run hfirst.symm hcode)
    · exact Nat.lt_of_lt_of_le (huses' run hrest hcode) hle

theorem settle_mem {last : Option Run}
    (hlast : ∀ r, last = some r → r.code ≠ 0) (h : Ends (settle last results) c w (some run) c' w')
    (hcode : run.code = 0) : .ok run ∈ results ∧ w'.replies.length ≤ w.replies.length := by
  induction results generalizing last c w with
  | nil =>
    obtain ⟨hrun, -, -⟩ := ends_pure.1 h
    exact absurd hcode (hlast run hrun.symm)
  | cons r rest ih =>
    cases r with
    | error e => exact absurd h ends_throw
    | ok first =>
      unfold settle at h
      split at h
      · simp only [ends_bind, ends_pure] at h
        obtain ⟨_, c₁, w₁, hsay, hrun, rfl, rfl⟩ := h
        rw [Option.some.inj hrun]
        exact ⟨List.mem_cons_self, (say_frugal _).le hsay⟩
      · rename_i hfirst
        obtain ⟨_, c₁, w₁, hsay, hrest⟩ := ends_bind.1 h
        have hfirst' : ∀ r, some first = some r → r.code ≠ 0 := by
          intro r hr
          rw [← Option.some.inj hr]
          exact hfirst
        obtain ⟨hmem, hle⟩ := ih hfirst' hrest
        exact ⟨List.mem_cons_of_mem _ hmem, Nat.le_trans hle ((say_frugal _).le hsay)⟩

theorem forM_frugal {γ : Type} (xs : List γ) {f : γ → Compile Unit} (h : ∀ x, Frugal (f x)) :
    Frugal (xs.forM f) := by
  induction xs with
  | nil => exact pure_frugal ()
  | cons x xs ih => exact bind_frugal (h x) fun _ => ih

theorem parallel_uses_reply {constraints : List String} {testcases : String}
    (h : Ends (parallel constraints testcases) c w (some run) c' w') (hcode : run.code = 0) :
    w'.replies.length < w.replies.length := by
  simp only [parallel, ends_bind, ends_get] at h
  obtain ⟨_, _, _, ⟨rfl, rfl, rfl⟩, _, c₁, w₁, hsay, h⟩ := h
  split at h
  · simp only [ends_bind, ends_throw, false_and, exists_false] at h
  · simp only [ends_bind] at h
    obtain ⟨results, c₂, w₂, hattempts, hsettle⟩ := h
    obtain ⟨hmem, hle⟩ := settle_mem (by simp) hsettle hcode
    have hattempt : ∀ x : List Nat × Nat × Job, ∃ j, attempt x.2.2 = attempt j :=
      fun x => ⟨x.2.2, rfl⟩
    have huses := (attempts_replies hattempt hattempts).2 run hmem hcode
    have hsay' := (forM_frugal _ fun _ => say_frugal _).le hsay
    omega

theorem question_frugal (values : Table Sketch.HoleValue) (inputBits : Int) (iteration : String) :
    Frugal (question values inputBits iteration) := by
  unfold question
  refine bind_frugal get_frugal fun c => ?_
  refine bind_frugal (work_frugal (Work.require_frugal _ _)) fun _ => ?_
  refine bind_frugal (generating_frugal _) fun sketch => ?_
  refine bind_frugal (work_frugal (Work.write_frugal _ _)) fun _ => ?_
  refine bind_frugal (work_frugal (Synthesizer.circuit_frugal _)) fun circuit => ?_
  exact work_frugal (Work.ofExcept_frugal _)

theorem judge_frugal (verdict : Formula.Verdict) : Frugal (judge verdict) := by
  cases verdict with
  | sat model => exact pure_frugal _
  | unsat => exact bind_frugal (say_frugal _) fun _ => pure_frugal _
  | unknown => exact bind_frugal (say_frugal _) fun _ => pure_frugal _

end Compile

namespace Loop

variable {c c' : Compiler} {w w' : Workspace}

theorem candidate_uses_reply {s : Setup} {p : Progress} {run : Compile.Run}
    (h : Compile.Ends (candidate s p) c w run c' w') (hcode : run.code = 0) :
    w'.replies.length < w.replies.length := by
  unfold candidate at h
  split at h
  · obtain ⟨result, c₁, w₁, hparallel, h⟩ := Compile.ends_bind.1 h
    cases result with
    | none => exact absurd h Compile.ends_throw
    | some run' =>
      obtain ⟨rfl, rfl, rfl⟩ := Compile.ends_pure.1 h
      exact Compile.parallel_uses_reply hparallel hcode
  · simp only [Compile.serial, Compile.ends_bind, Compile.ends_get] at h
    obtain ⟨_, _, _, ⟨rfl, rfl, rfl⟩, hjob⟩ := h
    exact Compile.job_uses_reply hjob hcode

theorem fillIn_frugal {α : Type} (zero : α) (names : List String) (values : Table α) :
    Work.Frugal (fillIn zero values names) := by
  unfold fillIn
  induction names generalizing values with
  | nil => exact fewerReplies.pure _
  | cons name rest ih =>
    refine fewerReplies.bind ?_ ih
    dsimp only
    split
    · exact fewerReplies.pure _
    · exact fewerReplies.bind (Work.say_frugal _) fun _ => fewerReplies.pure _

theorem learn_frugal (s : Setup) (p : Progress) (run : Compile.Run) (found : Counterexample) :
    Compile.Frugal (learn s p run found) := by
  unfold learn
  split
  · refine Compile.bind_frugal (Compile.work_frugal (Work.ofExcept_frugal _)) fun _ => ?_
    exact Compile.pure_frugal _
  · refine Compile.bind_frugal (Compile.say_frugal _) fun _ => ?_
    refine Compile.bind_frugal ?_ fun _ => Compile.bind_frugal ?_ fun _ => Compile.pure_frugal _
    · -- the constants
      refine Compile.bind_frugal (fun _ _ => Nat.le_refl _) fun _ => ?_
      refine Compile.bind_frugal Compile.get_frugal fun _ => ?_
      exact Compile.bind_frugal (Compile.say_frugal _) fun _ => Compile.generating_frugal _
    · -- the test case
      refine Compile.bind_frugal (Compile.work_frugal (fillIn_frugal _ _ _)) fun _ => ?_
      refine Compile.bind_frugal (Compile.work_frugal (fillIn_frugal _ _ _)) fun _ => ?_
      exact Compile.pure_frugal _

end Loop

end SwitchSynth
