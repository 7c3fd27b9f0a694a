import SwitchSynth.Proofs.Predicates
import SwitchSynth.Proofs.Sketch.ConstantHoles
import SwitchSynth.Proofs.Sketch.Definitions
import SwitchSynth.Proofs.Sketch.Muxes

/-!
# Running the bodies of functions

The text of a body is run from left to right. A semicolon ends a statement, which declares a variable or returns a
value, and braces enclose the arms of a branch. Expressions are read with the usual precedence, and a choice between
two values binds less tightly than all operators.

A multiplexer is run this way: it returns the input that its control selects.
-/

namespace SwitchSynth.Reading

variable {σ : String → Int} {c : Char} {symbols : List Symbol}

theorem feed_of_blank (hc : kind c = .blank) (r : Reader) : feed σ r (.char c) = (flush σ r).map (⟨[], ·⟩) := by
  simp [feed, hc]

theorem value?_blank_cons (hc : kind c = .blank) : value? σ (.char c :: symbols) = value? σ symbols := by
  rw [value?, feedAll_cons, feed_of_blank hc]
  rfl

theorem value?_blank_behind (hc : kind c = .blank) : value? σ (symbols ++ [.char c]) = value? σ symbols := by
  rw [value?, value?, feedAll_append]
  cases feedAll σ ⟨[], ⟨[], none⟩⟩ symbols with
  | none => rfl
  | some r =>
    simp only [Option.bind_some, feedAll_cons, feed_of_blank hc, feedAll_nil]
    cases flush σ r <;> rfl

theorem value?_condition {level : Nat} {cs gap : List Char} {v : Int} (h : Reads σ level (cs.map .char) v)
    (hlevel : 1 ≤ level) (hgap : ∀ c ∈ gap, kind c = .blank) :
    value? σ (.char ' ' :: ('(' :: (cs ++ ')' :: gap)).map .char) = some v := by
  have hbehind (symbols : List Symbol) : value? σ (symbols ++ gap.map .char) = value? σ symbols := by
    induction gap generalizing symbols with
    | nil => simp
    | cons c gap ih =>
      obtain ⟨hc, hgap⟩ := List.forall_mem_cons.1 hgap
      have hfirst := ih hgap (symbols ++ [.char c])
      rw [value?_blank_behind hc] at hfirst
      simpa using hfirst
  have hgroup := hbehind (.char '(' :: cs.map .char ++ [.char ')'])
  rw [(reads_group h hlevel).value?_eq (by decide)] at hgroup
  rw [value?_blank_cons rfl, ← hgroup]
  simp

end SwitchSynth.Reading

namespace SwitchSynth.Sketch

open Reading (kind chars value? Reads Wordy IsName)

/-! ### Bodies -/

/-- What is done with the statements that come next. -/
inductive Phase where
  /-- They are carried out. -/
  | running
  /-- They are carried out behind a branch. It is known whether an arm of it was chosen. -/
  | behind (chosen : Bool)
  /-- They are left out until the arm ends that they stand in. -/
  | skipping (depth : Nat) (chosen : Bool)
  /-- They are left out: a value was returned. -/
  | returned (v : Int)

/-- The values of the variables, and what was read behind the last semicolon or brace. -/
structure Machine where
  σ : String → Int
  phase : Phase
  piece : List Char

/-- Whether statements are carried out. -/
def Phase.active : Phase → Bool
  | running | behind _ => true
  | skipping _ _ | returned _ => false

namespace Machine

def trimmed (cs : List Char) : List Char :=
  cs.dropWhile fun c => kind c = .blank

/-- What stands behind a word, if a text begins with it. -/
def after? (word : String) (cs : List Char) : Option (List Char) :=
  let rest := (trimmed cs).drop word.length
  if word.toList.isPrefixOf (trimmed cs) ∧ rest.head?.map kind ≠ some .word then some rest else none

/-- The value of an expression, or of one of two behind a condition. -/
def choice? (σ : String → Int) (cs : List Char) : Option Int :=
  match cs.dropWhile (· ≠ '?') with
  | [] => value? σ (cs.map .char)
  | _ :: rest =>
    (value? σ ((cs.takeWhile (· ≠ '?')).map .char)).bind fun v =>
      value? σ ((if v = 0 then (rest.dropWhile (· ≠ ':')).drop 1 else rest.takeWhile (· ≠ ':')).map .char)

def statement (m : Machine) : Option Machine :=
  match after? "return" m.piece, after? "int" m.piece with
  | some value, _ => (choice? m.σ value).map fun v => ⟨m.σ, .returned v, []⟩
  | none, some declared =>
    match trimmed ((trimmed declared).dropWhile fun c => kind c = .word) with
    | '=' :: value =>
      let name := String.ofList ((trimmed declared).takeWhile fun c => kind c = .word)
      (choice? m.σ value).map fun v => ⟨Function.update m.σ name v, .running, []⟩
    | _ => none
  | none, none => none

/-- Begin an arm behind its condition. -/
def test (m : Machine) (condition : List Char) : Option Machine :=
  (value? m.σ (condition.map .char)).map fun v => ⟨m.σ, if v = 0 then .skipping 0 false else .running, []⟩

def openArm (m : Machine) : Option Machine :=
  match after? "if" m.piece, after? "else" m.piece, m.phase with
  | some condition, _, _ => m.test condition
  | none, some _, .behind true => some ⟨m.σ, .skipping 0 true, []⟩
  | none, some rest, .behind false =>
    match after? "if" rest with
    | some condition => m.test condition
    | none => if trimmed rest = [] then some ⟨m.σ, .running, []⟩ else none
  | _, _, _ => none

def step (m : Machine) (c : Char) : Option Machine :=
  match m.phase with
  | .returned _ => some m
  | .skipping depth chosen =>
    if c = '\x7b' then some ⟨m.σ, .skipping (depth + 1) chosen, []⟩
    else if c = '\x7d' then
      some ⟨m.σ, if depth = 0 then .behind chosen else .skipping (depth - 1) chosen, []⟩
    else some m
  | _ =>
    if c = ';' then m.statement
    else if c = '\x7b' then m.openArm
    else if c = '\x7d' then if trimmed m.piece = [] then some ⟨m.σ, .behind true, []⟩ else none
    else some { m with piece := m.piece ++ [c] }

def runText (m : Machine) (cs : List Char) : Option Machine :=
  cs.foldlM step m

end Machine

/-- What a body returns for values of the names. -/
def result? (σ : String → Int) (body : String) : Option Int :=
  (Machine.runText ⟨σ, .running, []⟩ body.toList).bind fun m =>
    match m.phase with
    | .returned v => some v
    | _ => none

namespace Machine

variable {σ : String → Int} {phase : Phase} {piece cs rest gap value condition block : List Char} {v : Int}

theorem run_cons (m : Machine) (c : Char) (cs : List Char) : runText m (c :: cs) = (m.step c).bind (runText · cs) := by
  unfold runText
  rw [List.foldlM_cons]
  rfl

theorem run_returned : runText ⟨σ, .returned v, piece⟩ cs = some ⟨σ, .returned v, piece⟩ := by
  induction cs with
  | nil => rfl
  | cons c cs ih => exact ih

def blank (cs : List Char) : Bool :=
  cs.all fun c => kind c = .blank

@[simp] theorem blank_append (a b : List Char) : blank (a ++ b) = (blank a && blank b) :=
  List.all_append

/-- No character ends a statement or encloses an arm. -/
def plain (cs : List Char) : Bool :=
  cs.all fun c => c ≠ ';' && c ≠ '\x7b' && c ≠ '\x7d'

@[simp] theorem plain_append (a b : List Char) : plain (a ++ b) = (plain a && plain b) :=
  List.all_append

@[simp] theorem plain_cons (c : Char) (cs : List Char) :
    plain (c :: cs) = (c ≠ ';' && c ≠ '\x7b' && c ≠ '\x7d' && plain cs) :=
  List.all_cons

@[simp] theorem plain_nil : plain [] = true := rfl

theorem plain_of_kind {k : Reading.Kind} (hk : k ≠ .sign) (h : ∀ c ∈ cs, kind c = k) : plain cs = true := by
  refine List.all_eq_true.2 fun c hc => ?_
  have hne (d : Char) (hd : kind d = .sign) : c ≠ d := fun heq => hk ((h c hc).symm.trans (heq ▸ hd))
  simp [hne ';' (by decide), hne '\x7b' (by decide), hne '\x7d' (by decide)]

theorem plain_of_blank (h : blank gap = true) : plain gap = true :=
  plain_of_kind (by decide) fun c hc => of_decide_eq_true (List.all_eq_true.1 h c hc)

theorem plain_of_wordy {s : String} (h : Wordy s) : plain s.toList = true :=
  plain_of_kind (by decide) h

theorem run_plain (hphase : phase.active = true) (hcs : plain cs = true) :
    runText ⟨σ, phase, piece⟩ (cs ++ rest) = runText ⟨σ, phase, piece ++ cs⟩ rest := by
  induction cs generalizing piece with
  | nil => simp
  | cons c cs ih =>
    simp only [plain, List.all_cons, Bool.and_eq_true, decide_eq_true_eq] at hcs
    obtain ⟨⟨⟨hsemicolon, hopen⟩, hclose⟩, hcs⟩ := hcs
    have hstep : step ⟨σ, phase, piece⟩ c = some ⟨σ, phase, piece ++ [c]⟩ := by
      cases phase <;> simp [step, hsemicolon, hopen, hclose, Phase.active] at hphase ⊢
    rw [List.cons_append, run_cons, hstep, Option.bind_some, ih hcs]
    simp

theorem run_statement (hphase : phase.active = true) (hcs : plain cs = true) :
    runText ⟨σ, phase, []⟩ (cs ++ ';' :: rest) = (statement ⟨σ, phase, cs⟩).bind (runText · rest) := by
  rw [run_plain hphase hcs, List.nil_append, run_cons]
  cases phase <;> first | rfl | cases hphase

theorem run_openArm (hphase : phase.active = true) (hcs : plain cs = true) :
    runText ⟨σ, phase, []⟩ (cs ++ '\x7b' :: rest) = (openArm ⟨σ, phase, cs⟩).bind (runText · rest) := by
  rw [run_plain hphase hcs, List.nil_append, run_cons]
  cases phase <;> first | rfl | cases hphase

theorem run_skipping {chosen : Bool} (hblock : '\x7b' ∉ block ∧ '\x7d' ∉ block) :
    runText ⟨σ, .skipping 0 chosen, []⟩ (block ++ '\x7d' :: rest) = runText ⟨σ, .behind chosen, []⟩ rest := by
  induction block with
  | nil => rfl
  | cons c block ih =>
    simp only [List.mem_cons, not_or] at hblock
    have hstep : step ⟨σ, .skipping 0 chosen, []⟩ c = some ⟨σ, .skipping 0 chosen, []⟩ := by
      simp [step, Ne.symm hblock.1.1, Ne.symm hblock.2.1]
    rw [List.cons_append, run_cons, hstep, Option.bind_some]
    exact ih ⟨hblock.1.2, hblock.2.2⟩

theorem after?_append {word : String} (hgap : blank gap = true)
    (hword : word.toList.head?.map kind = some .word) (hrest : rest.head?.map kind ≠ some .word) :
    after? word (gap ++ (word.toList ++ rest)) = some rest := by
  have htrimmed : trimmed (gap ++ (word.toList ++ rest)) = word.toList ++ rest := by
    rw [trimmed, List.dropWhile_append_of_pos (List.all_eq_true.1 hgap)]
    cases hw : word.toList with
    | nil => simp [hw] at hword
    | cons c cs =>
      rw [hw] at hword
      exact List.dropWhile_cons_of_neg (by simp [Option.some.inj hword])
  have hdrop : (word.toList ++ rest).drop word.length = rest := by
    rw [← String.length_toList, List.drop_left]
  simp [after?, htrimmed, hdrop, hrest]

theorem run_return (hphase : phase.active = true) (hgap : blank gap = true)
    (hplain : plain (gap ++ ("return".toList ++ ' ' :: value)) = true) (hvalue : choice? σ (' ' :: value) = some v) :
    runText ⟨σ, phase, []⟩ (gap ++ ("return".toList ++ ' ' :: value) ++ ';' :: rest) = some ⟨σ, .returned v, []⟩ := by
  have hreturn : after? "return" (gap ++ ("return".toList ++ ' ' :: value)) = some (' ' :: value) :=
    after?_append hgap rfl (by simp [kind])
  rw [run_statement hphase hplain, statement, hreturn]
  simp [hvalue, run_returned]

theorem after?_other {word word' : String} (hgap : blank gap = true)
    (hword' : word'.toList.head?.map kind = some .word) (hword : word.toList.head?.isSome)
    (hne : word.toList.head? ≠ word'.toList.head?) : after? word (gap ++ (word'.toList ++ rest)) = none := by
  obtain ⟨d, hd⟩ := Option.isSome_iff_exists.1 hword
  obtain ⟨ds, hds⟩ := List.head?_eq_some_iff.1 hd
  obtain ⟨c, hc, hkind⟩ := Option.map_eq_some_iff.1 hword'
  obtain ⟨cs, hcs⟩ := List.head?_eq_some_iff.1 hc
  have htrimmed : trimmed (gap ++ (word'.toList ++ rest)) = c :: (cs ++ rest) := by
    rw [trimmed, List.dropWhile_append_of_pos (List.all_eq_true.1 hgap), hcs]
    exact List.dropWhile_cons_of_neg (by simp [hkind])
  have hdc : d ≠ c := fun heq => hne (by rw [hd, hc, heq])
  simp [after?, htrimmed, hds, hdc]

theorem statement_declaration {name : String} (hgap : blank gap = true) (hname : Reading.IsWord name.toList)
    (hvalue : choice? σ value = some v) :
    statement ⟨σ, phase, gap ++ ("int".toList ++ ' ' :: (name.toList ++ ' ' :: '=' :: value))⟩ =
      some ⟨Function.update σ name v, .running, []⟩ := by
  have hreturn : after? "return" (gap ++ ("int".toList ++ ' ' :: (name.toList ++ ' ' :: '=' :: value))) = none :=
    after?_other hgap rfl rfl (by decide)
  have hint : after? "int" (gap ++ ("int".toList ++ ' ' :: (name.toList ++ ' ' :: '=' :: value))) =
      some (' ' :: (name.toList ++ ' ' :: '=' :: value)) :=
    after?_append hgap rfl (by simp [kind])
  have hword : ∀ c ∈ name.toList, decide (kind c = .word) = true := fun c hc => decide_eq_true (hname.kind_eq c hc)
  have htrimmed : trimmed (' ' :: (name.toList ++ ' ' :: '=' :: value)) = name.toList ++ ' ' :: '=' :: value := by
    obtain ⟨c, cs, hc⟩ := List.exists_cons_of_ne_nil hname.ne_nil
    have hkind := hname.kind_eq c (by rw [hc]; exact List.mem_cons_self)
    rw [hc]
    simp [trimmed, hkind, show kind ' ' = .blank from rfl]
  have hrest : trimmed ((name.toList ++ ' ' :: '=' :: value).dropWhile fun c => kind c = .word) = '=' :: value := by
    rw [List.dropWhile_append_of_pos hword]
    rfl
  simp only [statement, hreturn, hint, htrimmed, hrest, hvalue, List.takeWhile_append_of_pos hword, Option.map_some]
  simp [show kind ' ' = .blank from rfl]

theorem openArm_if (hgap : blank gap = true)
    (hvalue : value? σ (.char ' ' :: condition.map .char) = some v) :
    openArm ⟨σ, phase, gap ++ ("if".toList ++ ' ' :: condition)⟩ =
      some ⟨σ, if v = 0 then .skipping 0 false else .running, []⟩ := by
  have hif : after? "if" (gap ++ ("if".toList ++ ' ' :: condition)) = some (' ' :: condition) :=
    after?_append hgap rfl (by simp [kind])
  simp only [openArm, hif, test, List.map_cons, hvalue, Option.map_some]

theorem openArm_elseIf (hgap : blank gap = true)
    (hvalue : value? σ (.char ' ' :: condition.map .char) = some v) :
    openArm ⟨σ, .behind false, gap ++ ("else".toList ++ ([' '] ++ ("if".toList ++ ' ' :: condition)))⟩ =
      some ⟨σ, if v = 0 then .skipping 0 false else .running, []⟩ := by
  have hnone : after? "if" (gap ++ ("else".toList ++ ([' '] ++ ("if".toList ++ ' ' :: condition)))) = none :=
    after?_other hgap rfl rfl (by decide)
  have helse : after? "else" (gap ++ ("else".toList ++ ([' '] ++ ("if".toList ++ ' ' :: condition)))) =
      some ([' '] ++ ("if".toList ++ ' ' :: condition)) :=
    after?_append hgap rfl (by simp [kind])
  have hif : after? "if" ([' '] ++ ("if".toList ++ ' ' :: condition)) = some (' ' :: condition) :=
    after?_append rfl rfl (by simp [kind])
  simp only [openArm, hnone, helse, hif, test, List.map_cons, hvalue, Option.map_some]

theorem openArm_else (hgap : blank gap = true) (hrest : trimmed rest = [])
    (hhead : rest.head?.map kind ≠ some .word) :
    openArm ⟨σ, .behind false, gap ++ ("else".toList ++ rest)⟩ = some ⟨σ, .running, []⟩ := by
  have hnone : after? "if" (gap ++ ("else".toList ++ rest)) = none :=
    after?_other hgap rfl rfl (by decide)
  have helse : after? "else" (gap ++ ("else".toList ++ rest)) = some rest :=
    after?_append hgap rfl hhead
  have hif : after? "if" rest = none := by
    simp [after?, hrest]
  simp only [openArm, hnone, helse, hif, hrest, if_true]

/-- An arm of a branch that returns a value, with the white space around its parts. -/
structure Arm where
  lead : List Char
  condition : List Char
  gap : List Char
  value : List Char
  close : List Char

namespace Arm

/-- The text that follows the condition. -/
def inner (a : Arm) : List Char :=
  a.gap ++ ("return".toList ++ ' ' :: a.value) ++ ';' :: a.close

def text (word : String) (a : Arm) : List Char :=
  a.lead ++ (word.toList ++ ' ' :: a.condition) ++ '\x7b' :: (a.inner ++ ['\x7d', '\n'])

/-- An arm is chosen if something holds, and then returns a value. -/
structure Yields (σ : String → Int) (a : Arm) (holds : Prop) [Decidable holds] (v : Int) : Prop where
  lead : blank a.lead = true
  condition : plain a.condition = true
  test : value? σ (.char ' ' :: a.condition.map .char) = some (Reading.bit holds)
  gap : blank a.gap = true
  value : plain a.value = true
  result : choice? σ (' ' :: a.value) = some v
  close : blank a.close = true

variable {a : Arm} {holds : Prop} [Decidable holds]

theorem Yields.run (h : a.Yields σ holds v) (hphase : phase.active = true) (hcs : plain cs = true)
    (hopen : openArm ⟨σ, phase, cs⟩ =
      some ⟨σ, if Reading.bit holds = 0 then .skipping 0 false else .running, []⟩) :
    runText ⟨σ, phase, []⟩ (cs ++ '\x7b' :: (a.inner ++ '\x7d' :: rest)) =
      if holds then some ⟨σ, .returned v, []⟩ else runText ⟨σ, .behind false, []⟩ rest := by
  rw [run_openArm hphase hcs, hopen, Option.bind_some]
  simp only [Reading.bit_eq_zero, ite_not]
  split
  · rw [inner, List.append_assoc]
    exact run_return rfl h.gap (by simp [plain_of_blank h.gap, h.value]) h.result
  · have hbraces {cs : List Char} (hcs : plain cs = true) : '\x7b' ∉ cs ∧ '\x7d' ∉ cs := by
      simp only [plain, List.all_eq_true, Bool.and_eq_true, decide_eq_true_eq] at hcs
      exact ⟨fun hmem => (hcs _ hmem).1.2 rfl, fun hmem => (hcs _ hmem).2 rfl⟩
    refine run_skipping ?_
    simp [inner, hbraces (plain_of_blank h.gap), hbraces h.value, hbraces (plain_of_blank h.close)]

theorem Yields.run_if (h : a.Yields σ holds v) (hgap : blank gap = true) :
    runText ⟨σ, .running, []⟩ (gap ++ (a.text "if" ++ rest)) =
      if holds then some ⟨σ, .returned v, []⟩ else runText ⟨σ, .behind false, []⟩ (['\n'] ++ rest) := by
  have hlead : blank (gap ++ a.lead) = true := by simp [hgap, h.lead]
  have hplain : plain (gap ++ a.lead ++ ("if".toList ++ ' ' :: a.condition)) = true := by
    simp [plain_of_blank hgap, plain_of_blank h.lead, h.condition]
  rw [← h.run (show Phase.running.active = true from rfl) hplain (openArm_if hlead h.test)]
  simp [text]

theorem Yields.run_elseIf (h : a.Yields σ holds v) (hgap : blank gap = true) :
    runText ⟨σ, .behind false, []⟩ (gap ++ (a.text "else if" ++ rest)) =
      if holds then some ⟨σ, .returned v, []⟩ else runText ⟨σ, .behind false, []⟩ (['\n'] ++ rest) := by
  have hlead : blank (gap ++ a.lead) = true := by simp [hgap, h.lead]
  rw [← h.run rfl (by simp [plain_of_blank hgap, plain_of_blank h.lead, h.condition]) (openArm_elseIf hlead h.test)]
  simp [text]

end Arm

/-- The last arm returns its value behind conditions that do not hold. -/
theorem run_else {gap' : List Char} (hgap : blank gap = true) (hgap' : blank gap' = true) (hplain : plain value = true)
    (hvalue : choice? σ (' ' :: value) = some v) :
    runText ⟨σ, .behind false, []⟩ (gap ++ ("else \x7b".toList ++ (gap' ++ ("return ".toList ++ (value ++ ';' :: rest))))) =
      some ⟨σ, .returned v, []⟩ := by
  have hopen : openArm ⟨σ, .behind false, gap ++ ("else".toList ++ [' '])⟩ = some ⟨σ, .running, []⟩ :=
    openArm_else hgap rfl (by decide)
  have harm : runText ⟨σ, .behind false, []⟩ (gap ++ ("else".toList ++ [' ']) ++ '\x7b' ::
      (gap' ++ ("return".toList ++ ' ' :: value) ++ ';' :: rest)) = some ⟨σ, .returned v, []⟩ := by
    rw [run_openArm rfl (by simp [plain_of_blank hgap]), hopen]
    exact run_return rfl hgap' (by simp [plain_of_blank hgap', hplain]) hvalue
  simpa using harm

/-- Later arms return the value of the first one that is chosen, or what follows them does. -/
theorem run_arms {α : Type} {arm : α → Arm} {holds : α → Prop} [DecidablePred holds] {result : α → Int} {as : List α}
    (h : ∀ a ∈ as, (arm a).Yields σ (holds a) (result a)) (hgap : blank gap = true)
    (hrest : ∀ gap, blank gap = true → runText ⟨σ, .behind false, []⟩ (gap ++ rest) = some ⟨σ, .returned v, []⟩) :
    runText ⟨σ, .behind false, []⟩ (gap ++ (as.flatMap (fun a => (arm a).text "else if") ++ rest)) =
      some ⟨σ, .returned (((as.find? (holds ·)).map result).getD v), []⟩ := by
  induction as generalizing gap with
  | nil => exact hrest gap hgap
  | cons a as ih =>
    obtain ⟨ha, has⟩ := List.forall_mem_cons.1 h
    rw [List.flatMap_cons, List.append_assoc, ha.run_elseIf hgap, List.find?_cons]
    split
    · next hholds => simp [hholds]
    · next hholds =>
      rw [decide_eq_false hholds]
      exact ih has (show blank ['\n'] = true from rfl)

theorem choice?_plain {cs : List Char} (h : '?' ∉ cs) : choice? σ (' ' :: cs) = value? σ (cs.map .char) := by
  have hdrop : (' ' :: cs).dropWhile (· ≠ '?') = [] := by
    rw [List.dropWhile_eq_nil_iff]
    intro c hc
    rcases List.mem_cons.1 hc with rfl | hc
    · decide
    · exact decide_eq_true fun heq => h (heq ▸ hc)
  rw [choice?, hdrop]
  exact Reading.value?_blank_cons rfl

theorem notMem_of_wordy {s : String} {c : Char} (h : Wordy s) (hc : kind c ≠ .word) : c ∉ s.toList :=
  fun hmem => hc (h c hmem)

theorem choice?_name {name : String} (h : IsName name) : choice? σ (' ' :: name.toList) = some (σ name) :=
  (choice?_plain (notMem_of_wordy h.isWord.kind_eq (by decide))).trans ((Reading.reads_name h).value?_eq (by decide))

end Machine

/-! ### Multiplexers -/

namespace Mux

open Machine (plain blank choice?_name plain_of_wordy)

variable {σ : String → Int}

theorem isName_input (i : Nat) : IsName (input i) := by
  have hhead : (input i).toList.head? = some 'i' := by simp [input]
  have hword : Wordy (input i) := Wordy.append (Reading.kind_eq_of_all rfl) (Reading.wordy_toString i)
  refine ⟨⟨fun hnil => by simp [hnil] at hhead, hword⟩, ?_, ?_⟩
  · rw [List.all_eq_false]
    exact ⟨'i', List.mem_of_mem_head? hhead, by decide⟩
  · unfold Reading.keyword
    split
    case h_6 => rfl
    all_goals
      next heq =>
        rw [heq] at hhead
        exact absurd hhead (by decide)

theorem value?_comparison (k : Nat) :
    value? σ (.char ' ' :: ('(' :: ("mux_ctrl == ".toList ++ ((toString k).toList ++ [')', ' ']))).map .char) =
      some (Reading.bit (σ "mux_ctrl" = k)) := by
  have hname : Reads σ 4 (chars "mux_ctrl") (σ "mux_ctrl") := (Reading.reads_name (by decide)).mono (by decide)
  have hnumber : Reads σ 5 (chars (toString k)) k := (Reading.reads_toString k).mono (by decide)
  have hequal := Reading.reads_spaced Reading.spells_eq hname hnumber
  have htext : chars "mux_ctrl" ++ (.char ' ' :: ("==".toList.map .char ++ .char ' ' :: chars (toString k))) =
      ("mux_ctrl == ".toList ++ (toString k).toList).map .char := by
    simp [chars]
  rw [htext] at hequal
  rw [← List.append_assoc]
  exact Reading.value?_condition hequal (by decide) (Reading.kind_eq_of_all rfl)

/-- The arm of a comparison, whose braces stand so far in. -/
def arm (lead : String) (c : Nat × Nat) : Machine.Arm where
  lead := lead.toList
  condition := '(' :: ("mux_ctrl == ".toList ++ ((toString c.1).toList ++ [')', ' ']))
  gap := ("\n  " ++ lead).toList
  value := (input c.2).toList
  close := ("\n" ++ lead).toList

theorem arm_yields {lead : String} (hlead : blank lead.toList = true) (c : Nat × Nat) :
    (arm lead c).Yields σ (σ "mux_ctrl" = c.1) (σ (input c.2)) := by
  have hspace : kind '\n' = .blank ∧ kind ' ' = .blank := by decide
  exact {
    lead := hlead
    condition := by simpa [arm] using plain_of_wordy (Reading.wordy_toString c.1)
    test := value?_comparison c.1
    gap := by simpa [arm, blank, hspace] using hlead
    value := plain_of_wordy (isName_input c.2).isWord.kind_eq
    result := choice?_name (isName_input c.2)
    close := by simpa [arm, blank, hspace] using hlead }

theorem toList_caseText (c : Nat × Nat) : (caseText c).toList = (arm "      " c).text "else if" := by
  unfold caseText
  simp [arm, Machine.Arm.text, Machine.Arm.inner]

theorem result?_bodyText (m : Mux) (hname : Wordy m.name) :
    result? σ m.bodyText = some (σ (input (m.select (σ (m.name ++ "_ctrl_local"))))) := by
  have hlast := plain_of_wordy (isName_input m.lastInput).isWord.kind_eq
  rw [select]
  cases hcases : m.cases with
  | nil =>
    have htext : m.bodyText.toList =
        "    ".toList ++ ("return".toList ++ ' ' :: (input m.lastInput).toList) ++ [';', '\n'] := by
      rw [bodyText, hcases]
      simp
    rw [result?, htext, Machine.run_return rfl (by decide) (by simp [hlast]) (choice?_name (isName_input m.lastInput))]
    rfl
  | cons first cases =>
    have hcontrol : IsName (m.name ++ "_ctrl_local") :=
      Reading.isName_of_mem (hname.append (Reading.kind_eq_of_all rfl)) (by simp)
    have hword := plain_of_wordy hcontrol.isWord.kind_eq
    have hdeclaration : Machine.statement ⟨σ, .running, "    ".toList ++ ("int".toList ++ ' ' ::
        ("mux_ctrl".toList ++ ' ' :: '=' :: ' ' :: (m.name ++ "_ctrl_local").toList))⟩ =
          some ⟨Function.update σ "mux_ctrl" (σ (m.name ++ "_ctrl_local")), .running, []⟩ :=
      Machine.statement_declaration (by decide) ⟨by decide, Reading.kind_eq_of_all rfl⟩ (choice?_name hcontrol)
    have htext : m.bodyText.toList = "    ".toList ++ ("int".toList ++ ' ' :: ("mux_ctrl".toList ++ ' ' :: '=' :: ' ' ::
        (m.name ++ "_ctrl_local").toList)) ++ ';' :: (['\n'] ++ ((arm "    " first).text "if" ++ (['\n'] ++
          (cases.flatMap (fun c => (arm "      " c).text "else if") ++ ("\n    ".toList ++ ("else \x7b".toList ++
            ([' '] ++ ("return ".toList ++ ((input m.lastInput).toList ++ ';' :: " \x7d\n".toList))))))))) := by
      rw [← funext toList_caseText, bodyText, hcases]
      simp [arm, Machine.Arm.text, Machine.Arm.inner, List.flatMap_map]
    have hinput (k : Nat) (v : Int) : Function.update σ "mux_ctrl" v (input k) = σ (input k) := by
      refine Function.update_of_ne (fun heq => ?_) v σ
      have hhead := congrArg (fun s => s.toList.head?) heq
      simp [input] at hhead
    rw [result?, htext, Machine.run_statement rfl (by simpa using hword), hdeclaration, Option.bind_some,
      (arm_yields (by decide) first).run_if rfl, Function.update_self]
    rw [← List.append_assoc, Machine.run_arms (fun c _ => arm_yields (by decide) c) (by decide) fun gap hgap => by
      rw [← List.append_assoc]
      exact Machine.run_else (by rw [Machine.blank_append, hgap]; rfl) rfl hlast (choice?_name (isName_input m.lastInput))]
    rw [List.find?_cons, Function.update_self]
    by_cases hfirst : σ (m.name ++ "_ctrl_local") = first.1
    · simp [hfirst, hinput]
    · have hvalue (o : Option (Nat × Nat)) : (o.map fun c => σ (input c.2)).getD (σ (input m.lastInput)) =
          σ (input ((o.map Prod.snd).getD m.lastInput)) := by
        cases o <;> rfl
      have hchosen : (fun c : Nat × Nat => (c.1 : Int) == σ (m.name ++ "_ctrl_local")) =
          fun c => decide (σ (m.name ++ "_ctrl_local") = c.1) :=
        funext fun c => Bool.eq_iff_iff.2 (by rw [beq_iff_eq, decide_eq_true_iff, eq_comm])
      rw [if_neg hfirst, beq_eq_false_iff_ne.2 (Ne.symm hfirst), hchosen]
      simp only [hinput, hvalue]
      rfl

end Mux

/-- The control of a multiplexer has the fewest bits that tell its inputs apart. The function returns the input of each
number below the number of inputs, and the last input for all others. -/
theorem mux_reaches_each_input (files : Files) (g : Generator) {n : Nat} {name : String} (hn : 1 ≤ n)
    (hle : n ≤ 2 ^ 32) (hname : Wordy name) :
    ∃ (width : Nat) (text body : String),
      EndsIn (Generator.mux n name) files g text { g with holes := g.holes ++ [⟨name ++ "_ctrl", width⟩] } ∧
      (∀ i < n, i < 2 ^ width) ∧ (1 < n → 2 ^ (width - 1) < n) ∧
      Spells name text ((List.range n).map (fun i => "int " ++ Mux.input i) ++ ["int " ++ name ++ "_ctrl_local"])
        (body ++ "\x7d") ∧
      ∀ σ : String → Int,
        (∀ i : Nat, i < n → σ (name ++ "_ctrl_local") = i → result? σ body = some (σ (Mux.input i))) ∧
        (n - 1 ≤ σ (name ++ "_ctrl_local") → result? σ body = some (σ (Mux.input (n - 1)))) := by
  have hbits := bitWidth_eq_clog hn (hle.trans (by decide))
  have hselect (i : Nat) (σ : String → Int) (hi : σ (name ++ "_ctrl_local") = i) :
      result? σ (Mux.mk name n).bodyText = some (σ (Mux.input (min i (n - 1)))) := by
    rw [Mux.result?_bodyText (Mux.mk name n) hname, hi, Mux.select_natCast]
  refine ⟨Nat.clog 2 n, (Mux.mk name n).text, (Mux.mk name n).bodyText, ?_, fun i hi => ?_, fun hone => ?_,
    @Mux.spells (Mux.mk name n) hn, fun σ => ⟨fun i hi hcontrol => ?_, fun hcontrol => ?_⟩⟩
  · unfold Generator.mux
    rw [if_neg (by omega)]
    simp only [endsIn_bind, Generator.endsIn_lift, endsIn_pure]
    refine ⟨Nat.clog 2 n, g, ⟨hbits, rfl⟩, (), _, ?_, rfl, rfl⟩
    unfold Generator.addHole
    rw [if_pos (Int.natCast_nonneg _)]
    exact endsIn_modify.2 rfl
  · exact hi.trans_le (Nat.le_pow_clog (by decide) n)
  · exact Nat.pow_pred_clog_lt_self (by decide) hone
  · rw [hselect i σ hcontrol, Nat.min_eq_left (by omega)]
  · obtain ⟨i, hi⟩ := Int.eq_ofNat_of_zero_le (show 0 ≤ σ (name ++ "_ctrl_local") by omega)
    rw [hselect i σ hi, Nat.min_eq_right (by omega)]

theorem mux_reaches_each_of_five_inputs : 1 ≤ 5 ∧ 5 ≤ 2 ^ 32 ∧ Wordy "out" ∧ ∀ (files : Files) (g : Generator),
    ∃ (width : Nat) (text body : String),
      EndsIn (Generator.mux (5 : Nat) "out") files g text { g with holes := g.holes ++ [⟨"out" ++ "_ctrl", width⟩] } ∧
      (∀ i < 5, i < 2 ^ width) ∧ (1 < 5 → 2 ^ (width - 1) < 5) ∧
      Spells "out" text ((List.range 5).map (fun i => "int " ++ Mux.input i) ++ ["int " ++ "out" ++ "_ctrl_local"])
        (body ++ "\x7d") ∧
      ∀ σ : String → Int,
        (∀ i : Nat, i < 5 → σ ("out" ++ "_ctrl_local") = i → result? σ body = some (σ (Mux.input i))) ∧
        ((5 : Nat) - 1 ≤ σ ("out" ++ "_ctrl_local") → result? σ body = some (σ (Mux.input (5 - 1)))) := by
  have hname : Wordy "out" := Reading.kind_eq_of_all rfl
  exact ⟨by decide, by decide, hname, fun files g => mux_reaches_each_input files g (by decide) (by decide) hname⟩

end SwitchSynth.Sketch
