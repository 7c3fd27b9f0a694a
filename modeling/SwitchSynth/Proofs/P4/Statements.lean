import SwitchSynth.Proofs.P4.Expressions
import SwitchSynth.Proofs.Sketch.Walk

/-!
# Writing and lowering the same statements

A stateful ALU is written into a sketch and lowered into a switch program statement by statement. Both visit
the same expressions in the same order, so where writing ends, lowering ends too, and the helpers of the one
stay in step with the holes of the other. For each temporary that the switch program needs, the text that is
kept and the code of its declaration come from the same expression behind the same helpers.
-/

namespace SwitchSynth

namespace Alu

/-- Expressions without a primitive and without `True`. -/
def Expr.Plain : Expr → Prop
  | .var _ | .num _ => True
  | .paren inner _ => inner.Plain
  | .binary _ left right => left.Plain ∧ right.Plain
  | .not operand => operand.Plain
  | .ternary condition yes no => condition.Plain ∧ yes.Plain ∧ no.Plain
  | _ => False

/-- A temporary, as it is declared. -/
structure Temporary where
  sort : TempSort
  name : String
  value : Expr
  deriving DecidableEq

mutual
/-- The temporaries that a statement declares, in order. -/
def Stmt.temporaries : Stmt → List Temporary
  | .temp sort name value _ => [⟨sort, name, value⟩]
  | .branch _ inner rest => inner.temporaries ++ rest.temporaries
  | .update _ _ _ | .ret _ _ | .assertFalse => []
def Body.temporaries : Body → List Temporary
  | .last s => s.temporaries
  | .cons s rest => s.temporaries ++ rest.temporaries
/-- The temporaries that the later arms of a branch declare, in order. -/
def Else.temporaries : Else → List Temporary
  | .none => []
  | .elif _ inner rest => inner.temporaries ++ rest.temporaries
  | .otherwise inner => inner.temporaries
end

mutual
/-- What is assigned is in the fragment; conditions and returned values are plain. -/
def Stmt.InFragment : Stmt → Prop
  | .update _ value _ => ∃ s, Sketch.InFragment s value
  | .temp sort _ value _ => Sketch.InFragment sort value
  | .ret value _ => value.Plain
  | .branch condition inner rest => condition.Plain ∧ inner.InFragment ∧ rest.InFragment
  | .assertFalse => True
def Body.InFragment : Body → Prop
  | .last s => s.InFragment
  | .cons s rest => s.InFragment ∧ rest.InFragment
/-- Every later arm of a branch is in the fragment. -/
def Else.InFragment : Else → Prop
  | .none => True
  | .elif condition inner rest => condition.Plain ∧ inner.InFragment ∧ rest.InFragment
  | .otherwise inner => inner.InFragment
end

end Alu

namespace Sketch

def Code.Declares (code : Code) (sort : Alu.TempSort) (name : String) (value : Code) : Prop :=
  ∃ before : Code, Code.Begins (before ++ sort.text ++ name ++ "=" ++ value ++ ";") code

theorem Code.Declares.mono {code code' : Code} {sort : Alu.TempSort} {name : String} {value : Code}
    (h : code.Declares sort name value) (hbegins : code.Begins code') :
    code'.Declares sort name value := by
  obtain ⟨before, hbefore⟩ := h
  exact ⟨before, hbefore.trans hbegins⟩

end Sketch

namespace P4.StatefulAlu

open Alu (Expr Stmt Body Else Temporary)
open Sketch (Helper Code helpersAfter codeOf)
open Sketch.StatefulAlu (Draft Write putExpr putStmt putBody putElse putReturn)

/-! ### Steps that touch neither helpers nor holes -/

def QuietlyWrites {α : Type} (w : Write α) : Prop :=
  ∀ d a d', Ends w d a d' → d'.helpers = d.helpers ∧ d.main.Begins d'.main

/-- Lowering that always ends and uses up no hole. -/
def QuietlyLowers {α : Type} (r : Setting) (m : Lower α) : Prop :=
  ∀ l, ∃ a l', EndsIn m r l a l' ∧ l'.holes = l.holes ∧ l'.resolved = l.resolved ∧
    l'.expressions = l.expressions

section Quiet

variable {α β : Type} {r : Setting}

theorem quietlyWrites_put (c : Code) : QuietlyWrites (Sketch.StatefulAlu.put c) := by
  intro d _ d' h
  obtain rfl := ends_modify.1 h
  exact ⟨rfl, .append .refl⟩

theorem quietlyWrites_get : QuietlyWrites (get : Write Draft) := by
  intro d _ d' h
  obtain ⟨-, rfl⟩ := ends_get.1 h
  exact ⟨rfl, .refl⟩

theorem quietlyWrites_declare (names : List String) :
    QuietlyWrites (Sketch.StatefulAlu.declare names) := by
  intro d _ d' h
  obtain rfl := ends_modify.1 h
  exact ⟨rfl, .refl⟩

theorem QuietlyWrites.bind {w : Write α} {f : α → Write β} (hw : QuietlyWrites w)
    (hf : ∀ a, QuietlyWrites (f a)) : QuietlyWrites (w >>= f) := by
  intro d b d' h
  obtain ⟨a, d₁, h₁, h₂⟩ := ends_bind.1 h
  obtain ⟨hhelpers₁, hbegins₁⟩ := hw d a d₁ h₁
  obtain ⟨hhelpers₂, hbegins₂⟩ := hf a d₁ b d' h₂
  exact ⟨hhelpers₂.trans hhelpers₁, hbegins₁.trans hbegins₂⟩

theorem quietlyWrites_putFields (names : List String) :
    QuietlyWrites (Sketch.StatefulAlu.putFields names) := by
  refine .bind (fun _ _ _ h => ?_) fun _ => quietlyWrites_put _
  obtain rfl := ends_modify.1 h
  exact ⟨rfl, .refl⟩

theorem quietlyWrites_putOpening : QuietlyWrites Sketch.StatefulAlu.putOpening :=
  .bind (quietlyWrites_put _) fun _ => .bind (quietlyWrites_put _) fun _ => quietlyWrites_put _

theorem quietlyWrites_forIn (xs : List α) {code : α → Code} {f : α → PUnit → Write (ForInStep PUnit)}
    (hf : ∀ x u, f x u = Sketch.StatefulAlu.put (code x) >>= fun _ => pure (.yield ⟨⟩)) :
    QuietlyWrites (forIn xs ⟨⟩ f) := by
  induction xs with
  | nil =>
    intro d _ d' h
    obtain ⟨-, rfl⟩ := ends_pure.1 h
    exact ⟨rfl, .refl⟩
  | cons x xs ih =>
    rw [List.forIn_cons, hf, bind_assoc]
    exact .bind (quietlyWrites_put _) fun _ => by rw [pure_bind]; exact ih

theorem quietlyLowers_put (s : String) : QuietlyLowers r (put s) :=
  fun _ => ⟨⟨⟩, _, endsIn_modify.2 rfl, rfl, rfl, rfl⟩

theorem quietlyLowers_get : QuietlyLowers r (get : Lower Lowering) :=
  fun l => ⟨l, l, endsIn_get.2 ⟨rfl, rfl⟩, rfl, rfl, rfl⟩

theorem quietlyLowers_read : QuietlyLowers r (read : Lower Setting) :=
  fun l => ⟨r, l, endsIn_read.2 ⟨rfl, rfl⟩, rfl, rfl, rfl⟩

theorem quietlyLowers_declare (names : List String) : QuietlyLowers r (declare names) :=
  fun _ => ⟨⟨⟩, _, endsIn_modify.2 rfl, rfl, rfl, rfl⟩

theorem quietlyLowers_variableText (name : String) : QuietlyLowers r (variableText name) :=
  fun l => ⟨_, l, variableText_ends r l name, rfl, rfl, rfl⟩

theorem QuietlyLowers.bind {m : Lower α} {f : α → Lower β} (hm : QuietlyLowers r m)
    (hf : ∀ a, QuietlyLowers r (f a)) : QuietlyLowers r (m >>= f) := by
  intro l
  obtain ⟨a, l₁, hend₁, hholes₁, hresolved₁, hexpr₁⟩ := hm l
  obtain ⟨b, l₂, hend₂, hholes₂, hresolved₂, hexpr₂⟩ := hf a l₁
  exact ⟨b, l₂, endsIn_bind.2 ⟨a, l₁, hend₁, hend₂⟩, hholes₂.trans hholes₁,
    hresolved₂.trans hresolved₁, hexpr₂.trans hexpr₁⟩

theorem quietlyLowers_takeFields (names : List String) : QuietlyLowers r (takeFields names) :=
  .bind (fun _ => ⟨⟨⟩, _, endsIn_modify.2 rfl, rfl, rfl, rfl⟩) fun _ => quietlyLowers_put _

theorem quietlyLowers_forIn (xs : List α) {text : α → String}
    {f : α → PUnit → Lower (ForInStep PUnit)}
    (hf : ∀ x u, f x u = put (text x) >>= fun _ => pure (.yield ⟨⟩)) :
    QuietlyLowers r (forIn xs ⟨⟩ f) := by
  induction xs with
  | nil => exact fun l => ⟨⟨⟩, l, endsIn_pure.2 ⟨rfl, rfl⟩, rfl, rfl, rfl⟩
  | cons x xs ih =>
    rw [List.forIn_cons, hf, bind_assoc]
    exact .bind (quietlyLowers_put _) fun _ => by rw [pure_bind]; exact ih

end Quiet

variable {r : Setting} {holes : Table Int}

/-! ### Expressions -/

/-- Lowering an expression ends with a text and keeps up with the helpers. -/
structure HasText (r : Setting) (holes : Table Int) (e : Expr) : Prop where
  grows : ∀ hs, hs <+: helpersAfter e hs
  ends : ∀ {hs l}, Synced r holes hs l → Assigned r holes (helpersAfter e hs) → ∃ text l',
    EndsIn (lowerExpr e) r l (some text) l' ∧ Synced r holes (helpersAfter e hs) l' ∧
    l'.expressions = l.expressions

variable {e : Expr} {ts ts' : List Temporary} {t : Temporary}

theorem hasText_of_inFragment (hr : r.WellFormed) {s : Alu.TempSort}
    (h : Sketch.InFragment s e) : HasText r holes e where
  grows := Sketch.helpersAfter_extends h
  ends hsync hassigned := by
    obtain ⟨text, l', hend, hsync', hexpr, -⟩ := lowers hr h hsync hassigned
    exact ⟨text, l', hend, hsync', hexpr⟩

theorem helpersAfter_plain (h : e.Plain) (hs : List Helper) : helpersAfter e hs = hs := by
  induction e with
  | var | num => rfl
  | paren inner _ ih => exact ih h
  | binary op left right ihl ihr =>
    show helpersAfter right (helpersAfter left hs) = hs
    rw [ihl h.1, ihr h.2]
  | not operand ih => exact ih h
  | ternary condition yes no ihc ihy ihn =>
    show helpersAfter no (helpersAfter yes (helpersAfter condition hs)) = hs
    rw [ihc h.1, ihy h.2.1, ihn h.2.2]
  | _ => exact False.elim h

theorem lowerExpr_plain (h : e.Plain) (l : Lowering) :
    ∃ text, EndsIn (lowerExpr e) r l (some text) l := by
  induction e with
  | var name =>
    unfold lowerExpr
    exact ⟨_, endsIn_bind.2 ⟨_, l, variableText_ends r l name, endsIn_pure.2 ⟨rfl, rfl⟩⟩⟩
  | num digits =>
    unfold lowerExpr
    exact ⟨digits, endsIn_pure.2 ⟨rfl, rfl⟩⟩
  | paren inner _ ih =>
    obtain ⟨text, hend⟩ := ih h
    unfold lowerExpr
    simp only [endsIn_bind]
    exact ⟨_, _, l, hend, text, l, endsIn_pure.2 ⟨rfl, rfl⟩, endsIn_pure.2 ⟨rfl, rfl⟩⟩
  | binary op left right ihl ihr =>
    obtain ⟨a, ha⟩ := ihl h.1
    obtain ⟨b, hb⟩ := ihr h.2
    -- Some operators have the value of their right operand, the others join both texts.
    unfold lowerExpr
    simp only [endsIn_bind]
    cases op <;> first
      | exact ⟨b, _, l, ha, hb⟩
      | (simp only [endsIn_bind]
         exact ⟨_, _, l, ha, a, l, endsIn_pure.2 ⟨rfl, rfl⟩, _, l, hb, b, l,
           endsIn_pure.2 ⟨rfl, rfl⟩, endsIn_pure.2 ⟨rfl, rfl⟩⟩)
  | not operand ih =>
    obtain ⟨text, hend⟩ := ih h
    unfold lowerExpr
    simp only [endsIn_bind]
    exact ⟨_, _, l, hend, text, l, endsIn_pure.2 ⟨rfl, rfl⟩, endsIn_pure.2 ⟨rfl, rfl⟩⟩
  | ternary condition yes no ihc ihy ihn =>
    obtain ⟨_, hc⟩ := ihc h.1
    obtain ⟨_, hy⟩ := ihy h.2.1
    obtain ⟨text, hn⟩ := ihn h.2.2
    unfold lowerExpr
    simp only [endsIn_bind]
    exact ⟨text, _, l, hc, _, l, hy, hn⟩
  | _ => exact False.elim h

theorem hasText_of_plain (h : e.Plain) : HasText r holes e where
  grows hs := ⟨[], by rw [List.append_nil, helpersAfter_plain h]⟩
  ends {hs l} hsync _ := by
    obtain ⟨text, hend⟩ := lowerExpr_plain h l
    rw [helpersAfter_plain h]
    exact ⟨text, l, hend, hsync, rfl⟩

/-! ### What a part of an ALU does -/

def declarations (name : String) (ts : List Temporary) : List Temporary :=
  ts.filter fun t => t.name = name

/-- The text that is kept for a temporary and the code of its declaration come from its value, behind the
same helpers. -/
def Kept (r : Setting) (holes : Table Int) (t : Temporary) (main : Code)
    (expressions : Table String) : Prop :=
  ∃ hs text, expressions.get? (t.name ++ "_expr") = some text ∧
    main.Declares t.sort t.name (codeOf t.value hs) ∧ Sketch.InFragment t.sort t.value ∧
    LowersTo r holes t.sort t.value hs text

/-- What has been written and lowered before and after a part that declares some temporaries. -/
structure Step (r : Setting) (holes : Table Int) (ts : List Temporary) (d : Draft) (l : Lowering)
    (d' : Draft) (l' : Lowering) : Prop where
  synced : Synced r holes d'.helpers l'
  begins : d.main.Begins d'.main
  others : ∀ name, declarations name ts = [] →
    l'.expressions.get? (name ++ "_expr") = l.expressions.get? (name ++ "_expr")
  kept : ∀ t, t.name ∈ neededNames → declarations t.name ts = [t] →
    Kept r holes t d'.main l'.expressions

theorem Step.trans {d d₁ d' : Draft} {l l₁ l' : Lowering}
    (h : Step r holes ts d l d₁ l₁) (h' : Step r holes ts' d₁ l₁ d' l') :
    Step r holes (ts ++ ts') d l d' l' where
  synced := h'.synced
  begins := h.begins.trans h'.begins
  others name hnone := by
    rw [declarations, List.filter_append, List.append_eq_nil_iff] at hnone
    rw [h'.others name hnone.2, h.others name hnone.1]
  kept t hneeded honce := by
    rw [declarations, List.filter_append, List.append_eq_singleton_iff] at honce
    rcases honce with ⟨-, honce⟩ | ⟨honce, hnone⟩
    · exact h'.kept t hneeded honce
    · -- What was kept by the first part, the second does not touch.
      obtain ⟨hs, text, hget, hdeclares, hfragment, hlowers⟩ := h.kept t hneeded honce
      exact ⟨hs, text, (h'.others t.name hnone).trans hget, hdeclares.mono h'.begins, hfragment,
        hlowers⟩

/-- Where writing ends, lowering does, and both have made the same step. -/
structure Simulates (r : Setting) (holes : Table Int) (ts : List Temporary) (w : Write Unit)
    (m : Lower Unit) : Prop where
  grows : ∀ {d d'}, Ends w d () d' → d.helpers <+: d'.helpers
  simulates : ∀ {d l d'}, Synced r holes d.helpers l → Ends w d () d' →
    Assigned r holes d'.helpers → ∃ l', EndsIn m r l () l' ∧ Step r holes ts d l d' l'

theorem Simulates.bind {w w' : Write Unit} {m m' : Lower Unit}
    (h : Simulates r holes ts w m) (h' : Simulates r holes ts' w' m') :
    Simulates r holes (ts ++ ts') (w >>= fun _ => w') (m >>= fun _ => m') where
  grows hend := by
    obtain ⟨_, _, hfirst, hrest⟩ := ends_bind.1 hend
    exact (h.grows hfirst).trans (h'.grows hrest)
  simulates hsync hend hassigned := by
    obtain ⟨_, d₁, hfirst, hrest⟩ := ends_bind.1 hend
    obtain ⟨l₁, hend₁, hstep₁⟩ := h.simulates hsync hfirst (hassigned.mono (h'.grows hrest))
    obtain ⟨l', hend', hstep'⟩ := h'.simulates hstep₁.synced hrest hassigned
    exact ⟨l', endsIn_bind.2 ⟨(), l₁, hend₁, hend'⟩, hstep₁.trans hstep'⟩

section

variable {α : Type} {ts : List Temporary} {w : Write Unit} {m : Lower Unit}

theorem Step.of_quiet {d d' : Draft} {l l' : Lowering} (hsync : Synced r holes d.helpers l)
    (hhelpers : d'.helpers = d.helpers) (hbegins : d.main.Begins d'.main)
    (hholes : l'.holes = l.holes) (hresolved : l'.resolved = l.resolved)
    (hexpr : l'.expressions = l.expressions) : Step r holes [] d l d' l' where
  synced := by
    refine ⟨by rw [hhelpers, hresolved, hsync.resolved], fun f n hn => ?_⟩
    rw [hhelpers] at hn
    rw [hholes, hsync.untouched f n hn]
  begins := hbegins
  others _ _ := by rw [hexpr]
  kept _ _ honce := nomatch honce

theorem Simulates.of_quiet {w : Write Unit} {m : Lower Unit} (hw : QuietlyWrites w)
    (hm : QuietlyLowers r m) : Simulates r holes [] w m where
  grows hend := ⟨[], by rw [List.append_nil, (hw _ _ _ hend).1]⟩
  simulates {_ l _} hsync hend _ := by
    obtain ⟨hhelpers, hbegins⟩ := hw _ _ _ hend
    obtain ⟨_, l', hend', hholes, hresolved, hexpr⟩ := hm l
    exact ⟨l', hend', .of_quiet hsync hhelpers hbegins hholes hresolved hexpr⟩

theorem Simulates.writing {w : Write α} {f : α → Write Unit} (hw : QuietlyWrites w)
    (h : ∀ a, Simulates r holes ts (f a) m) : Simulates r holes ts (w >>= f) m where
  grows hend := by
    obtain ⟨a, _, hfirst, hrest⟩ := ends_bind.1 hend
    rw [← (hw _ _ _ hfirst).1]
    exact (h a).grows hrest
  simulates {d l d'} hsync hend hassigned := by
    obtain ⟨a, d₁, hfirst, hrest⟩ := ends_bind.1 hend
    obtain ⟨hhelpers, hbegins⟩ := hw d a d₁ hfirst
    have hstep : Step r holes [] d l d₁ l := .of_quiet hsync hhelpers hbegins rfl rfl rfl
    obtain ⟨l', hend', hstep'⟩ := (h a).simulates hstep.synced hrest hassigned
    exact ⟨l', hend', hstep.trans hstep'⟩

theorem Simulates.lowering {m : Lower α} {f : α → Lower Unit} (hm : QuietlyLowers r m)
    (h : ∀ a, Simulates r holes ts w (f a)) : Simulates r holes ts w (m >>= f) where
  grows := by
    obtain ⟨a, -⟩ := hm {}
    exact (h a).grows
  simulates {d l d'} hsync hend hassigned := by
    obtain ⟨a, l₁, hend₁, hholes, hresolved, hexpr⟩ := hm l
    have hstep : Step r holes [] d l d l₁ := .of_quiet hsync rfl .refl hholes hresolved hexpr
    obtain ⟨l', hend', hstep'⟩ := (h a).simulates hstep.synced hend hassigned
    exact ⟨l', endsIn_bind.2 ⟨a, l₁, hend₁, hend'⟩, hstep.trans hstep'⟩

theorem Simulates.put {c : Code} {s : String} (h : Simulates r holes ts w m) :
    Simulates r holes ts (Sketch.StatefulAlu.put c >>= fun _ => w)
      (StatefulAlu.put s >>= fun _ => m) :=
  .writing (quietlyWrites_put c) fun _ => .lowering (quietlyLowers_put s) fun _ => h

theorem Simulates.closed {c : Code} {s : String} (h : Simulates r holes ts w m) :
    Simulates r holes ts (w >>= fun _ => Sketch.StatefulAlu.put c)
      (m >>= fun _ => StatefulAlu.put s) := by
  have hbind := h.bind (.of_quiet (quietlyWrites_put c) (quietlyLowers_put s))
  rw [List.append_nil] at hbind
  exact hbind

theorem Simulates.require {holds : Bool} {c c' : Check} (h : Simulates r holes ts w m) :
    Simulates r holes ts (Sketch.StatefulAlu.require holds c >>= fun _ => w)
      (StatefulAlu.require holds c' >>= fun _ => m) := by
  cases holds with
  | true => exact h
  | false =>
    -- Writing stops here, so there is nothing to keep up with.
    have hstops {d d' : Draft} :
        ¬ Ends (Sketch.StatefulAlu.require false c >>= fun _ => w) d () d' := by
      intro hend
      obtain ⟨_, _, hfirst, -⟩ := ends_bind.1 hend
      exact ends_throw hfirst
    exact ⟨fun hend => absurd hend hstops, fun _ hend _ => absurd hend hstops⟩

theorem Simulates.expr {e : Expr} (he : HasText r holes e) (h : Simulates r holes ts w m) :
    Simulates r holes ts (putExpr e >>= fun _ => w)
      (lowerExpr e >>= fun v => putValue v >>= fun _ => m) := by
  have hexpr : Simulates r holes [] (putExpr e) (lowerExpr e >>= putValue) := by
    refine ⟨fun hend => ?_, fun {d l d'} hsync hend hassigned => ?_⟩
    · obtain rfl := ends_modify.1 hend
      exact he.grows _
    · obtain rfl := ends_modify.1 hend
      obtain ⟨text, l', hend', hsync', hexpr⟩ := he.ends hsync hassigned
      refine ⟨{ l' with main := l'.main ++ text }, ?_, ⟨hsync'.resolved, hsync'.untouched⟩,
        .append .refl, fun _ _ => by rw [← hexpr], fun _ _ honce => nomatch honce⟩
      refine endsIn_bind.2 ⟨_, l', hend', ?_⟩
      exact endsIn_bind.2 ⟨text, l', endsIn_pure.2 ⟨rfl, rfl⟩, endsIn_modify.2 rfl⟩
  rw [← bind_assoc]
  exact hexpr.bind h

end

/-! ### Statements -/

/-- The text of a temporary is kept under its name if the switch program needs it. -/
theorem keep_ends (name text : String) (l : Lowering) :
    ∃ l', EndsIn (keep name text) r l () l' ∧ l'.holes = l.holes ∧ l'.resolved = l.resolved ∧
      (∀ key, name ++ "_expr" ≠ key → l'.expressions.get? key = l.expressions.get? key) ∧
      (name ∈ neededNames → l'.expressions.get? (name ++ "_expr") = some text) := by
  unfold keep
  by_cases hneeded : name ∈ neededNames
  · rw [if_pos hneeded]
    refine ⟨_, endsIn_modify.2 rfl, rfl, rfl, fun key hkey => ?_, fun _ => ?_⟩
    · exact Table.get?_insert_of_ne _ _ hkey
    · exact Table.get?_insert_self _ _ _
  · rw [if_neg hneeded]
    exact ⟨l, endsIn_pure.2 ⟨rfl, rfl⟩, rfl, rfl, fun _ _ => rfl, fun h => absurd h hneeded⟩

/-- Write a declaration, once it is known to be terminated. -/
def putTemporary (t : Temporary) : Write Unit := do
  Sketch.StatefulAlu.put t.sort.text
  Sketch.StatefulAlu.put t.name
  Sketch.StatefulAlu.put "="
  putExpr t.value
  Sketch.StatefulAlu.put ";"

/-- Lower a declaration, once it is known to be terminated. -/
def lowerTemporary (t : Temporary) : Lower Unit := do
  put t.sort.text
  put t.name
  put "="
  let s ← needText (← lowerExpr t.value)
  put s
  put ";"
  keep t.name s

theorem putTemporary_ends {d d' : Draft} (h : Ends (putTemporary t) d () d') :
    d'.helpers = helpersAfter t.value d.helpers ∧
      d'.main = d.main ++ t.sort.text ++ t.name ++ "=" ++ codeOf t.value d.helpers ++ ";" := by
  unfold putTemporary at h
  simp only [ends_bind] at h
  obtain ⟨_, _, h₁, _, _, h₂, _, _, h₃, _, _, h₄, h₅⟩ := h
  obtain rfl := ends_modify.1 h₁
  obtain rfl := ends_modify.1 h₂
  obtain rfl := ends_modify.1 h₃
  obtain rfl := ends_modify.1 h₄
  obtain rfl := ends_modify.1 h₅
  exact ⟨rfl, rfl⟩

theorem simulates_temporary (hr : r.WellFormed)
    (h : Sketch.InFragment t.sort t.value) :
    Simulates r holes [t] (putTemporary t) (lowerTemporary t) := by
  refine ⟨fun hend => ?_, fun {d l d'} hsync hend hassigned => ?_⟩
  · rw [(putTemporary_ends hend).1]
    exact Sketch.helpersAfter_extends h _
  · obtain ⟨hhelpers, hmain⟩ := putTemporary_ends hend
    rw [hhelpers] at hassigned
    -- The value is lowered behind the three texts in front of it.
    have hsync₀ : Synced r holes d.helpers
        { l with main := l.main ++ t.sort.text ++ t.name ++ "=" } :=
      ⟨hsync.resolved, hsync.untouched⟩
    obtain ⟨text, l₁, hend₁, hsync₁, hexpr₁, hlowers⟩ := lowers hr h hsync₀ hassigned
    obtain ⟨l', hend', hholes, hresolved, hothers, hkept⟩ :=
      keep_ends (r := r) t.name text { l₁ with main := l₁.main ++ text ++ ";" }
    refine ⟨l', ?_, ⟨?_, fun f n hn => ?_⟩, ?_, fun name hnone => ?_, fun t' hneeded honce => ?_⟩
    · unfold lowerTemporary
      simp only [endsIn_bind]
      exact ⟨⟨⟩, _, endsIn_modify.2 rfl, ⟨⟩, _, endsIn_modify.2 rfl, ⟨⟩, _, endsIn_modify.2 rfl, _, l₁,
        hend₁, text, l₁, endsIn_pure.2 ⟨rfl, rfl⟩, ⟨⟩, _, endsIn_modify.2 rfl, ⟨⟩, _,
        endsIn_modify.2 rfl, hend'⟩
    · rw [hresolved, hhelpers]
      exact hsync₁.resolved
    · rw [hholes]
      rw [hhelpers] at hn
      exact hsync₁.untouched f n hn
    · rw [hmain]
      exact .append (.append (.append (.append (.append .refl))))
    · have hne : t.name ≠ name := by simpa [declarations] using hnone
      rw [hothers _ fun heq => hne ((String.append_left_inj _).1 heq)]
      exact congrArg (fun table => table.get? (name ++ "_expr")) hexpr₁
    · -- The only declaration of its name is the temporary itself.
      have hmem : t' ∈ declarations t'.name [t] := honce ▸ List.mem_singleton.2 rfl
      obtain rfl : t' = t := List.mem_singleton.1 (List.mem_filter.1 hmem).1
      exact ⟨d.helpers, text, hkept hneeded, ⟨d.main, hmain ▸ .refl⟩, h, hlowers⟩

theorem simulates_return {value : Expr} (h : value.Plain) :
    Simulates r holes [] (putReturn value) (lowerReturn value) := by
  unfold putReturn lowerReturn
  refine .writing quietlyWrites_get fun d => .lowering quietlyLowers_get fun l => ?_
  refine .writing (quietlyWrites_forIn _ fun _ _ => rfl) fun _ => ?_
  refine .lowering (quietlyLowers_forIn _ fun _ _ => rfl) fun _ => ?_
  exact .put (.expr (hasText_of_plain h) (.of_quiet (quietlyWrites_put _) (quietlyLowers_put _)))

mutual
theorem simulates_stmt (hr : r.WellFormed) : ∀ s : Stmt, s.InFragment →
    Simulates r holes s.temporaries (putStmt s) (lowerStmt s)
  | .update target value terminator, h => by
    obtain ⟨_, h⟩ := h
    unfold putStmt lowerStmt
    refine .require (.writing (quietlyWrites_put _) fun _ => ?_)
    refine .lowering (quietlyLowers_variableText target) fun _ => ?_
    refine .lowering (quietlyLowers_put _) fun _ => .put (.expr (hasText_of_inFragment hr h) ?_)
    exact .of_quiet (quietlyWrites_put _) (quietlyLowers_put _)
  | .temp sort name value terminator, h => by
    unfold putStmt lowerStmt
    exact .require (simulates_temporary hr (t := ⟨sort, name, value⟩) h)
  | .ret value _, h => by
    unfold putStmt lowerStmt
    exact simulates_return h
  | .branch condition inner rest, h => by
    obtain ⟨hcondition, hinner, hrest⟩ := h
    unfold putStmt lowerStmt
    refine .put (.put (.expr (hasText_of_plain hcondition) (.put ?_)))
    exact (simulates_body hr inner hinner).bind (.put (simulates_else hr rest hrest))
  | .assertFalse, _ => by
    unfold putStmt lowerStmt
    exact .of_quiet (quietlyWrites_put _) (quietlyLowers_put _)
theorem simulates_body (hr : r.WellFormed) : ∀ b : Body, b.InFragment →
    Simulates r holes b.temporaries (putBody b) (lowerBody b)
  | .last s, h => by
    unfold putBody lowerBody
    exact simulates_stmt hr s h
  | .cons s rest, h => by
    unfold putBody lowerBody
    exact (simulates_stmt hr s h.1).bind (simulates_body hr rest h.2)
theorem simulates_else (hr : r.WellFormed) : ∀ e : Else, e.InFragment →
    Simulates r holes e.temporaries (putElse e) (lowerElse e)
  | .none, _ => by
    unfold putElse lowerElse
    refine .of_quiet (fun d _ d' h => ?_) fun l => ⟨⟨⟩, l, endsIn_pure.2 ⟨rfl, rfl⟩, rfl, rfl, rfl⟩
    obtain ⟨-, rfl⟩ := ends_pure.1 h
    exact ⟨rfl, .refl⟩
  | .elif condition inner rest, h => by
    obtain ⟨hcondition, hinner, hrest⟩ := h
    unfold putElse lowerElse
    refine .put (.put (.put (.expr (hasText_of_plain hcondition) (.put ?_))))
    exact (simulates_body hr inner hinner).bind (.put (simulates_else hr rest hrest))
  | .otherwise inner, h => by
    unfold putElse lowerElse
    exact .put (simulates_body hr inner h).closed
end

theorem simulates_description (hr : r.WellFormed) {d : Alu.Description} (h : d.body.InFragment) :
    Simulates r holes d.body.temporaries (Sketch.StatefulAlu.putDescription d)
      (lowerDescription d) := by
  unfold Sketch.StatefulAlu.putDescription lowerDescription
  refine .writing quietlyWrites_putOpening fun _ => ?_
  refine .lowering quietlyLowers_read fun _ => .lowering (quietlyLowers_put _) fun _ => ?_
  refine .writing (quietlyWrites_putFields _) fun _ => ?_
  refine .lowering (quietlyLowers_takeFields _) fun _ => ?_
  refine .writing (quietlyWrites_declare _) fun _ => .lowering (quietlyLowers_declare _) fun _ => ?_
  refine .writing (quietlyWrites_put _) fun _ => .writing (quietlyWrites_put _) fun _ => ?_
  refine .put (.require ?_)
  refine .writing (quietlyWrites_forIn _ fun _ _ => rfl) fun _ => ?_
  refine .lowering (quietlyLowers_forIn _ fun _ _ => rfl) fun _ => ?_
  exact (simulates_body hr d.body h).closed

end P4.StatefulAlu

end SwitchSynth
