import SwitchSynth.Proofs.P4.Decoding
import SwitchSynth.Proofs.P4.Statements

/-!
# Lowering along a walk

A switch program meets the primitives of a stateful ALU in the order in which a sketch does, and uses up a hole
for each. Lowering may stop on the way: for a hole that is not there, for the text of `True`, which has none, or for a
constant that is not there, as the value that chooses it is out of range.
-/

namespace SwitchSynth.P4

open Alu (Expr Stmt Body Else)
open Sketch (Primitive Family Walk primitives primitive? stmtWalk bodyWalk elseWalk sourceWalk holeKeys
  holeKeys_append)

/-! ### Forms have texts -/

/-- A form that is a bare operand is one of the operands that there are. -/
def Form.Within (count : Nat) : Form → Prop
  | operand n => 1 ≤ n ∧ n ≤ count
  | _ => True

instance (count : Nat) : DecidablePred (Form.Within count)
  | .operand _ => inferInstanceAs (Decidable (_ ∧ _))
  | .word _ | .group _ | .minus _ | .not _ | .join _ _ _ => isTrue trivial

variable {operands : List (Option String)} {p : Primitive} {es : List Expr}

theorem Form.value_isSome {f : Form} (h : f.Within operands.length)
    (hall : ∀ o ∈ operands, o.isSome = true) : (f.value operands).isSome = true := by
  cases f with
  | operand n =>
    obtain ⟨hpos, hle⟩ := h
    obtain ⟨n, rfl⟩ := Nat.exists_eq_add_of_le' hpos
    have hlt : n < operands.length := hle
    simp only [value, pick, List.getElem?_eq_getElem hlt, Option.join_some]
    exact hall _ (List.getElem_mem hlt)
  | _ => rfl

theorem Forms.select_mem (f : Forms) (v : Int) : f.select v ∈ f.otherwise :: f.cases := by
  cases v with
  | negSucc n => exact List.mem_cons_self
  | ofNat n =>
    show f.cases[n]?.getD f.otherwise ∈ _
    cases hn : f.cases[n]? with
    | none => exact List.mem_cons_self
    | some form => exact List.mem_cons_of_mem _ (List.mem_of_getElem? hn)

theorem forms_within {e : Expr} (h : primitive? e = some (p, es))
    (hconstant : p ≠ .constant) (operands : List (Option String)) :
    ∀ f ∈ (forms p operands).otherwise :: (forms p operands).cases, f.Within es.length := by
  cases e <;> cases h
  case const => exact absurd rfl hconstant
  case arith =>
    -- No form of this operator is a bare operand, whichever of them are zero.
    unfold forms
    split_ifs <;> simp [Form.Within, Form.first, Form.second]
  all_goals simp [forms, Form.Within, Form.first, Form.second]

theorem resolve_isSome {e : Expr} (h : primitive? e = some (p, es))
    (hconstant : p ≠ .constant) (hlength : operands.length = es.length)
    (hall : ∀ o ∈ operands, o.isSome = true) (v : Int) : (resolve p operands v).isSome = true := by
  refine Form.value_isSome ?_ hall
  rw [hlength]
  exact forms_within h hconstant operands _ (Forms.select_mem _ v)

theorem atPlace_of_lt {α : Type} {xs : List α} {v : Int} (hpos : 0 ≤ v) (hlt : v < xs.length) :
    ∃ x, atPlace xs v = .ok x := by
  obtain ⟨n, rfl⟩ := Int.eq_ofNat_of_zero_le hpos
  have hn : n < xs.length := Int.ofNat_lt.1 hlt
  refine ⟨xs.get ⟨n, hn⟩, ?_⟩
  simp only [atPlace, List.getElem?_eq_getElem hn]
  rfl

/-- The number of the hole that is used up for a primitive. -/
def usedNumber (before : List Family) (f : Family) : Nat :=
  StatefulAlu.holeNumber { resolved := before } f

theorem usedNumber_eq (before : List Family) (f : Family) :
    usedNumber before f = if f = .opt then before.count .arithOp else before.count f := by
  cases f <;> rfl

theorem nextHole_eq (r : Setting) (l : Lowering) (p : Primitive) :
    StatefulAlu.nextHole r l p = p.family.globalHole r.alu (usedNumber l.resolved p.family) := by
  unfold StatefulAlu.nextHole
  cases p.family <;> rfl

/-! ### Lowering along a walk -/

namespace StatefulAlu

/-- The values that choose constants are below their number. -/
def InRange (r : Setting) (holes : Table Int) : Prop :=
  ∀ n v, holes.get? (Family.constant.globalHole r.alu n) = some v → 0 ≤ v ∧ v < r.constants.length

/-- The holes of primitives are used up one after the other. -/
structure TakesHoles (r : Setting) (ps : List Primitive) (l l' : Lowering) : Prop where
  resolved : l'.resolved = l.resolved ++ ps.map Primitive.family
  taken : Table.Taken l.holes (holeKeys r.alu usedNumber l.resolved (ps.map Primitive.family)) l'.holes

/-- Why lowering stops before primitives that a walk still has to meet: the next hole is not there, a text is not
there though texts were not promised, a constant is not there as values were out of range from the start, or the walk
itself stops. -/
inductive StopsFor (r : Setting) (texts : Prop) (start l : Lowering) (outcome : Except Error Unit) :
    List Primitive → Error → Prop where
  | missing {p : Primitive} {rest : List Primitive} : l.holes.get? (nextHole r l p) = none →
      StopsFor r texts start l outcome (p :: rest) (.missingKey (nextHole r l p))
  | textless {rest : List Primitive} : ¬ texts → StopsFor r texts start l outcome rest .wrongType
  | outOfRange {rest : List Primitive} : ¬ InRange r start.holes →
      StopsFor r texts start l outcome rest .outOfRange
  | walk {e : Error} : outcome = .error e → StopsFor r texts start l outcome [] e

/-- Lowering goes along a walk and uses up the holes of the primitives it meets. It ends where the walk does, with a
value of some kind if texts are promised, and may stop on the way. -/
structure Follows {α : Type} (r : Setting) (texts : Prop) (walk : Walk) (m : Lower α)
    (kind : α → Prop := fun _ => True) : Prop where
  ends : ∀ {l a l'}, EndsIn m r l a l' →
    walk.outcome = .ok () ∧ TakesHoles r walk.primitives l l' ∧ (texts → kind a)
  stops : ∀ {l e l'}, StopsIn m r l e l' → ∃ done rest, walk.primitives = done ++ rest ∧
    TakesHoles r done l l' ∧ StopsFor r texts l l' walk.outcome rest e

def IsText (value : Option String) : Prop :=
  value.isSome = true

section Follows

variable {α β : Type} {r : Setting} {texts : Prop} {a b : Walk} {kind : α → Prop} {kind' : β → Prop}

theorem TakesHoles.refl (l : Lowering) : TakesHoles r [] l l :=
  ⟨(List.append_nil _).symm, .nil _⟩

variable {ps qs rest : List Primitive} {l l₁ start : Lowering} {outcome : Except Error Unit} {e : Error}
  {value : Option String} {p : Primitive} {v : Int} {operands : List (Option String)} {es : List Expr}

theorem TakesHoles.trans {l' : Lowering} (h : TakesHoles r ps l l₁)
    (h' : TakesHoles r qs l₁ l') : TakesHoles r (ps ++ qs) l l' := by
  refine ⟨by rw [h'.resolved, h.resolved, List.map_append, List.append_assoc], ?_⟩
  rw [List.map_append, holeKeys_append]
  have htaken := h'.taken
  rw [h.resolved] at htaken
  exact h.taken.trans htaken

/-- What stops lowering by itself does so whatever the walk still has to meet. -/
theorem StopsFor.mono {more : List Primitive}
    (h : StopsFor r texts start l (.ok ()) rest e) : StopsFor r texts start l outcome (rest ++ more) e := by
  cases h with
  | missing hnone => exact .missing hnone
  | textless htexts => exact .textless htexts
  | outOfRange hrange => exact .outOfRange hrange
  | walk h => exact nomatch h

theorem StopsFor.earlier
    (h : StopsFor r texts l₁ l outcome rest e) (htakes : TakesHoles r ps start l₁) :
    StopsFor r texts start l outcome rest e := by
  cases h with
  | missing hnone => exact .missing hnone
  | textless htexts => exact .textless htexts
  | outOfRange hrange => exact .outOfRange fun h => hrange fun n v hv => h n v (htakes.taken.within _ _ hv)
  | walk h => exact .walk h

theorem Follows.bind {m : Lower α} {f : α → Lower β} (hm : Follows r texts a m kind)
    (hf : ∀ x, (texts → kind x) → Follows r texts b (f x) kind') :
    Follows r texts (a.andThen b) (m >>= f) kind' := by
  obtain ⟨ps, outcome⟩ := a
  refine ⟨fun hend => ?_, fun hstop => ?_⟩
  · obtain ⟨x, l₁, hfirst, hrest⟩ := endsIn_bind.1 hend
    obtain ⟨hok, htakes, hx⟩ := hm.ends hfirst
    obtain ⟨hok', htakes', hkind⟩ := (hf x hx).ends hrest
    cases hok
    exact ⟨hok', htakes.trans htakes', hkind⟩
  · rcases stopsIn_bind.1 hstop with hfirst | ⟨x, l₁, hfirst, hrest⟩
    · obtain ⟨done, rest, hsplit, htakes, hstops⟩ := hm.stops hfirst
      cases outcome with
      | error e => exact ⟨done, rest, hsplit, htakes, hstops⟩
      | ok u =>
        refine ⟨done, rest ++ b.primitives, ?_, htakes, hstops.mono⟩
        have hsplit : ps = done ++ rest := hsplit
        rw [← List.append_assoc, ← hsplit]
        rfl
    · obtain ⟨hok, htakes, hx⟩ := hm.ends hfirst
      obtain ⟨done, rest, hsplit, htakes', hstops⟩ := (hf x hx).stops hrest
      cases hok
      refine ⟨ps ++ done, rest, ?_, htakes.trans htakes', hstops.earlier htakes⟩
      rw [List.append_assoc, ← hsplit]
      rfl

theorem Follows.meets {m : Lower α} {f : α → Lower β}
    (hm : Follows r texts (.meets ps) m kind)
    (hf : ∀ x, (texts → kind x) → Follows r texts (.meets qs) (f x) kind') :
    Follows r texts (.meets (ps ++ qs)) (m >>= f) kind' :=
  hm.bind hf

theorem follows_of_untouched {m : Lower α}
    (h : ∀ l, ∃ x l', EndsIn m r l x l' ∧ l'.holes = l.holes ∧ l'.resolved = l.resolved) :
    Follows r texts (.meets []) m := by
  refine ⟨fun {l a l'} hend => ⟨rfl, ?_, fun _ => trivial⟩, fun {l e l'} hstop => ?_⟩
  · obtain ⟨_, l₁, huntouched, hholes, hresolved⟩ := h l
    obtain ⟨-, rfl⟩ := huntouched.unique hend
    exact ⟨by simp [Walk.meets, hresolved], by rw [hholes]; exact .nil _⟩
  · obtain ⟨_, l₁, huntouched, -⟩ := h l
    exact absurd hstop huntouched.not_stops

theorem QuietlyLowers.follows {m : Lower α} (h : QuietlyLowers r m) : Follows r texts (.meets []) m :=
  follows_of_untouched fun l => by
    obtain ⟨x, l', hend, hholes, hresolved, -⟩ := h l
    exact ⟨x, l', hend, hholes, hresolved⟩

theorem Follows.lowering {m : Lower α} {f : α → Lower β} (hm : QuietlyLowers r m)
    (hf : ∀ x, Follows r texts a (f x) kind') : Follows r texts a (m >>= f) kind' :=
  hm.follows.bind fun x _ => hf x

theorem Follows.closed {m : Lower α} {f : α → Lower β} (hm : Follows r texts a m kind)
    (hf : ∀ x, (texts → kind x) → Follows r texts (.meets []) (f x) kind') :
    Follows r texts a (m >>= f) kind' := by
  have hbind := hm.bind hf
  obtain ⟨ps, outcome⟩ := a
  cases outcome with
  | error e => exact hbind
  | ok u =>
    simp only [Walk.andThen, Walk.meets, List.append_nil] at hbind
    exact hbind

theorem Follows.require {holds : Bool} {c : Check} {m : Lower α} (hm : Follows r texts a m kind) :
    Follows r texts (a.requires holds c) (require holds c >>= fun _ => m) kind := by
  cases holds with
  | true => exact hm
  | false =>
    refine ⟨fun hend => ?_, fun hstop => ?_⟩
    · obtain ⟨_, _, hfirst, -⟩ := endsIn_bind.1 hend
      exact absurd hfirst endsIn_throw
    · rcases stopsIn_bind.1 hstop with hfirst | ⟨_, _, hfirst, -⟩
      · obtain ⟨rfl, rfl⟩ := stopsIn_throw.1 hfirst
        exact ⟨[], [], rfl, .refl _, .walk rfl⟩
      · exact absurd hfirst endsIn_throw

theorem follows_pure {x : α} (h : texts → kind x) : Follows r texts (.meets []) (pure x) kind := by
  refine ⟨fun hend => ?_, fun hstop => absurd hstop stopsIn_pure⟩
  obtain ⟨rfl, rfl⟩ := endsIn_pure.1 hend
  exact ⟨rfl, .refl _, h⟩

theorem follows_text (s : String) : Follows r texts (.meets []) (pure (some s)) IsText :=
  follows_pure fun _ => rfl

theorem follows_needText (h : texts → IsText value) :
    Follows r texts (.meets []) (needText value) := by
  cases value with
  | some s => exact follows_pure fun _ => trivial
  | none =>
    refine ⟨fun hend => absurd hend endsIn_throw, fun hstop => ?_⟩
    obtain ⟨rfl, rfl⟩ := stopsIn_throw.1 hstop
    exact ⟨[], [], rfl, .refl _, .textless fun htexts => nomatch h htexts⟩

theorem follows_putValue (h : texts → IsText value) :
    Follows r texts (.meets []) (putValue value) :=
  (follows_needText h).closed fun s _ => (quietlyLowers_put s).follows

theorem takesHoles_afterPrimitive
    (h : l.holes.get? (nextHole r l p) = some v) : TakesHoles r [p] l (afterPrimitive r l p) := by
  refine ⟨rfl, ?_⟩
  unfold afterPrimitive
  rw [nextHole_eq] at h ⊢
  exact .cons h (.nil _)

/-- Only a constant can be missing, and only for a value that is out of range. -/
theorem evaluated_error
    (h : evaluated r.constants p operands v = .error e) (hv : l.holes.get? (nextHole r l p) = some v) :
    e = .outOfRange ∧ ¬ InRange r l.holes := by
  cases p with
  | constant =>
    simp only [evaluated] at h
    refine ⟨?_, fun hrange => ?_⟩
    · unfold atPlace at h
      split at h <;> split at h <;> cases h <;> rfl
    · obtain ⟨hpos, hlt⟩ := hrange _ v hv
      obtain ⟨c, hc⟩ := atPlace_of_lt hpos hlt
      rw [hc] at h
      exact nomatch h
  | _ => exact nomatch h

theorem isText_of_evaluated {constants : List String} {e : Expr}
    (h : primitive? e = some (p, es)) (hlength : operands.length = es.length)
    (hall : ∀ o ∈ operands, IsText o) {text : Option String}
    (htext : evaluated constants p operands v = .ok text) : IsText text := by
  by_cases hp : p = .constant
  · subst hp
    simp only [evaluated] at htext
    cases hc : atPlace constants v with
    | ok c =>
      rw [hc] at htext
      cases htext
      rfl
    | error e =>
      rw [hc] at htext
      exact nomatch htext
  · have hresolved : evaluated constants p operands v = .ok (resolve p operands v) := by
      cases p with
      | constant => exact absurd rfl hp
      | _ => rfl
    cases hresolved.symm.trans htext
    exact resolve_isSome h hp hlength hall v

def AreTexts (es : List Expr) (operands : List (Option String)) : Prop :=
  operands.length = es.length ∧ ∀ o ∈ operands, IsText o

theorem follows_resolvePrimitive {e : Expr} (h : primitive? e = some (p, es))
    (hoperands : texts → AreTexts es operands) :
    Follows r texts (.meets [p]) (resolvePrimitive p operands) IsText := by
  refine ⟨fun hend => ⟨rfl, ?_⟩, fun hstop => ?_⟩
  · obtain ⟨v, hv, htext, rfl⟩ := endsIn_resolvePrimitive.1 hend
    refine ⟨takesHoles_afterPrimitive hv, fun htexts => ?_⟩
    exact isText_of_evaluated h (hoperands htexts).1 (hoperands htexts).2 htext
  · rcases stopsIn_resolvePrimitive.1 hstop with ⟨hnone, rfl, rfl⟩ | ⟨v, hv, herror, rfl⟩
    · exact ⟨[], [p], rfl, .refl _, .missing hnone⟩
    · obtain ⟨rfl, hrange⟩ := evaluated_error herror hv
      exact ⟨[p], [], rfl, takesHoles_afterPrimitive hv, .outOfRange hrange⟩

theorem follows_operands
    (hes : ∀ e ∈ es, Follows r texts (.meets (primitives e)) (lowerExpr e) IsText) :
    Follows r texts (.meets (es.flatMap primitives)) (es.mapM lowerExpr) (AreTexts es) := by
  induction es with
  | nil => exact follows_pure fun _ => ⟨rfl, nofun⟩
  | cons e es ih =>
    rw [List.mapM_cons, List.flatMap_cons]
    refine (hes e List.mem_cons_self).meets fun t ht => ?_
    refine (ih fun e' he' => hes e' (List.mem_cons_of_mem e he')).closed fun ts hts => follows_pure fun htexts => ?_
    exact ⟨congrArg Nat.succ (hts htexts).1, List.forall_mem_cons.2 ⟨ht htexts, (hts htexts).2⟩⟩

/-- An expression is lowered along its primitives. It has a text if `True` is not used. -/
theorem follows_lowerExpr {e : Expr} (h : texts → .truth ∉ e.parts) :
    Follows r texts (.meets (primitives e)) (lowerExpr e) IsText := by
  induction e using Sketch.primitive_induction with
  | var name =>
    unfold lowerExpr
    exact .lowering (quietlyLowers_variableText name) fun s => follows_text s
  | num digits =>
    unfold lowerExpr
    exact follows_text digits
  | truth =>
    unfold lowerExpr
    exact follows_pure fun htexts => absurd List.mem_cons_self (h htexts)
  | paren inner close ih =>
    unfold lowerExpr
    refine (ih fun ht hmem => h ht (List.mem_cons_of_mem _ hmem)).closed fun v hv => ?_
    exact (follows_needText hv).closed fun s _ => follows_text _
  | binary op left right ihl ihr =>
    unfold lowerExpr
    have hright := ihr fun ht hmem => h ht (List.mem_cons_of_mem _ (List.mem_append_right _ hmem))
    -- Some operators have the value of their right operand, the others join both texts.
    have hjoin {v : Option String} (hv : texts → IsText v) (f : String → String → String) :
        Follows r texts (.meets (primitives right)) (do
          let l ← needText v
          let s ← needText (← lowerExpr right)
          return some (f l s)) IsText :=
      (follows_needText hv).bind fun l _ => hright.closed fun w hw => (follows_needText hw).closed fun s _ =>
        follows_text (f l s)
    refine (ihl fun ht hmem => h ht (List.mem_cons_of_mem _ (List.mem_append_left _ hmem))).meets fun v hv => ?_
    cases op with
    | gt | ge | lt | le | ne => exact hright
    | add | sub | mul | div | eq => exact hjoin hv _
    | and | or => exact hjoin hv _
  | not operand ih =>
    unfold lowerExpr
    refine (ih fun ht hmem => h ht (List.mem_cons_of_mem _ hmem)).closed fun v hv => ?_
    exact (follows_needText hv).closed fun s _ => follows_text _
  | ternary condition yes no ihc ihy ihn =>
    unfold lowerExpr
    simp only [Expr.parts, List.mem_cons, List.mem_append, not_or] at h
    rw [primitives, List.append_assoc]
    refine (ihc fun ht => (h ht).2.1.1).meets fun _ _ => (ihy fun ht => (h ht).2.1.2).meets fun _ _ => ?_
    exact ihn fun ht => (h ht).2.2
  | primitive e p es hp ih =>
    rw [Sketch.parts_of_primitive hp] at h
    rw [lowerExpr_of_primitive hp, Sketch.primitives_of_primitive hp]
    refine (follows_operands fun x hx => ih x hx fun ht hmem => ?_).meets fun _ => follows_resolvePrimitive hp
    exact h ht (List.mem_cons_of_mem _ (List.mem_flatMap.2 ⟨x, hx, hmem⟩))

theorem follows_lowerReturn {value : Expr} (h : texts → .truth ∉ value.parts) :
    Follows r texts (.meets (primitives value)) (lowerReturn value) := by
  unfold lowerReturn
  refine .lowering quietlyLowers_get fun l => .lowering (quietlyLowers_forIn _ fun _ _ => rfl) fun _ => ?_
  refine .lowering (quietlyLowers_put _) fun _ => (follows_lowerExpr h).closed fun v hv => ?_
  exact (follows_putValue hv).closed fun _ _ => (quietlyLowers_put _).follows

theorem follows_keep (name text : String) : Follows r texts (.meets []) (keep name text) :=
  follows_of_untouched fun l => by
    obtain ⟨l', hend, hholes, hresolved, -⟩ := keep_ends (r := r) name text l
    exact ⟨⟨⟩, l', hend, hholes, hresolved⟩

mutual
theorem follows_lowerStmt : ∀ s : Stmt, (texts → .truth ∉ s.parts) → Follows r texts (stmtWalk s) (lowerStmt s)
  | .update target value terminator, h => by
    unfold lowerStmt
    refine .require (.lowering (quietlyLowers_variableText target) fun _ => ?_)
    refine .lowering (quietlyLowers_put _) fun _ => .lowering (quietlyLowers_put _) fun _ => ?_
    refine (follows_lowerExpr h).closed fun v hv => (follows_putValue hv).closed fun _ _ => ?_
    exact (quietlyLowers_put _).follows
  | .temp sort name value terminator, h => by
    unfold lowerStmt
    refine .require (.lowering (quietlyLowers_put _) fun _ => .lowering (quietlyLowers_put _) fun _ => ?_)
    refine .lowering (quietlyLowers_put _) fun _ => (follows_lowerExpr h).closed fun v hv => ?_
    refine (follows_needText hv).closed fun s _ => .lowering (quietlyLowers_put _) fun _ => ?_
    exact .lowering (quietlyLowers_put _) fun _ => follows_keep name s
  | .ret value _, h => by
    unfold lowerStmt
    exact follows_lowerReturn h
  | .branch condition inner rest, h => by
    unfold lowerStmt
    simp only [Stmt.parts, List.mem_append, not_or] at h
    refine .lowering (quietlyLowers_put _) fun _ => .lowering (quietlyLowers_put _) fun _ => ?_
    refine (follows_lowerExpr fun ht => (h ht).1).bind fun v hv => (follows_putValue hv).bind fun _ _ => ?_
    refine .lowering (quietlyLowers_put _) fun _ => (follows_lowerBody inner fun ht => (h ht).2.1).bind fun _ _ => ?_
    exact .lowering (quietlyLowers_put _) fun _ => follows_lowerElse rest fun ht => (h ht).2.2
  | .assertFalse, _ => by
    unfold lowerStmt
    exact (quietlyLowers_put _).follows
theorem follows_lowerBody : ∀ b : Body, (texts → .truth ∉ b.parts) → Follows r texts (bodyWalk b) (lowerBody b)
  | .last s, h => by
    unfold lowerBody
    exact follows_lowerStmt s h
  | .cons s rest, h => by
    unfold lowerBody
    simp only [Body.parts, List.mem_append, not_or] at h
    exact (follows_lowerStmt s fun ht => (h ht).1).bind fun _ _ => follows_lowerBody rest fun ht => (h ht).2
theorem follows_lowerElse : ∀ e : Else, (texts → .truth ∉ e.parts) → Follows r texts (elseWalk e) (lowerElse e)
  | .none, _ => by
    unfold lowerElse
    exact follows_pure fun _ => trivial
  | .elif condition inner rest, h => by
    unfold lowerElse
    simp only [Else.parts, List.mem_append, not_or] at h
    refine .lowering (quietlyLowers_put _) fun _ => .lowering (quietlyLowers_put _) fun _ => ?_
    refine .lowering (quietlyLowers_put _) fun _ => (follows_lowerExpr fun ht => (h ht).1).bind fun v hv => ?_
    refine (follows_putValue hv).bind fun _ _ => .lowering (quietlyLowers_put _) fun _ => ?_
    refine (follows_lowerBody inner fun ht => (h ht).2.1).bind fun _ _ => .lowering (quietlyLowers_put _) fun _ => ?_
    exact follows_lowerElse rest fun ht => (h ht).2.2
  | .otherwise inner, h => by
    unfold lowerElse
    refine .lowering (quietlyLowers_put _) fun _ => (follows_lowerBody inner h).closed fun _ _ => ?_
    exact (quietlyLowers_put _).follows
end

theorem follows_lowerDescription {d : Alu.Description} (h : texts → .truth ∉ d.body.parts) :
    Follows r texts (sourceWalk (.whole d)) (lowerSource (.whole d)) := by
  unfold lowerSource lowerDescription
  refine .lowering quietlyLowers_read fun _ => .lowering (quietlyLowers_put _) fun _ => ?_
  refine .lowering (quietlyLowers_takeFields _) fun _ => .lowering (quietlyLowers_declare _) fun _ => ?_
  refine .lowering (quietlyLowers_put _) fun _ => .require ?_
  refine .lowering (quietlyLowers_forIn _ fun _ _ => rfl) fun _ => ?_
  exact (follows_lowerBody d.body h).closed fun _ _ => (quietlyLowers_put _).follows

theorem follows_lowerSource (source : Alu.Source) : Follows r False (sourceWalk source) (lowerSource source) := by
  cases source with
  | whole d => exact follows_lowerDescription False.elim
  | headerOnly i =>
    unfold lowerSource
    refine .lowering quietlyLowers_read fun _ => .lowering (quietlyLowers_put _) fun _ => ?_
    refine ⟨fun hend => absurd hend endsIn_throw, fun hstop => ?_⟩
    obtain ⟨rfl, rfl⟩ := stopsIn_throw.1 hstop
    exact ⟨[], [], rfl, .refl _, .walk rfl⟩

/-- Lowering a text uses up holes and does nothing else to them, also where it stops. -/
theorem lower_within (setting : Setting) (holes : Table Int) (source : Alu.Source) :
    (lower setting holes source).2.holes.Within holes := by
  have hfollows : Follows setting False (sourceWalk source) (lowerSource source) := follows_lowerSource source
  rcases ends_or_stops ((lowerSource source).run setting) { holes := holes } with ⟨_, l', h⟩ | ⟨_, l', h⟩
  · rw [show lower setting holes source = _ from h]
    exact (hfollows.ends h).2.1.taken.within
  · rw [show lower setting holes source = _ from h]
    obtain ⟨_, _, -, htakes, -⟩ := hfollows.stops h
    exact htakes.taken.within

end Follows

end StatefulAlu

end SwitchSynth.P4
