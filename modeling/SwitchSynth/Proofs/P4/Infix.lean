import SwitchSynth.Proofs.P4.Expressions

/-!
# Infix operators in switch programs

The text of an infix operator is made of the texts of its operands, which are not put in parentheses. Read
with the usual precedence, the operator takes what stands nearest to it: the end of the left text as far as it
binds tightly enough, and the beginning of the right one.

Key results:
- `Reads.value?_replace`: a text can be replaced by its value where its neighbours bind less tightly
- `value?_joined_left`, `value?_joined_right`: an operator next to the text of a primitive
- `infix_takes_nearest_operands`: what the text of an infix operator means, and when it means the operator
-/

namespace SwitchSynth.Reading

variable {σ : String → Int} {level : Nat} {symbols pre post : List Symbol} {v : Int}

variable (σ) in
/-- Behind a text, an operand of a level is waited for. -/
def Awaits (level : Nat) (pre : List Symbol) : Prop :=
  ∃ pending, feedAll σ ⟨[], ⟨[], none⟩⟩ pre = some ⟨[], ⟨pending, none⟩⟩ ∧ Looser level pending

variable (σ) in
/-- A text is over, or goes on with an operator that does not bind more tightly than a level. -/
def Releases (level : Nat) (post : List Symbol) : Prop :=
  post = [] ∨ ∃ o rest, Introduces σ o post rest ∧ o.level ≤ level

/-- What binds more tightly than its neighbours can be replaced by its value. -/
theorem Reads.value?_replace (h : Reads σ level symbols v) (hlevel : 1 ≤ level) (hpre : Awaits σ level pre)
    (hpost : Releases σ level post) :
    value? σ (pre ++ (symbols ++ post)) = value? σ (pre ++ .value v :: post) := by
  obtain ⟨pending, hfeed, hloose⟩ := hpre
  obtain ⟨r, waiting, w, hread, hflush, hwaiting, rfl⟩ := h pending hloose
  have hvalue : feed σ ⟨[], ⟨pending, none⟩⟩ (.value (collapse waiting w)) =
      some ⟨[], ⟨pending, some (collapse waiting w)⟩⟩ := rfl
  unfold value?
  rw [feedAll_append, feedAll_append, hfeed, Option.bind_some, Option.bind_some, feedAll_append, hread,
    feedAll_cons, hvalue, Option.bind_some, Option.bind_some]
  -- What the text leaves waiting computes as soon as the text is over.
  have hcomputes {n : Nat} (hn : n ≤ level) :
      reduce n (waiting ++ pending) w = reduce n pending (collapse waiting w) :=
    reduce_waiting fun t ht => Nat.le_trans hn (hwaiting t ht)
  rcases hpost with rfl | ⟨o, rest, hintroduces, ho⟩
  · simp [hflush, finish, hcomputes hlevel]
  · rw [hintroduces r _ w hflush, hintroduces _ pending _ (flush_nil _)]
    simp only [step, hcomputes ho]

end SwitchSynth.Reading

namespace SwitchSynth.P4.StatefulAlu

open Alu (Expr BinaryOp)
open Reading
open Sketch (infixValue)

/-- The operators that are written; the text of a comparison other than `==` is that of its right operand. -/
def written : BinaryOp → Option Operator
  | .add => some .add | .sub => some .sub | .mul => some .mul | .div => some .div
  | .eq => some .eq | .and => some .and | .or => some .or
  | .gt | .ge | .lt | .le | .ne => none

/-- What is written between the operands. -/
def infixText (op : BinaryOp) : String :=
  if op = .and ∨ op = .or then " " ++ op.text ++ " " else op.text

/-- An operator that is written between two texts. -/
structure Written (op : BinaryOp) (o : Operator) (t₁ t₂ t : Option String) (left right : String) : Prop where
  written_eq : written op = some o
  left_eq : t₁ = some left
  right_eq : t₂ = some right
  text_eq : t = some (left ++ infixText op ++ right)

variable {r : Setting} {l l' : Lowering} {op : BinaryOp} {o p : Operator} {σ : String → Int}

variable {t : Option String} {right : List Symbol} {v : Int}

theorem endsIn_needText {s : String} :
    EndsIn (needText t) r l s l' ↔ t = some s ∧ l' = l := by
  cases t with
  | none => simp [needText]
  | some s' => simp [needText, eq_comm]

theorem endsIn_binary {e₁ e₂ : Expr}
    (h : EndsIn (lowerExpr (.binary op e₁ e₂)) r l t l') :
    ∃ t₁ t₂ l₁, EndsIn (lowerExpr e₁) r l t₁ l₁ ∧ EndsIn (lowerExpr e₂) r l₁ t₂ l' ∧
      ((written op = none ∧ t = t₂) ∨ ∃ o left right, Written op o t₁ t₂ t left right) := by
  rw [lowerExpr, endsIn_bind] at h
  obtain ⟨t₁, l₁, h₁, h⟩ := h
  cases op <;> simp only [endsIn_bind, endsIn_needText, endsIn_pure] at h
  case gt | ge | lt | le | ne => exact ⟨t₁, t, l₁, h₁, h, .inl ⟨rfl, rfl⟩⟩
  all_goals
    obtain ⟨left, _, ⟨rfl, rfl⟩, t₂, l₂, h₂, right, _, ⟨rfl, rfl⟩, rfl, rfl⟩ := h
    exact ⟨_, _, _, h₁, h₂, .inr ⟨_, left, right, rfl, rfl, rfl, by simp [infixText, String.append_assoc]⟩⟩

theorem apply_of_written (h : written op = some o) : infixValue op = o.apply := by
  cases op <;> cases h <;> rfl

theorem introduces_written (h : written op = some o) (hright : Apart .sign right) :
    Introduces σ o (chars (infixText op) ++ right) right := by
  cases op <;> cases h
  case and => exact introduces_spaced spells_and_sign
  case or => exact introduces_spaced (spells_sign (s := "||") rfl)
  all_goals exact introduces_joined rfl hright

theorem reads_written (h : written op = some o) {left : List Symbol} {w : Int}
    (hleft : Reads σ o.level left v) (hright : Reads σ (o.level + 1) right w) (hapart : Apart .sign right) :
    Reads σ o.level (left ++ (chars (infixText op) ++ right)) (infixValue op v w) := by
  rw [apply_of_written h]
  exact (introduces_written h hapart).reads hleft hright

/-- The primaries that are no calls of primitives, with their texts and values. -/
inductive Plain (r : Setting) (σ : String → Int) : Expr → String → Int → Prop where
  | var {name : String} : IsName (r.textOf name) → Plain r σ (.var name) (r.textOf name) (σ (r.textOf name))
  | num {digits : String} : IsNumeral digits → Plain r σ (.num digits) digits (numeral digits)
  | const {digits : String} : IsNumeral digits → Plain r σ .const digits (numeral digits)
  | paren {e : Expr} {s : String} {v : Int} : value? σ (chars s) = some v →
      Plain r σ (.paren e ")") ("(" ++ s ++ ")") v

theorem Plain.reads {e : Expr} {s : String} (h : Plain r σ e s v) :
    Reads σ atomLevel (chars s) v ∧ Apart .sign (chars s) := by
  cases h with
  | var h => exact ⟨reads_name h, h.isWord.apart⟩
  | num h | const h => exact ⟨reads_numeral h, h.isWord.apart⟩
  | paren h =>
    refine ⟨?_, apart_parentheses _⟩
    rw [Form.chars_parentheses]
    exact reads_group (reads_of_value? h) (Nat.le_refl 1)

/-! ### Next to the texts of primitives -/

/-- The text of a primitive that joins two operands, over their values. -/
def joined (x : Int) (sign : String) (y : Int) : List Symbol :=
  (Form.join .first sign .second).reading [[.value x], [.value y]]

section Joined

variable {sign : String} (hop : written op = some o) (hsign : Spells sign.toList p) (x y z : Int)

theorem reads_operand (v : Int) : Reads σ atomLevel [.char '(', .value v, .char ')'] v :=
  reads_group (reads_value v) (by decide)

theorem apart_value (v : Int) (rest : List Symbol) : Apart .sign (.value v :: rest) :=
  ⟨.value v, rest, rfl, nofun⟩

theorem apart_operand (v : Int) (rest : List Symbol) :
    Apart .sign (.char '(' :: .value v :: rest) :=
  ⟨.char '(', .value v :: rest, rfl, by rintro c hc; cases hc; decide⟩

include hsign in
theorem reads_joined : Reads σ p.level (joined x sign y) (p.apply x y) :=
  reads_spaced hsign ((reads_operand x).mono (Nat.le_of_lt p.level_lt_atomLevel))
    ((reads_operand y).mono p.level_lt_atomLevel)

include hop hsign

/-- An operator behind the text takes the second operand if it binds more tightly. -/
theorem value?_joined_left (h : p.level < o.level) :
    value? σ (joined x sign y ++ (chars (infixText op) ++ [.value z])) =
      some (p.apply x (o.apply y z)) := by
  have hright := reads_written hop ((reads_operand (σ := σ) y).mono (Nat.le_of_lt o.level_lt_atomLevel))
    ((reads_value z).mono o.level_lt_atomLevel) (apart_value z [])
  have hreads := reads_spaced hsign ((reads_operand x).mono (Nat.le_of_lt p.level_lt_atomLevel))
    (hright.mono h)
  rw [apply_of_written hop] at hreads
  simpa [joined, Form.reading, Form.first, Form.second, chars] using hreads.value?_eq p.one_le_level

/-- An operator in front of the text takes the first operand unless it binds less tightly. -/
theorem value?_joined_right (h : p.level ≤ o.level) :
    value? σ (.value x :: (chars (infixText op) ++ joined y sign z)) =
      some (p.apply (o.apply x y) z) := by
  have hleft := reads_written hop ((reads_value (σ := σ) x).mono (Nat.le_of_lt o.level_lt_atomLevel))
    ((reads_operand y).mono o.level_lt_atomLevel) (apart_operand y _)
  have hreads := reads_spaced hsign (hleft.mono h) ((reads_operand z).mono p.level_lt_atomLevel)
  rw [apply_of_written hop] at hreads
  simpa [joined, Form.reading, Form.first, Form.second, chars] using hreads.value?_eq p.one_le_level

end Joined

/-- Values that tell apart how operators are grouped. -/
def samples : List (Int × Int × Int) :=
  [(1, -1, -1), (-1, -1, 0), (-1, -1, 1), (0, -1, -1), (2, 1, 2)]

theorem left_grouping_matters (h : p.level < o.level) :
    ∃ x y z, p.apply x (o.apply y z) ≠ o.apply (p.apply x y) z := by
  have hsample : ∃ s ∈ samples, p.apply s.1 (o.apply s.2.1 s.2.2) ≠ o.apply (p.apply s.1 s.2.1) s.2.2 := by
    revert h
    cases o <;> cases p <;> decide
  exact hsample.elim fun s hs => ⟨s.1, s.2.1, s.2.2, hs.2⟩

/-- Operators of one level that can be grouped either way. -/
def Associates : Operator → Operator → Bool
  | .or, .or | .and, .and | .add, .add | .add, .sub | .mul, .mul => true
  | _, _ => false

theorem right_grouping_iff (h : p.level ≤ o.level) :
    (∀ x y z, p.apply (o.apply x y) z = o.apply x (p.apply y z)) ↔ Associates o p = true := by
  constructor
  · intro hequal
    by_contra hassociates
    have hsample : ∃ s ∈ samples,
        p.apply (o.apply s.1 s.2.1) s.2.2 ≠ o.apply s.1 (p.apply s.2.1 s.2.2) := by
      revert h hassociates
      cases o <;> cases p <;> decide
    obtain ⟨s, -, hs⟩ := hsample
    exact hs (hequal s.1 s.2.1 s.2.2)
  · intro hassociates x y z
    unfold Associates at hassociates
    split at hassociates
    · simp only [Operator.apply, ne_eq, bit_eq_zero, not_not, or_assoc]
    · simp [Operator.apply, and_assoc]
    · exact Int.add_assoc x y z
    · exact Int.add_sub_assoc x y z
    · exact Int.mul_assoc x y z
    · cases hassociates

/-! ### Infix operators -/

/-- What the text of an operator means between two texts. -/
structure Meets (r : Setting) (op : BinaryOp) (o : Operator) (e₁ e₂ : Expr) (left right : String) : Prop where
  /-- The operator takes the nearest texts that bind tightly enough. -/
  nearest : ∀ {σ : String → Int} {pre a b post : List Symbol} {v w : Int},
    chars left = pre ++ a → chars right = b ++ post → Awaits σ o.level pre → Releases σ o.level post →
    Reads σ o.level a v → Reads σ (o.level + 1) b w → Apart .sign b →
    value? σ (chars (left ++ infixText op ++ right)) = value? σ (pre ++ .value (infixValue op v w) :: post)
  /-- Between primaries that are no calls of primitives it has its value. -/
  plain : ∀ {σ : String → Int} {v w : Int}, Plain r σ e₁ left v → Plain r σ e₂ right w →
    value? σ (chars (left ++ infixText op ++ right)) = some (infixValue op v w)
  /-- Behind the text of a primitive that joins its operands. -/
  behind : ∀ {sign : String} {p : Operator}, Spells sign.toList p →
    ((∀ σ x y z, value? σ (joined x sign y ++ (chars (infixText op) ++ [.value z])) =
      some (infixValue op (p.apply x y) z)) ↔ o.level ≤ p.level)
  /-- In front of the text of a primitive that joins its operands. -/
  before : ∀ {sign : String} {p : Operator}, Spells sign.toList p →
    ((∀ σ x y z, value? σ (.value x :: (chars (infixText op) ++ joined y sign z)) =
      some (infixValue op x (p.apply y z))) ↔ o.level < p.level ∨ Associates o p = true)

theorem value?_written (hop : written op = some o) {left right : String} {pre a b post : List Symbol} {w : Int}
    (hleft : chars left = pre ++ a) (hright : chars right = b ++ post) (hpre : Awaits σ o.level pre)
    (hpost : Releases σ o.level post) (ha : Reads σ o.level a v) (hb : Reads σ (o.level + 1) b w)
    (hapart : Apart .sign b) : value? σ (chars (left ++ infixText op ++ right)) =
      value? σ (pre ++ .value (infixValue op v w) :: post) := by
  have hreads := reads_written hop ha hb hapart
  rw [← hreads.value?_replace o.one_le_level hpre hpost, chars_append, chars_append, hleft, hright]
  simp only [List.append_assoc]

theorem awaits_nil (level : Nat) : Awaits σ level [] :=
  ⟨[], rfl, nofun⟩

theorem meets (hop : written op = some o) (e₁ e₂ : Expr) (left right : String) :
    Meets r op o e₁ e₂ left right := by
  refine ⟨value?_written hop, fun {σ v w} h₁ h₂ => ?_, fun {sign p} hsign => ?_, fun {sign p} hsign => ?_⟩
  · have hleft := h₁.reads.1.mono (Nat.le_of_lt o.level_lt_atomLevel)
    exact value?_written hop (List.nil_append _).symm (List.append_nil _).symm (awaits_nil _) (.inl rfl) hleft
      (h₂.reads.1.mono o.level_lt_atomLevel) h₂.reads.2
  · rw [apply_of_written hop]
    constructor
    · intro hvalue
      by_contra hloose
      obtain ⟨x, y, z, hne⟩ := left_grouping_matters (Nat.lt_of_not_le hloose)
      have hgrouped := value?_joined_left (σ := fun _ => 0) hop hsign x y z (Nat.lt_of_not_le hloose)
      exact hne (Option.some.inj (hgrouped.symm.trans (hvalue _ x y z)))
    · intro hle σ x y z
      have hreads := reads_written hop ((reads_joined (σ := σ) hsign x y).mono hle)
        ((reads_value z).mono o.level_lt_atomLevel) (apart_value z [])
      rw [apply_of_written hop] at hreads
      exact hreads.value?_eq o.one_le_level
  · rw [apply_of_written hop]
    by_cases hle : p.level ≤ o.level
    · rw [or_iff_right (Nat.not_lt.2 hle), ← right_grouping_iff hle]
      refine ⟨fun hvalue x y z => ?_, fun hequal σ x y z => ?_⟩
      · exact Option.some.inj ((value?_joined_right hop hsign x y z hle).symm.trans (hvalue (fun _ => 0) x y z))
      · rw [value?_joined_right hop hsign x y z hle, hequal]
    · have hlt := Nat.lt_of_not_le hle
      refine ⟨fun _ => .inl hlt, fun _ σ x y z => ?_⟩
      have hreads := reads_written hop ((reads_value (σ := σ) x).mono (Nat.le_of_lt o.level_lt_atomLevel))
        ((reads_joined hsign y z).mono hlt) (apart_operand y _)
      rw [apply_of_written hop] at hreads
      exact hreads.value?_eq o.one_le_level

/-- The text of an infix operator is put together out of those of its operands, and the operator means the
nearest texts on its two sides. The text of a comparison other than `==` leaves the left operand out. -/
theorem infix_takes_nearest_operands {e₁ e₂ : Expr} {t : Option String}
    (h : EndsIn (lowerExpr (.binary op e₁ e₂)) r l t l') :
    ∃ t₁ t₂ l₁, EndsIn (lowerExpr e₁) r l t₁ l₁ ∧ EndsIn (lowerExpr e₂) r l₁ t₂ l' ∧
      ((written op = none ∧ t = t₂ ∧ ∀ v w, infixValue op v w = w → w = 0 ∨ w = 1) ∨
        ∃ o left right, Written op o t₁ t₂ t left right ∧ Meets r op o e₁ e₂ left right) := by
  obtain ⟨t₁, t₂, l₁, h₁, h₂, ⟨hop, htext⟩ | ⟨o, left, right, hwritten⟩⟩ := endsIn_binary h
  · refine ⟨t₁, t₂, l₁, h₁, h₂, .inl ⟨hop, htext, fun v w hvalue => ?_⟩⟩
    -- A comparison is true or false, whatever it compares.
    have hbit : infixValue op v w = 1 ∨ infixValue op v w = 0 := by
      cases op <;> cases hop <;> exact ite_eq_or_eq _ _ _
    exact (hvalue ▸ hbit).symm
  · exact ⟨t₁, t₂, l₁, h₁, h₂, .inr ⟨o, left, right, hwritten, meets hwritten.written_eq e₁ e₂ left right⟩⟩

/-- A difference that is multiplied, and its text, in which only the subtrahend is. -/
theorem product_takes_subtrahend :
    ∃ left right l₁ l', EndsIn (lowerExpr (.arith (.var "a") (.var "b"))) ⟨"f", [], "", ""⟩
        { holes := ⟨[("f_arith_op_0_global", 1)], by decide⟩ } (some left) l₁ ∧
      EndsIn (lowerExpr (.var "c")) ⟨"f", [], "", ""⟩ l₁ (some right) l' ∧
      ∀ σ, value? σ (chars (left ++ "*" ++ right)) = some (σ "a" - σ "b" * σ "c") := by
  have hends : EndsIn (lowerExpr (.binary .mul (.arith (.var "a") (.var "b")) (.var "c"))) ⟨"f", [], "", ""⟩
    { holes := ⟨[("f_arith_op_0_global", 1)], by decide⟩ } (some "(a) - (b)*c") _ := rfl
  obtain ⟨t₁, t₂, l₁, h₁, h₂, ⟨hop, -⟩ | ⟨o, left, right, hwritten, hmeets⟩⟩ :=
    infix_takes_nearest_operands hends
  · exact nomatch hop
  · obtain ⟨ho, rfl, rfl, -⟩ := hwritten
    cases ho
    cases h₁
    cases h₂
    refine ⟨_, _, _, _, rfl, rfl, fun σ => ?_⟩
    -- Behind the minus sign a product is waited for, and the product takes what stands there.
    have hpre : Awaits σ 6 (chars "(a) - ") := ⟨[.binary .sub (σ "a")], rfl, fun t ht => by
      cases ht
      exact Nat.lt_succ_self 5⟩
    exact hmeets.nearest (a := chars "(b)") rfl (List.append_nil (chars "c")).symm hpre (.inl rfl)
      ((reads_group (reads_name (s := "b") (by decide)) (by decide)).mono (by decide))
      (reads_name (s := "c") (by decide)) ⟨.char 'c', [], rfl, by rintro c hc; cases hc; decide⟩

end SwitchSynth.P4.StatefulAlu
