import SwitchSynth.Proofs.Alu.Outcome
import SwitchSynth.Proofs.Alu.Precedence

/-!
# Reading expressions

Reading an expression comes to what the grammar says, whatever the least level of its operators is: a level only
decides who goes on reading, the operand or the expression around it. The tree that is built shows the tokens that
were read and keeps to the levels. Two facts about what follows carry the order from one operator to the next: no
operator that is left binds tighter than the one at the top of what was built, and none binds tighter than a `!` at
its end.
-/

namespace SwitchSynth.Alu

/-! ### Tokens of trees -/

/-- A token of a kind with one spelling is written that way. -/
def Token.Spelled (t : Token) : Prop :=
  ∀ s ∈ t.kind.spelling, t.text = s

def Token.tip (t : Token) : Kind × String :=
  (t.kind, t.text)

def Shows (tip : Kind × String) (t : Token) : Prop :=
  t.kind = tip.1 ∧ (t.Spelled → t.text = tip.2)

abbrev Spells : List (Kind × String) → List Token → Prop :=
  List.Forall₂ Shows

variable {tips : List (Kind × String)} {us vs ts : List Token} {k : Kind} {t : Token} {cs : List Tree} {op : BinaryOp}
  {K : Language Kind}

theorem Spells.append {tips' : List (Kind × String)} (h : Spells tips us)
    (h' : Spells tips' vs) : Spells (tips ++ tips') (us ++ vs) :=
  List.rel_append h h'

theorem Spells.map_fst (h : Spells tips us) :
    tips.map Prod.fst = kinds us := by
  induction h with
  | nil => rfl
  | cons hshows _ ih => rw [List.map_cons, ih, kinds_cons, hshows.1]

theorem Spells.eq_map (h : Spells tips us)
    (hus : ∀ t ∈ us, t.Spelled) : tips = us.map Token.tip := by
  induction h with
  | nil => rfl
  | @cons tip t tips us hshows _ ih =>
    obtain ⟨ht, hus⟩ := List.forall_mem_cons.1 hus
    rw [List.map_cons, ← ih hus, Token.tip, hshows.1, hshows.2 ht]

theorem spells_leaf (h : t.kind = k) : Spells (Tree.leaf k t.text).tips [t] :=
  .cons ⟨h, fun _ => rfl⟩ .nil

theorem spells_mark (h : t.kind = k) (hk : k.spelling.isSome) :
    Spells (Tree.mark k).tips [t] := by
  obtain ⟨s, hs⟩ := Option.isSome_iff_exists.1 hk
  refine .cons ⟨h, fun hspelled => ?_⟩ .nil
  rw [← h] at hs
  rw [hspelled s hs, ← h, hs]
  rfl

/-- The tokens of the children of a node, one child after the other. -/
theorem Spells.before {c : Tree} (h : Spells c.tips us) (h' : Spells (Tree.tipsAll cs) vs) :
    Spells (Tree.tipsAll (c :: cs)) (us ++ vs) :=
  h.append h'

theorem Spells.last {c : Tree} (h : Spells c.tips us) : Spells (Tree.tipsAll [c]) us := by
  simpa only [Tree.tipsAll, List.append_nil] using h

/-- The tips of operands, up to the closing parenthesis. -/
def operandTips : List Tree → List (Kind × String)
  | [] => []
  | [c] => c.tips ++ (Tree.mark .rparen).tips
  | c :: c' :: cs => c.tips ++ ((Tree.mark .comma).tips ++ operandTips (c' :: cs))

theorem tips_callTree (form : ExprForm) (k : Kind) (h : cs ≠ []) :
    (callTree form k cs).tips = (Tree.mark k).tips ++ ((Tree.mark .lparen).tips ++ operandTips cs) := by
  have hoperands : Tree.tipsAll (cs.intersperse (.mark .comma) ++ [.mark .rparen]) = operandTips cs := by
    induction cs with
    | nil => exact absurd rfl h
    | cons c cs ih =>
      cases cs with
      | nil => simp [operandTips, Tree.tipsAll]
      | cons c' cs =>
        have hrest := ih (List.cons_ne_nil c' cs)
        simp only [List.intersperse, List.cons_append, Tree.tipsAll, operandTips] at hrest ⊢
        rw [hrest]
  rw [callTree, Tree.tips, List.cons_append, Tree.tipsAll, List.cons_append, Tree.tipsAll, hoperands]

theorem Expr.eq_num_of_tree {e : Expr} (h : e.tree = .node (.expr .num) cs) :
    ∃ digits, e = .num digits := by
  cases e with
  | num digits => exact ⟨digits, rfl⟩
  | binary op => cases op <;> exact nomatch h
  | _ => exact nomatch h

/-! ### Operators -/

def Kind.level? : Kind → Option Nat
  | .question => some ternaryLevel
  | k => (BinaryOp.ofKind? k).map BinaryOp.level

theorem Kind.level?_eq_some {p : Nat} (h : k.level? = some p) :
    k = .question ∧ p = ternaryLevel ∨ ∃ op, BinaryOp.ofKind? k = some op ∧ p = op.level := by
  unfold Kind.level? at h
  split at h
  · exact .inl ⟨rfl, (Option.some.inj h).symm⟩
  · obtain ⟨op, hop, rfl⟩ := Option.map_eq_some_iff.1 h
    exact .inr ⟨op, hop, rfl⟩

theorem BinaryOp.kind_of_ofKind? (h : BinaryOp.ofKind? k = some op) : k = op.kind := by
  cases k <;> first | (cases h; rfl) | exact nomatch h

theorem Kind.level?_of_operator (h : BinaryOp.ofKind? k = some op) :
    k.level? = some op.level := by
  cases k <;> first | exact congrArg (Option.map BinaryOp.level) h | exact nomatch h

theorem nil_mem_tails : [] ∈ tails :=
  .inl rfl

theorem tailRest_eq_zero (h : k.level? = none) : tailRest k = 0 := by
  cases k <;> first | rfl | exact nomatch h

/-- Nothing with an operator of a level from `p` on follows. -/
def Stops (p : Nat) (rest : List Token) : Prop :=
  ∀ t ∈ rest.head?, ∀ q ∈ t.kind.level?, q < p

/-- What follows a tree cannot go on with its last operand: an operator there binds no tighter than the one at the
top, and looser than a `!` at the end. -/
def Closed (c : Tree) (rest : List Token) : Prop :=
  ∀ t ∈ rest.head?, ∀ q ∈ t.kind.level?, (∀ p ∈ c.level?, q ≤ p) ∧ (c.EndsInNot → q < notLevel)

/-- An expression of operators from level `p` on that some tokens are read as, with the rest behind them. -/
structure Built (p : Nat) (e : Expr) (us rest : List Token) : Prop where
  spells : Spells e.tree.tips us
  ordered : e.tree.Ordered
  level : ∀ q ∈ e.tree.level?, p ≤ q
  closed : Closed e.tree rest

/-- A whole expression of operators from level `p` on. -/
structure Whole (p : Nat) (e : Expr) (us rest : List Token) : Prop extends Built p e us rest where
  stops : Stops p rest

namespace Parse

variable {n p : Nat} {left : Expr} {t : Token} {ts : List Token}

theorem climb_of_ne_question (h : t.kind ≠ .question) :
    climb (n + 1) p left (t :: ts) = (match BinaryOp.ofKind? t.kind with
      | none => return left
      | some op => if p ≤ op.level then do
          let _ ← expect t.kind
          let right ← exprAt n (op.level + 1)
          climb n p (.binary op left right)
        else return left : Parse Expr) (t :: ts) := by
  rw [climb, peek?_bind, List.head?_cons, Option.map_some]
  generalize t.kind = k at h
  cases k <;> first | rfl | exact absurd rfl h

theorem climb_stop (h : Stops p ts) :
    climb (n + 1) p left ts = .ok (left, ts) := by
  cases ts with
  | nil => rfl
  | cons t ts =>
    have hstop := h t rfl
    by_cases hquestion : t.kind = .question
    · rw [hquestion] at hstop
      rw [climb, peek?_bind]
      simp only [List.head?_cons, Option.map_some, hquestion, if_neg (Nat.not_le.2 (hstop _ rfl))]
      rfl
    · rw [climb_of_ne_question hquestion]
      cases hop : BinaryOp.ofKind? t.kind with
      | none => rfl
      | some op =>
        simp only [if_neg (Nat.not_le.2 (hstop _ (Kind.level?_of_operator hop)))]
        rfl

theorem climb_question (h : t.kind = .question)
    (hp : p ≤ ternaryLevel) : climb (n + 1) p left (t :: ts) = (do
      let yes ← exprAt n 0
      let _ ← expect .colon
      let no ← exprAt n (ternaryLevel + 1)
      climb n p (.ternary left yes no) : Parse Expr) ts := by
  rw [climb, peek?_bind]
  simp only [List.head?_cons, Option.map_some, h, if_pos hp, expect_bind h]

theorem climb_operator {op : BinaryOp}
    (h : BinaryOp.ofKind? t.kind = some op) (hp : p ≤ op.level) : climb (n + 1) p left (t :: ts) = (do
      let right ← exprAt n (op.level + 1)
      climb n p (.binary op left right) : Parse Expr) ts := by
  have hquestion : t.kind ≠ .question := by
    intro hkind
    rw [hkind] at h
    exact nomatch h
  rw [climb_of_ne_question hquestion, h]
  simp only [if_pos hp, expect_bind (show t.kind = t.kind from rfl)]

/-- Behind an expression there is nothing more to take, a `?` or an infix operator. -/
theorem climb_cases (p : Nat) (ts : List Token) : Stops p ts ∨
    (∃ t ts', ts = t :: ts' ∧ t.kind = .question ∧ p ≤ ternaryLevel) ∨
    ∃ t ts' op, ts = t :: ts' ∧ BinaryOp.ofKind? t.kind = some op ∧ p ≤ op.level := by
  cases ts with
  | nil => exact .inl nofun
  | cons t ts =>
    by_cases hstop : Stops p (t :: ts)
    · exact .inl hstop
    · right
      simp only [Stops, List.head?_cons, Option.mem_def, Option.some.injEq, forall_eq', not_forall, not_lt] at hstop
      obtain ⟨q, hq, hp⟩ := hstop
      rcases Kind.level?_eq_some hq with ⟨hquestion, rfl⟩ | ⟨op, hop, rfl⟩
      · exact .inl ⟨t, ts, rfl, hquestion, hp⟩
      · exact .inr ⟨t, ts, op, rfl, hop, hp⟩

end Parse

/-! ### Expressions -/

theorem ident_mem_exprs : [.ident] ∈ exprs := by
  rw [language_expr, byFirst_mul, cons_mem_byFirst]
  exact Language.append_mem_mul (show [] ∈ primaryRest .ident from rfl) nil_mem_tails

theorem exists_mem_mul {A B : Language Kind} (hA : ∃ w, w ∈ A) (hB : ∃ w, w ∈ B) : ∃ w, w ∈ A * B := by
  obtain ⟨a, ha⟩ := hA
  obtain ⟨b, hb⟩ := hB
  exact ⟨a ++ b, Language.append_mem_mul ha hb⟩

theorem exists_mem_singleton (k : Kind) : ∃ w, w ∈ ({[k]} : Language Kind) :=
  ⟨[k], rfl⟩

theorem exists_mem_exprs : ∃ w, w ∈ exprs :=
  ⟨[.ident], ident_mem_exprs⟩

theorem exists_mem_operands (n : Nat) : ∃ w, w ∈ operands n := by
  induction n with
  | zero => exact exists_mem_mul exists_mem_exprs (exists_mem_singleton _)
  | succ n ih => exact exists_mem_mul exists_mem_exprs (exists_mem_mul (exists_mem_singleton _) ih)

theorem exists_mem_tailRest (h : k.level?.isSome) : ∃ w, w ∈ tailRest k := by
  obtain ⟨p, hp⟩ := Option.isSome_iff_exists.1 h
  rcases Kind.level?_eq_some hp with ⟨rfl, -⟩ | ⟨op, hop, -⟩
  · exact exists_mem_mul exists_mem_exprs (exists_mem_mul (exists_mem_singleton _) exists_mem_exprs)
  · rw [tailRest_operator (by rw [hop]; rfl)]
    exact exists_mem_exprs

/-- An operator goes on with an expression: nothing else that may follow begins with it. -/
theorem Outcome.tail {α : Type} {Q : α → List Token → List Token → Prop} {r : Except Failure (α × List Token)}
    (hK : Avoids tailRest K) (ht : t.kind = k)
    (hk : k.level?.isSome) (h : Outcome (tailRest k) (tails * K) (fun a us rest => Q a (t :: us) rest) ts r) :
    Outcome tails (tails * K) Q (t :: ts) r := by
  subst ht
  refine .cons (exists_mem_tailRest hk) (fun w hw => .inr (cons_mem_byFirst.2 hw)) (fun x hx => ?_) h
  rw [← mul_assoc, tails_mul_tails, tails, add_mul, one_mul, Language.mem_add] at hx
  rcases hx with hx | hx
  · exact absurd hx (hK.notMem (exists_mem_tailRest hk) x)
  · rw [byFirst_mul, cons_mem_byFirst] at hx
    obtain ⟨a, ha, b, hb, rfl⟩ := Language.mem_mul.1 hx
    exact Language.append_mem_mul ha (Language.append_mem_mul nil_mem_tails hb)

theorem Outcome.of_tails {Q : Expr → List Token → List Token → Prop}
    {r : Except Failure (Expr × List Token)} (h : Outcome exprs (tails * K) Q ts r)
    (hQ : ∀ e us rest, Q e us rest → Stops 0 rest) : Outcome exprs K Q ts r := by
  have hlanguage : exprs * (tails * K) = exprs * K := by rw [← mul_assoc, exprs_mul_tails]
  cases h with
  | failed hts hbegun hnone =>
    rw [hlanguage] at hbegun hnone
    exact .failed hts hbegun hnone
  | @read e us rest hts hq hword hiff =>
    rw [hlanguage] at hiff
    refine .read hts hq hword fun x hx => (hiff x hx).trans ?_
    rw [tails, add_mul, one_mul, Language.mem_add]
    refine or_iff_left (notMem_byFirst_mul (fun t ht => tailRest_eq_zero ?_) hx)
    cases hlevel : t.kind.level? with
    | none => rfl
    | some q => exact absurd (hQ e us rest hq t ht q hlevel) (Nat.not_lt_zero q)

theorem Built.operand {e : Expr} {rest : List Token} {form : ExprForm}
    (htree : e.tree = .node (.expr form) cs) (hform : form.IsOperand) (hspells : Spells e.tree.tips us)
    (hordered : e.tree.Ordered) (p : Nat) : Built p e us rest := by
  have hnone : e.tree.level? = none := by rw [htree]; exact hform.1
  have hends : ¬ e.tree.EndsInNot := by rw [htree]; exact hform.not_endsInNot cs
  refine ⟨hspells, hordered, ?_, fun t _ q _ => ⟨?_, fun h => absurd h hends⟩⟩ <;> simp [hnone]

/-- Operands that are in order, with the tokens from the first one to the closing parenthesis. -/
def CallOf (cs : List Tree) (us : List Token) : Prop :=
  (∀ c ∈ cs, c.Ordered) ∧ Spells (operandTips cs) us

theorem CallOf.last {c : Tree} {close : Token} (hc : c.Ordered) (hspells : Spells c.tips us)
    (hclose : close.kind = .rparen) : CallOf [c] (us ++ [close]) :=
  ⟨by simpa using hc, hspells.append (spells_mark hclose rfl)⟩

theorem CallOf.more {c c' : Tree} {comma : Token} (hc : c.Ordered)
    (hspells : Spells c.tips us) (hcomma : comma.kind = .comma) (h : CallOf (c' :: cs) vs) :
    CallOf (c :: c' :: cs) (us ++ comma :: vs) :=
  ⟨List.forall_mem_cons.2 ⟨hc, h.1⟩, hspells.append ((spells_mark hcomma rfl).append h.2)⟩

def ReadsExprs (n : Nat) (arg : Parse Expr) : Prop :=
  ∀ ts K, ts.length ≤ n → Avoids tailRest K → Outcome exprs K (Whole 0) ts (arg ts)

/-! #### Primitives -/

/-- The number of operands of a primitive behind the first one. -/
def Kind.more? : Kind → Option Nat
  | .opt => some 0
  | .mux2 | .arithOp | .computeAlu | .relOp | .boolOp => some 1
  | .mux3 => some 2
  | .mux4 => some 3
  | .mux5 => some 4
  | _ => none

/-- What a call of a primitive is read as. It never has another number of operands than here. -/
def callOf : Kind → List Expr → Expr
  | .opt, [a] => .opt a
  | .mux2, [a, b] => .mux2 a b
  | .mux3, [a, b, c] => Parse.mux3Of a b c
  | .mux4, [a, b, c, d] => .mux4 a b c d
  | .mux5, [a, b, c, d, e] => .mux5 a b c d e
  | .arithOp, [a, b] => .arith a b
  | .computeAlu, [a, b] => .compute a b
  | .relOp, [a, b] => .rel a b
  | .boolOp, [a, b] => .bool a b
  | _, _ => .const

theorem primaryRest_call {m : Nat} (h : k.more? = some m) : primaryRest k = {[.lparen]} * operands m := by
  cases k <;> cases h <;> rfl

namespace Parse

/-- Operands up to the closing parenthesis, one and some more of them. -/
def args (arg : Parse Expr) : Nat → Parse (List Expr)
  | 0 => do
    let e ← arg
    let _ ← expect .rparen
    return [e]
  | more + 1 => do
    let e ← arg
    let _ ← expect .comma
    return e :: (← args arg more)

variable {e left : Expr} {t opening : Token} {rest us rest' ts vs : List Token} {cs : List Tree} {fuel p : Nat}
  {K : Language Kind}

theorem primary_call {m : Nat} (h : t.kind.more? = some m) (n : Nat) (ts : List Token) :
    primary (n + 1) (t :: ts) = (do
      let _ ← expect .lparen
      return callOf t.kind (← args (exprAt n 0) m) : Parse Expr) ts := by
  rw [primary, peek?_bind, List.head?_cons, Option.map_some]
  cases hk : t.kind <;> rw [hk] at h <;> cases h <;>
    simp only [expect_bind hk, twoArgs, threeArgs, fourArgs, fiveArgs, args, bind_assoc, pure_bind, callOf]

theorem args_outcome {n : Nat} {arg : Parse Expr} (harg : ReadsExprs n arg) (hts : ts.length ≤ n) (m : Nat) :
    Outcome (operands m) K (fun es us _ => es.length = m + 1 ∧ CallOf (es.map Expr.tree) us) ts (args arg m ts) := by
  induction m generalizing ts with
  | zero =>
    exact (harg ts _ hts (avoids_singleton_mul rfl _)).bind fun e us rest _ _ he =>
      .expect_map fun close _ _ hclose => ⟨rfl, .last he.ordered he.spells hclose⟩
  | succ m ih =>
    have hfree : Avoids tailRest (({[.comma]} * operands m) * K) := by
      rw [mul_assoc]
      exact avoids_singleton_mul rfl _
    refine (harg ts _ hts hfree).bind fun e us rest hrest _ he => .expect_bind fun comma rest' hrest' hcomma => ?_
    subst hrest hrest'
    simp only [List.length_append, List.length_cons] at hts
    refine (ih (by omega)).map fun es vs _ _ hes => ⟨_, rfl, congrArg Nat.succ hes.1, ?_⟩
    obtain ⟨e', es, rfl⟩ := List.exists_cons_of_length_eq_add_one hes.1
    exact .more he.ordered he.spells hcomma hes.2

theorem built_single (form : ExprForm) {c : Tree}
    (htree : e.tree = .node (.expr form) [c]) (hform : form.IsOperand ∧ form ≠ .mux3) (hspells : Spells c.tips [t])
    (hc : c.Ordered) (p : Nat) : Built p e [t] rest := by
  refine .operand htree hform.1 ?_ ?_ p
  · rw [htree]
    exact hspells.last
  · rw [htree, Tree.ordered_node]
    exact ⟨hform.1.nests hform.2 _, by simpa using hc⟩

theorem built_paren {close : Token} (h : Whole 0 e us rest)
    (hopening : opening.kind = .lparen) (hclose : close.kind = .rparen) (p : Nat) :
    Built p (.paren e close.text) (opening :: (us ++ [close])) rest' := by
  refine .operand rfl (by decide) ?_ ?_ p
  · exact (spells_mark hopening rfl).before (h.spells.before (spells_leaf hclose).last)
  · simp [Expr.tree, Nests, ExprForm.Nests, ExprForm.level?, h.ordered]

theorem built_not (h : Whole notLevel e us rest) (ht : t.kind = .not)
    (p : Nat) : Built p (.not e) (t :: us) rest := by
  refine ⟨?_, ?_, nofun, fun next hnext q hq => ⟨nofun, fun _ => h.stops next hnext q hq⟩⟩
  · exact (spells_mark ht rfl).before h.spells.last
  · refine Expr.ordered_not.2 ⟨h.ordered, fun hternary => ?_⟩
    exact absurd (h.level _ hternary) (by decide)

theorem built_call (form : ExprForm) {k : Kind}
    (htree : e.tree = callTree form k cs) (hne : cs ≠ []) (hk : k.spelling.isSome) (ht : t.kind = k)
    (hopening : opening.kind = .lparen) (hform : form.IsOperand)
    (hnests : Nests (.expr form) (.mark k :: .mark .lparen :: cs.intersperse (.mark .comma) ++ [.mark .rparen]))
    (h : CallOf cs us) (p : Nat) : Built p e (t :: opening :: us) rest := by
  refine .operand htree hform ?_ ?_ p
  · rw [htree, tips_callTree form k hne]
    exact (spells_mark ht hk).append ((spells_mark hopening rfl).append h.2)
  · rw [htree]
    exact ordered_callTree.2 ⟨hnests, h.1⟩

theorem built_primitive {form : ExprForm} {k : Kind} {c : Tree} (htree : e.tree = callTree form k (c :: cs))
    (hk : k.spelling.isSome) (ht : t.kind = k) (hopening : opening.kind = .lparen)
    (hform : form.IsOperand ∧ form ≠ .mux3) (h : CallOf (c :: cs) us) (p : Nat) :
    Built p e (t :: opening :: us) rest :=
  built_call form htree (List.cons_ne_nil c cs) hk ht hopening hform.1 (hform.1.nests hform.2 _) h p

theorem built_mux3Of {a b c : Expr} (ht : t.kind = .mux3) (hopening : opening.kind = .lparen)
    (h : CallOf [a.tree, b.tree, c.tree] us) (p : Nat) : Built p (mux3Of a b c) (t :: opening :: us) rest := by
  unfold mux3Of
  split
  · -- The number is a leaf instead of a node, with the same tip.
    next digits =>
    have hleaf : CallOf [a.tree, b.tree, .leaf .number digits] us := by
      refine ⟨?_, h.2⟩
      have hordered := h.1
      simp only [List.mem_cons, List.not_mem_nil, or_false, forall_eq_or_imp, forall_eq] at hordered ⊢
      exact ⟨hordered.1, hordered.2.1, Tree.ordered_leaf _ _⟩
    exact built_primitive rfl rfl ht hopening (by decide) hleaf p
  · next hnum =>
    refine built_call .mux3 rfl (by simp) rfl ht hopening (by decide) ?_ h p
    refine ⟨nofun, fun _ third hthird number heq => ?_, nofun⟩
    cases hthird
    obtain ⟨digits, rfl⟩ := Expr.eq_num_of_tree heq
    exact hnum digits rfl

theorem built_callOf {k : Kind} {m : Nat} {es : List Expr} (hk : k.more? = some m) (hes : es.length = m + 1)
    (ht : t.kind = k) (hopening : opening.kind = .lparen) (h : CallOf (es.map Expr.tree) us) (p : Nat) :
    Built p (callOf k es) (t :: opening :: us) rest := by
  cases k <;> cases hk
  case opt =>
    match es, hes with
    | [a], _ => exact built_primitive rfl rfl ht hopening (by decide) h p
  case mux3 =>
    match es, hes with
    | [a, b, c], _ => exact built_mux3Of ht hopening h p
  case mux4 =>
    match es, hes with
    | [a, b, c, d], _ => exact built_primitive rfl rfl ht hopening (by decide) h p
  case mux5 =>
    match es, hes with
    | [a, b, c, d, e], _ => exact built_primitive rfl rfl ht hopening (by decide) h p
  all_goals
    match es, hes with
    | [a, b], _ => exact built_primitive rfl rfl ht hopening (by decide) h p

/-- Expressions are read from up to `n` tokens, whatever the least level is. -/
def ExprFuel (n fuel : Nat) : Prop :=
  ∀ p ts K, ts.length ≤ n → Avoids tailRest K → Outcome exprs (tails * K) (Whole p) ts (exprAt fuel p ts)

theorem ExprFuel.reads {n : Nat} (h : ExprFuel n fuel) : ReadsExprs n (exprAt fuel 0) :=
  fun ts K hts hK => (h 0 ts K hts hK).of_tails fun _ _ _ he => he.stops

theorem primary_outcome (h : ∀ n < ts.length, ExprFuel n fuel)
    (hK : Avoids tailRest K) :
    Outcome (byFirst primaryRest) (tails * K) (fun e us rest => ∀ p, Built p e us rest) ts
      (primary (fuel + 1) ts) := by
  cases ts with
  | nil => exact .fail fun x hx => notMem_byFirst_mul (by simp) hx
  | cons t ts =>
    replace h : ExprFuel ts.length fuel := h _ (Nat.lt_succ_self _)
    cases hmore : t.kind.more? with
    | some m =>
      rw [primary_call hmore]
      refine .first rfl ?_ ?_ <;> rw [primaryRest_call hmore]
      · exact exists_mem_mul (exists_mem_singleton _) (exists_mem_operands m)
      · refine .expect_bind fun opening rest hrest hopening => ?_
        subst hrest
        exact (args_outcome h.reads (Nat.le_succ _) m).map fun es us _ _ hes =>
          ⟨_, rfl, built_callOf hmore hes.1 rfl hopening hes.2⟩
    | none =>
      rw [primary, peek?_bind, List.head?_cons, Option.map_some]
      cases hk : t.kind
      case ident =>
        simp only [expect_bind hk]
        refine .first hk ⟨[], rfl⟩ (.pure fun p => built_single (c := variableTree t.text) .var rfl (by decide)
          (spells_leaf hk) ?_ p)
        simp [variableTree, Nests]
      case number =>
        simp only [expect_bind hk]
        exact .first hk ⟨[], rfl⟩ (.pure fun p => built_single .num rfl (by decide) (spells_leaf hk) (by simp) p)
      case trueWord =>
        simp only [expect_bind hk]
        exact .first hk ⟨[], rfl⟩ (.pure fun p => built_single .truth rfl (by decide) (spells_mark hk rfl) (by simp) p)
      case constant =>
        simp only [expect_bind hk]
        exact .first hk ⟨[], rfl⟩
          (.pure fun p => built_single .constant rfl (by decide) (spells_mark hk rfl) (by simp) p)
      case lparen =>
        simp only [expect_bind hk]
        refine .first hk (exists_mem_operands 0) ?_
        exact (h.reads ts _ le_rfl (avoids_singleton_mul rfl _)).bind fun e us rest _ _ he =>
          .expect_map fun close rest' _ hclose => built_paren he hk hclose
      case not =>
        simp only [expect_bind hk]
        exact .first hk exists_mem_exprs ((h notLevel ts K le_rfl hK).map fun e us rest _ he =>
          ⟨_, rfl, built_not he hk⟩)
      -- No expression starts with any other token that is not a primitive.
      all_goals first
        | exact .fail fun x hx => notMem_byFirst_mul (by simp [hk, primaryRest]) hx
        | rw [hk] at hmore; cases hmore

/-- An operator takes an expression that ends before it as its left operand. -/
theorem built_binary {op : BinaryOp} {right : Expr}
    (hleft : Built p left vs (t :: ts)) (ht : BinaryOp.ofKind? t.kind = some op) (hp : p ≤ op.level)
    (hright : Whole (op.level + 1) right us rest) : Built p (.binary op left right) (vs ++ t :: us) rest := by
  obtain ⟨hlower, hnot⟩ := hleft.closed t rfl op.level (Kind.level?_of_operator ht)
  refine ⟨?_, ?_, ?_, fun next hnext q hq => ⟨?_, fun hends => ?_⟩⟩
  · have hkind : t.kind = op.kind := BinaryOp.kind_of_ofKind? ht
    have hmark : op.kind.spelling.isSome := by cases op <;> rfl
    exact hleft.spells.before ((spells_mark hkind hmark).before hright.spells.last)
  · exact Expr.ordered_binary.2 ⟨hleft.ordered, hright.ordered, hlower, hnot, hright.level⟩
  · simpa using hp
  · simpa using Nat.le_of_lt_succ (hright.stops next hnext q hq)
  · exact (hright.closed next hnext q hq).2 (Expr.endsInNot_binary.1 hends)

theorem built_ternary {c y n : Expr} {colon : Token} {ws : List Token}
    (hc : Built p c vs (t :: ts)) (ht : t.kind = .question) (hp : p ≤ ternaryLevel) (hy : Whole 0 y us rest')
    (hcolon : colon.kind = .colon) (hn : Whole (ternaryLevel + 1) n ws rest) :
    Built p (.ternary c y n) (vs ++ t :: (us ++ colon :: ws)) rest := by
  obtain ⟨hlower, hnot⟩ := hc.closed t rfl ternaryLevel (by rw [ht]; rfl)
  refine ⟨?_, ?_, ?_, fun next hnext q hq => ⟨?_, fun hends => ?_⟩⟩
  · exact hc.spells.before ((spells_mark ht rfl).before (hy.spells.before
      ((spells_mark hcolon rfl).before hn.spells.last)))
  · exact Expr.ordered_ternary.2 ⟨hc.ordered, hy.ordered, hn.ordered, hlower, hnot, hn.level⟩
  · simpa using hp
  · simpa using Nat.le_of_lt_succ (hn.stops next hnext q hq)
  · exact (hn.closed next hnext q hq).2 (Expr.endsInNot_ternary.1 hends)

theorem climb_outcome {n : Nat}
    (h : ∀ m < n, ∀ fuel, 2 * m + 2 ≤ fuel → ExprFuel m fuel) (hts : ts.length ≤ n) (hfuel : 2 * ts.length + 1 ≤ fuel)
    (hK : Avoids tailRest K) (hleft : Built p left vs ts) :
    Outcome tails (tails * K) (fun e us rest => Whole p e (vs ++ us) rest) ts (climb fuel p left ts) := by
  have htails : tails * (tails * K) = tails * K := by rw [← mul_assoc, tails_mul_tails]
  induction fuel generalizing left vs ts with
  | zero => exact absurd hfuel (Nat.not_succ_le_zero _)
  | succ fuel ih =>
    rcases climb_cases p ts with hstop | ⟨t, ts, rfl, ht, hp⟩ | ⟨t, ts, op, rfl, ht, hp⟩
    · rw [climb_stop hstop]
      refine .nothing nil_mem_tails htails ?_
      rw [List.append_nil]
      exact ⟨hleft, hstop⟩
    · rw [List.length_cons] at hts hfuel
      have hexpr : ExprFuel ts.length fuel := h _ hts fuel (by omega)
      have hlanguage : tailRest .question = exprs * ({[.colon]} * (exprs * tails)) := by
        rw [exprs_mul_tails, tailRest_question]
      rw [climb_question ht hp]
      refine .tail hK ht rfl ?_
      rw [hlanguage]
      refine (hexpr.reads ts _ le_rfl (by rw [mul_assoc]; exact avoids_singleton_mul rfl _)).bind
        fun y us rest hrest _ hy => .expect_bind fun colon rest' hrest' hcolon => ?_
      subst hrest hrest'
      simp only [List.length_append, List.length_cons] at hts hfuel hexpr
      have hno := hexpr (ternaryLevel + 1) rest' K (by omega) hK
      rw [← htails] at hno
      refine hno.bind fun n ws rest hrest _ hn => ?_
      subst hrest
      have hgo := ih (by simp at hts; omega) (by simp at hfuel; omega) (built_ternary hleft ht hp hy hcolon hn)
      exact hgo.imp fun e us rest _ he => by simpa using he
    · rw [List.length_cons] at hts hfuel
      have hexpr : ExprFuel ts.length fuel := h _ hts fuel (by omega)
      rw [climb_operator ht hp]
      refine .tail hK rfl (by rw [Kind.level?_of_operator ht]; rfl) ?_
      rw [tailRest_operator (by rw [ht]; rfl), ← exprs_mul_tails]
      have hoperand := hexpr (op.level + 1) ts K le_rfl hK
      rw [← htails] at hoperand
      refine hoperand.bind fun right us rest hrest _ hright => ?_
      subst hrest
      have hgo := ih (by simp at hts; omega) (by simp at hfuel; omega) (built_binary hleft ht hp hright)
      exact hgo.imp fun e us rest _ he => by simpa using he

theorem exprFuel (n fuel : Nat) (h : 2 * n + 2 ≤ fuel) : ExprFuel n fuel := by
  induction n using Nat.strong_induction_on generalizing fuel with
  | _ n ih =>
    intro p ts K hts hK
    have htails : tails * (tails * K) = tails * K := by rw [← mul_assoc, tails_mul_tails]
    obtain _ | _ | fuel := fuel
    · omega
    · omega
    · have hprimary : Outcome (byFirst primaryRest) (tails * K) (fun e us rest => ∀ p, Built p e us rest) ts
          (primary (fuel + 1) ts) := primary_outcome (fun m hm => ih m (by omega) fuel (by omega)) hK
      rw [← htails] at hprimary
      rw [exprAt, language_expr]
      refine hprimary.bind fun left us rest hrest _ hleft => ?_
      subst hrest
      rw [List.length_append] at hts
      exact climb_outcome ih (by omega) (by omega) hK (hleft p)

end Parse

end SwitchSynth.Alu
