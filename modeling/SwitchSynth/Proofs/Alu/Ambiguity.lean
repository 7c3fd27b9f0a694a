import SwitchSynth.Proofs.Alu.Recognition

/-!
# Expressions have one tree in order

The grammar gives most expressions several derivations. Just one of them keeps to the levels of the operators, and it
is the one that is read. That there is one at all follows from reading: whatever is read is in order. That there is no
other follows from reading backwards: from the tokens of a tree in order the parser builds this tree again, because
what follows an operand in such a tree is exactly what stops the operand from going on.
-/

namespace SwitchSynth.Alu

open Form

/-! ### Derivations of expressions -/

/-- A leaf of a kind with one spelling is written that way. -/
def Tree.Spelled (t : Tree) : Prop :=
  ∀ tip ∈ t.tips, ∀ s ∈ tip.1.spelling, tip.2 = s

variable {k : Kind} {text : String} {cs : List Tree} {P : Form} {parts : List Form} {tips : List (Kind × String)}
  {us ts : List Token}

theorem Tree.eq_mark_of_spelled (h : (Tree.leaf k text).Spelled) (hk : k.spelling.isSome) :
    Tree.leaf k text = .mark k := by
  obtain ⟨s, hs⟩ := Option.isSome_iff_exists.1 hk
  have htext : text = s := h (k, text) (List.mem_singleton_self _) s hs
  rw [Tree.mark, hs, htext]
  rfl

theorem Tree.Spelled.of_mem {label : Label} (h : (Tree.node label cs).Spelled) {c : Tree}
    (hc : c ∈ cs) : c.Spelled := by
  intro tip htip
  refine h tip ?_
  rw [Tree.tips]
  clear h
  induction cs with
  | nil => cases hc
  | cons d cs ih =>
    rw [Tree.tipsAll, List.mem_append]
    rcases List.mem_cons.1 hc with rfl | hc
    · exact .inl htip
    · exact .inr (ih hc)

/-- Children that match some forms, one after the other. -/
def Matches (parts : List Form) (cs : List Tree) : Prop :=
  cs.map Tree.symbol ∈ (seq parts).matches'

theorem matches_nil : Matches [] cs ↔ cs = [] :=
  List.map_eq_nil_iff

theorem matches_cons : Matches (P :: parts) cs ↔
    ∃ as bs, cs = as ++ bs ∧ as.map Tree.symbol ∈ P.matches' ∧ Matches parts bs := by
  refine Language.mem_mul.trans ?_
  constructor
  · rintro ⟨a, ha, b, hb, hab⟩
    obtain ⟨as, bs, rfl, rfl, rfl⟩ := List.map_eq_append_iff.1 hab.symm
    exact ⟨as, bs, rfl, ha, hb⟩
  · rintro ⟨as, bs, rfl, ha, hb⟩
    exact ⟨_, ha, _, hb, List.map_append.symm⟩

theorem matches_phrase {r : Rule} : Matches (phrase r :: parts) cs ↔
    ∃ c cs', cs = c :: cs' ∧ c.symbol = .nonterminal r ∧ Matches parts cs' := by
  rw [matches_cons]
  constructor
  · rintro ⟨as, bs, rfl, ha, hb⟩
    obtain ⟨c, rfl, hc⟩ := List.map_eq_singleton_iff.1 ha
    exact ⟨c, bs, rfl, hc, hb⟩
  · rintro ⟨c, cs', rfl, hc, h⟩
    exact ⟨[c], cs', rfl, congrArg (fun s => [s]) hc, h⟩

theorem matches_infixed_add (P Q : Form) :
    (infixed (P + Q)).matches' = (infixed P).matches' + (infixed Q).matches' := by
  simp [infixed, seq, mul_add, add_mul]

def IsExpr (t : Tree) : Prop :=
  ∃ e : Expr, t = e.tree

/-- Children that match some forms, where marks are spelled as they should be and subtrees are trees of expressions. -/
structure Below (parts : List Form) (cs : List Tree) : Prop where
  fits : Matches parts cs
  spelled : ∀ c ∈ cs, c.Spelled
  expr : ∀ c ∈ cs, c.symbol = .nonterminal .expr → IsExpr c

namespace Below

variable {parts : List Form} {k : Kind} {cs : List Tree}

theorem tail {c : Tree} {P : Form} (h : Below (P :: parts) (c :: cs)) (hrest : Matches parts cs) : Below parts cs :=
  ⟨hrest, fun d hd => h.spelled d (List.mem_cons_of_mem _ hd), fun d hd => h.expr d (List.mem_cons_of_mem _ hd)⟩

theorem nil (h : Below [] cs) : cs = [] :=
  List.map_eq_nil_iff.1 h.fits

theorem leaf (h : Below (terminal k :: parts) cs) : ∃ text cs', cs = .leaf k text :: cs' ∧ Below parts cs' := by
  obtain ⟨as, bs, rfl, ha, hb⟩ := matches_cons.1 h.fits
  obtain ⟨c, rfl, hc⟩ := List.map_eq_singleton_iff.1 ha
  cases c with
  | leaf k' text =>
    cases hc
    exact ⟨text, bs, rfl, h.tail hb⟩
  | node label cs => exact nomatch hc

theorem mark (h : Below (terminal k :: parts) cs) (hk : k.spelling.isSome) :
    ∃ cs', cs = .mark k :: cs' ∧ Below parts cs' := by
  obtain ⟨text, cs', rfl, hrest⟩ := h.leaf
  exact ⟨cs', by rw [Tree.eq_mark_of_spelled (h.spelled _ List.mem_cons_self) hk], hrest⟩

theorem operand (h : Below (phrase .expr :: parts) cs) : ∃ e cs', cs = Expr.tree e :: cs' ∧ Below parts cs' := by
  obtain ⟨c, cs', rfl, hc, hrest⟩ := matches_phrase.1 h.fits
  obtain ⟨e, rfl⟩ := h.expr c List.mem_cons_self hc
  exact ⟨e, cs', rfl, h.tail hrest⟩

/-- Operands that are expressions, with the marks between and behind them. -/
theorem operands {n : Nat}
    (h : Below ((List.replicate (n + 1) (phrase .expr)).intersperse (terminal .comma) ++ [terminal .rparen]) cs) :
    ∃ es : List Expr, es.length = n + 1 ∧ cs = (es.map Expr.tree).intersperse (.mark .comma) ++ [.mark .rparen] := by
  induction n generalizing cs with
  | zero =>
    obtain ⟨e, _, rfl, h₁⟩ := h.operand
    obtain ⟨_, rfl, h₂⟩ := h₁.mark rfl
    obtain rfl := h₂.nil
    exact ⟨[e], rfl, rfl⟩
  | succ n ih =>
    obtain ⟨e, _, rfl, h₁⟩ := h.operand
    obtain ⟨_, rfl, h₂⟩ := h₁.mark rfl
    obtain ⟨es, hlength, rfl⟩ := ih h₂
    obtain ⟨e', es, rfl⟩ := List.exists_cons_of_length_eq_add_one hlength
    exact ⟨e :: e' :: es, by simpa using hlength, rfl⟩

theorem call {n : Nat} {form : ExprForm} (hk : k.spelling.isSome)
    (h : Below (terminal k :: terminal .lparen ::
      ((List.replicate (n + 1) (phrase .expr)).intersperse (terminal .comma) ++ [terminal .rparen])) cs) :
    ∃ es : List Expr, es.length = n + 1 ∧ Tree.node (.expr form) cs = callTree form k (es.map Expr.tree) := by
  obtain ⟨_, rfl, h₁⟩ := h.mark hk
  obtain ⟨_, rfl, h₂⟩ := h₁.mark rfl
  obtain ⟨es, hlength, rfl⟩ := h₂.operands
  exact ⟨es, hlength, rfl⟩

theorem infixed (op : BinaryOp) (h : Below [phrase .expr, terminal op.kind, phrase .expr] cs) :
    IsExpr (.node (.expr op.form) cs) := by
  obtain ⟨left, _, rfl, h₁⟩ := h.operand
  obtain ⟨_, rfl, h₂⟩ := h₁.mark (by cases op <;> rfl)
  obtain ⟨right, _, rfl, h₃⟩ := h₂.operand
  obtain rfl := h₃.nil
  exact ⟨.binary op left right, rfl⟩

end Below

theorem exists_variable {c : Tree} (h : c.Derivation) (hsymbol : c.symbol = .nonterminal .variableName) :
    ∃ name, c = variableTree name := by
  cases h with
  | leaf k text => exact nomatch hsymbol
  | @node label cs hform hcs =>
    have hlabel : label = .rule .variableName := Label.eq_rule rfl (Symbol.nonterminal.inj hsymbol)
    subst hlabel
    obtain ⟨c, rfl, hc⟩ := List.map_eq_singleton_iff.1 hform
    cases c with
    | leaf k name =>
      cases hc
      exact ⟨name, rfl⟩
    | node label cs => exact nomatch hc

theorem isExpr_of_derivation {t : Tree} (h : t.Derivation) (hsymbol : t.symbol = .nonterminal .expr)
    (hspelled : t.Spelled) : IsExpr t := by
  induction h with
  | leaf k text => exact nomatch hsymbol
  | @node label cs hform hcs ih =>
    have hbelow {parts : List Form} (h : Matches parts cs) : Below parts cs :=
      ⟨h, fun c hc => hspelled.of_mem hc, fun c hc hsym => ih c hc hsym (hspelled.of_mem hc)⟩
    have hsingle {P : Form} (h : cs.map Tree.symbol ∈ P.matches') : Below [P] cs :=
      hbelow (matches_cons.2 ⟨cs, [], by simp, h, matches_nil.2 rfl⟩)
    cases label with
    | rule r =>
      obtain rfl : r = .expr := Symbol.nonterminal.inj hsymbol
      exact hform.elim
    | singleName s => cases s <;> exact nomatch hsymbol
    | severalNames s => cases s <;> exact nomatch hsymbol
    | stmt form => exact nomatch hsymbol
    | expr form =>
      cases form with
      | var =>
        obtain ⟨c, rfl, hc⟩ := List.map_eq_singleton_iff.1 hform
        obtain ⟨name, rfl⟩ := exists_variable (hcs c (by simp)) hc
        exact ⟨.var name, rfl⟩
      | num =>
        obtain ⟨digits, _, rfl, h₁⟩ := (hsingle hform).leaf
        obtain rfl := h₁.nil
        exact ⟨.num digits, rfl⟩
      | truth | constant =>
        obtain ⟨_, rfl, h₁⟩ := (hsingle hform).mark rfl
        obtain rfl := h₁.nil
        first | exact ⟨.truth, rfl⟩ | exact ⟨.const, rfl⟩
      | withParen =>
        obtain ⟨_, rfl, h₁⟩ := (hbelow hform).mark rfl
        obtain ⟨e, _, rfl, h₂⟩ := h₁.operand
        obtain ⟨close, _, rfl, h₃⟩ := h₂.leaf
        obtain rfl := h₃.nil
        exact ⟨.paren e close, rfl⟩
      | withOp =>
        -- The four operators of arithmetic share this alternative.
        rw [Label.form, ExprForm.form, matches_infixed_add, matches_infixed_add, matches_infixed_add] at hform
        rcases hform with ((h | h) | h) | h
        · exact (hbelow h).infixed .add
        · exact (hbelow h).infixed .sub
        · exact (hbelow h).infixed .mul
        · exact (hbelow h).infixed .div
      | equals => exact (hbelow hform).infixed .eq
      | greater => exact (hbelow hform).infixed .gt
      | greaterEqual => exact (hbelow hform).infixed .ge
      | less => exact (hbelow hform).infixed .lt
      | lessEqual => exact (hbelow hform).infixed .le
      | notEqual => exact (hbelow hform).infixed .ne
      | and => exact (hbelow hform).infixed .and
      | or => exact (hbelow hform).infixed .or
      | not =>
        obtain ⟨_, rfl, h₁⟩ := (hbelow hform).mark rfl
        obtain ⟨e, _, rfl, h₂⟩ := h₁.operand
        obtain rfl := h₂.nil
        exact ⟨.not e, rfl⟩
      | ternary =>
        obtain ⟨c, _, rfl, h₁⟩ := (hbelow hform).operand
        obtain ⟨_, rfl, h₂⟩ := h₁.mark rfl
        obtain ⟨y, _, rfl, h₃⟩ := h₂.operand
        obtain ⟨_, rfl, h₄⟩ := h₃.mark rfl
        obtain ⟨n, _, rfl, h₅⟩ := h₄.operand
        obtain rfl := h₅.nil
        exact ⟨.ternary c y n, rfl⟩
      | mux3WithNum =>
        obtain ⟨_, rfl, h₁⟩ := (hbelow hform).mark rfl
        obtain ⟨_, rfl, h₂⟩ := h₁.mark rfl
        obtain ⟨a, _, rfl, h₃⟩ := h₂.operand
        obtain ⟨_, rfl, h₄⟩ := h₃.mark rfl
        obtain ⟨b, _, rfl, h₅⟩ := h₄.operand
        obtain ⟨_, rfl, h₆⟩ := h₅.mark rfl
        obtain ⟨digits, _, rfl, h₇⟩ := h₆.leaf
        obtain ⟨_, rfl, h₈⟩ := h₇.mark rfl
        obtain rfl := h₈.nil
        exact ⟨.mux3Num a b digits, rfl⟩
      | opt =>
        obtain ⟨es, hlength, htree⟩ := (hbelow hform).call (n := 0) rfl
        obtain ⟨a, rfl⟩ := List.length_eq_one_iff.1 hlength
        exact ⟨.opt a, htree⟩
      | mux2 | arithOp | computeAlu | relOp | boolOp =>
        obtain ⟨es, hlength, htree⟩ := (hbelow hform).call (n := 1) rfl
        obtain ⟨a, b, rfl⟩ := List.length_eq_two.1 hlength
        first
          | exact ⟨.mux2 a b, htree⟩ | exact ⟨.arith a b, htree⟩ | exact ⟨.compute a b, htree⟩
          | exact ⟨.rel a b, htree⟩ | exact ⟨.bool a b, htree⟩
      | mux3 =>
        obtain ⟨es, hlength, htree⟩ := (hbelow hform).call (n := 2) rfl
        obtain ⟨a, b, c, rfl⟩ := List.length_eq_three.1 hlength
        exact ⟨.mux3 a b c, htree⟩
      | mux4 =>
        obtain ⟨es, hlength, htree⟩ := (hbelow hform).call (n := 3) rfl
        obtain ⟨a, es, rfl⟩ := List.exists_cons_of_length_eq_add_one hlength
        obtain ⟨b, c, d, rfl⟩ := List.length_eq_three.1 (Nat.succ.inj hlength)
        exact ⟨.mux4 a b c d, htree⟩
      | mux5 =>
        obtain ⟨es, hlength, htree⟩ := (hbelow hform).call (n := 4) rfl
        obtain ⟨a, es, rfl⟩ := List.exists_cons_of_length_eq_add_one hlength
        obtain ⟨b, es, rfl⟩ := List.exists_cons_of_length_eq_add_one (Nat.succ.inj hlength)
        obtain ⟨c, d, e, rfl⟩ := List.length_eq_three.1 (Nat.succ.inj (Nat.succ.inj hlength))
        exact ⟨.mux5 a b c d e, htree⟩

/-! ### Reading an expression back -/

theorem exists_of_tips_append {tips' : List (Kind × String)}
    (h : tips ++ tips' = us.map Token.tip) :
    ∃ vs ws, us = vs ++ ws ∧ tips = vs.map Token.tip ∧ tips' = ws.map Token.tip := by
  obtain ⟨vs, ws, rfl, hvs, hws⟩ := List.append_eq_map_iff.1 h
  exact ⟨vs, ws, rfl, hvs.symm, hws.symm⟩

theorem exists_of_tips_leaf
    (h : (Tree.leaf k text).tips ++ tips = us.map Token.tip) :
    ∃ t vs, us = t :: vs ∧ t.kind = k ∧ t.text = text ∧ tips = vs.map Token.tip := by
  cases us with
  | nil => exact nomatch h
  | cons t vs =>
    obtain ⟨htip, htips⟩ := List.cons.inj h
    exact ⟨t, vs, rfl, (congrArg Prod.fst htip).symm, (congrArg Prod.snd htip).symm, htips⟩

theorem exists_of_tips_mark
    (h : (Tree.mark k).tips ++ tips = us.map Token.tip) :
    ∃ t vs, us = t :: vs ∧ t.kind = k ∧ tips = vs.map Token.tip := by
  obtain ⟨t, vs, hus, hkind, -, htips⟩ := exists_of_tips_leaf h
  exact ⟨t, vs, hus, hkind, htips⟩

/-- With enough fuel a parser reads something, and always the same. -/
def Settles {α : Type} (p : Nat → Parse α) (ts : List Token) (r : α × List Token) : Prop :=
  ∃ m, ∀ n, m ≤ n → p n ts = .ok r

namespace Settles

variable {α β : Type} {p : Nat → Parse α} {q : Nat → Parse β} {f : Nat → α → Parse β} {ts ts' : List Token} {a : α}
  {r r' : β × List Token}

theorem always {q : Parse β} (h : q ts = .ok r) : Settles (fun _ => q) ts r :=
  ⟨0, fun _ _ => h⟩

theorem bind (hp : Settles p ts (a, ts')) (hf : Settles (fun n => f n a) ts' r) :
    Settles (fun n => p n >>= f n) ts r := by
  obtain ⟨m, hm⟩ := hp
  obtain ⟨m', hm'⟩ := hf
  exact ⟨max m m', fun n hn => Parse.bind_eq_ok.2 ⟨a, ts', hm n (by omega), hm' n (by omega)⟩⟩

theorem expect {k : Kind} {t : Token} {f : Nat → String → Parse β} (ht : t.kind = k)
    (hf : Settles (fun n => f n t.text) ts r) : Settles (fun n => Parse.expect k >>= f n) (t :: ts) r := by
  obtain ⟨m, hm⟩ := hf
  exact ⟨m, fun n hn => (Parse.expect_bind ht (f n) ts).trans (hm n hn)⟩

theorem step {q' : Nat → Parse β} (h : Settles q ts r) (hq : ∀ n, q' (n + 1) ts' = q n ts) : Settles q' ts' r := by
  obtain ⟨m, hm⟩ := h
  refine ⟨m + 1, fun n hn => ?_⟩
  obtain _ | n := n
  · omega
  · rw [hq]
    exact hm n (by omega)

theorem unique (h : Settles q ts r) (h' : Settles q ts r') : r = r' := by
  obtain ⟨m, hm⟩ := h
  obtain ⟨m', hm'⟩ := h'
  exact Except.ok.inj ((hm (max m m') (by omega)).symm.trans (hm' (max m m') (by omega)))

end Settles

theorem Expr.notLevel_le {e : Expr} (h : e.tree.level? ≠ some ternaryLevel) : ∀ q ∈ e.tree.level?, notLevel ≤ q := by
  cases e with
  | binary op left right =>
    intro q hq
    rw [Expr.level?_binary] at hq
    cases hq
    cases op <;> decide
  | ternary c y n => exact absurd rfl h
  | _ => exact nofun

namespace Parse

variable {e : Expr} {p : Nat} {ts ts' us rest : List Token} {r : Expr × List Token}

theorem settles_exprAt (hprimary : Settles primary ts (e, ts')) (hclimb : Settles (fun n => climb n p e) ts' r) :
    Settles (fun n => exprAt n p) ts r :=
  (hprimary.bind hclimb).step fun n => by rw [exprAt]

theorem settles_climb_stop (h : Stops p ts) : Settles (fun n => climb n p e) ts (e, ts) :=
  (Settles.always (q := (pure e : Parse Expr)) rfl).step fun _ => climb_stop h

/-- From the tokens of an expression in order, the expression is read before what follows is looked at. -/
def ReadsBack (e : Expr) : Prop :=
  ∀ p us rest r, e.tree.tips = us.map Token.tip → e.tree.Ordered → (∀ q ∈ e.tree.level?, p ≤ q) →
    Closed e.tree rest → Settles (fun n => climb n p e) rest r → Settles (fun n => exprAt n p) (us ++ rest) r

/-- Where what follows stops an expression, it is read and nothing else. -/
theorem ReadsBack.whole (h : ReadsBack e) (htips : e.tree.tips = us.map Token.tip) (hordered : e.tree.Ordered)
    (hlevel : ∀ q ∈ e.tree.level?, p ≤ q) (hclosed : Closed e.tree rest) (hstops : Stops p rest) :
    Settles (fun n => exprAt n p) (us ++ rest) (e, rest) :=
  h p us rest _ htips hordered hlevel hclosed (settles_climb_stop hstops)

theorem ReadsBack.operand (h : ReadsBack e) {t : Token} (htips : e.tree.tips = us.map Token.tip)
    (hordered : e.tree.Ordered) (ht : t.kind.level? = none) :
    Settles (fun n => exprAt n 0) (us ++ t :: rest) (e, t :: rest) := by
  have hnone (t') (ht' : t' ∈ (t :: rest).head?) (q) (hq : q ∈ t'.kind.level?) : False := by
    cases ht'
    exact nomatch ht.symm.trans hq
  exact h.whole htips hordered (fun q _ => Nat.zero_le q) (fun t' ht' q hq => (hnone t' ht' q hq).elim)
    fun t' ht' q hq => (hnone t' ht' q hq).elim

/-- Everything but an operator is read before the operators are looked at. -/
theorem ReadsBack.of_primary (h : ∀ us rest, e.tree.tips = us.map Token.tip → e.tree.Ordered → Closed e.tree rest →
    Settles primary (us ++ rest) (e, rest)) : ReadsBack e :=
  fun _ us rest _ htips hordered _ hclosed hr => settles_exprAt (h us rest htips hordered hclosed) hr

/-- What stops an operator stops its last operand. -/
theorem closed_last {c d : Tree} {q : Nat} (hclosed : Closed c rest) (hq : q ∈ c.level?)
    (hhigher : ∀ q' ∈ d.level?, q < q') (hends : d.EndsInNot → c.EndsInNot) : Stops (q + 1) rest ∧ Closed d rest := by
  have hstops : Stops (q + 1) rest := fun next hnext q' hq' =>
    Nat.lt_succ_of_le ((hclosed next hnext q' hq').1 q hq)
  refine ⟨hstops, fun next hnext q' hq' => ⟨fun r hr => ?_, fun h => (hclosed next hnext q' hq').2 (hends h)⟩⟩
  exact (Nat.le_of_lt_succ (hstops next hnext q' hq')).trans (hhigher r hr).le

/-- An operator stops its first operand. -/
theorem closed_first {c : Tree} {t : Token} {q : Nat} (ht : t.kind.level? = some q) (hlower : ∀ q' ∈ c.level?, q ≤ q')
    (hnot : c.EndsInNot → q < notLevel) : Closed c (t :: ts) := by
  rintro next ⟨⟩ q' hq'
  cases ht.symm.trans hq'
  exact ⟨hlower, hnot⟩

theorem readsBack_binary {op : BinaryOp} {left right : Expr} (hl : ReadsBack left) (hr : ReadsBack right) :
    ReadsBack (.binary op left right) := by
  intro p us rest r htips hordered hlevel hclosed hrest
  simp only [Expr.tree, Tree.tips, Tree.tipsAll, List.append_nil] at htips
  obtain ⟨vs, _, rfl, hvs, htips⟩ := exists_of_tips_append htips
  obtain ⟨t, ws, rfl, ht, hws⟩ := exists_of_tips_mark htips
  obtain ⟨hleft, hright, hlower, hnot, hhigher⟩ := Expr.ordered_binary.1 hordered
  have hop : BinaryOp.ofKind? t.kind = some op := by rw [ht]; cases op <;> rfl
  have hp : p ≤ op.level := hlevel _ (Expr.level?_binary op left right)
  obtain ⟨hstops, hclosedRight⟩ := closed_last hclosed (Expr.level?_binary op left right) hhigher
    Expr.endsInNot_binary.2
  have hclosedLeft : Closed left.tree (t :: (ws ++ rest)) :=
    closed_first (Kind.level?_of_operator hop) hlower hnot
  rw [List.append_assoc]
  refine hl p vs _ r hvs hleft (fun q hq => hp.trans (hlower q hq)) hclosedLeft ?_
  refine Settles.step (.bind (f := fun n right => climb n p (.binary op left right))
    (hr.whole hws hright hhigher hclosedRight hstops) hrest) fun n => ?_
  exact climb_operator hop hp

theorem readsBack_ternary {c y n : Expr} (hc : ReadsBack c) (hy : ReadsBack y) (hn : ReadsBack n) :
    ReadsBack (.ternary c y n) := by
  intro p us rest r htips hordered hlevel hclosed hrest
  simp only [Expr.tree, Tree.tips, Tree.tipsAll, List.append_nil] at htips
  obtain ⟨vs, _, rfl, hvs, htips⟩ := exists_of_tips_append htips
  obtain ⟨t, _, rfl, ht, htips⟩ := exists_of_tips_mark htips
  obtain ⟨ws, _, rfl, hws, htips⟩ := exists_of_tips_append htips
  obtain ⟨colon, xs, rfl, hcolon, hxs⟩ := exists_of_tips_mark htips
  obtain ⟨hcondition, hyes, hno, hlower, hnot, hhigher⟩ := Expr.ordered_ternary.1 hordered
  have hp : p ≤ ternaryLevel := hlevel _ rfl
  obtain ⟨hstops, hclosedNo⟩ := closed_last hclosed rfl hhigher Expr.endsInNot_ternary.2
  have hclosedCondition : Closed c.tree (t :: (ws ++ colon :: xs ++ rest)) :=
    closed_first (by rw [ht]; rfl) hlower hnot
  rw [List.append_assoc]
  refine hc p vs _ r hvs hcondition (fun q hq => hp.trans (hlower q hq)) hclosedCondition ?_
  have hlast := Settles.bind (f := fun m n => climb m p (.ternary c y n))
    (hn.whole hxs hno hhigher hclosedNo hstops) hrest
  have hyesFirst : Settles (fun m => exprAt m 0) (ws ++ colon :: (xs ++ rest)) (y, colon :: (xs ++ rest)) :=
    hy.operand hws hyes (by rw [hcolon]; rfl)
  have hall := Settles.bind (f := fun m y => expect .colon >>= fun _ => exprAt m (ternaryLevel + 1) >>= fun n =>
    climb m p (.ternary c y n)) hyesFirst (.expect hcolon hlast)
  refine Settles.step hall fun m => ?_
  rw [List.cons_append, List.append_assoc, List.cons_append]
  exact climb_question ht hp

theorem readsBack_not {operand : Expr} (h : ReadsBack operand) : ReadsBack (.not operand) := by
  refine .of_primary fun us rest htips hordered hclosed => ?_
  simp only [Expr.tree, Tree.tips, Tree.tipsAll, List.append_nil] at htips
  obtain ⟨t, vs, rfl, ht, hvs⟩ := exists_of_tips_mark htips
  obtain ⟨hoperand, htop⟩ := Expr.ordered_not.1 hordered
  have hstops : Stops notLevel rest := fun next hnext q hq =>
    (hclosed next hnext q hq).2 (Expr.endsInNot_not operand)
  have hlevel : ∀ q ∈ operand.tree.level?, notLevel ≤ q := Expr.notLevel_le htop
  have hclosedOperand : Closed operand.tree rest := fun next hnext q hq =>
    ⟨fun q' hq' => (hstops next hnext q hq).le.trans (hlevel q' hq'), fun _ => hstops next hnext q hq⟩
  refine Settles.step (.bind (f := fun _ e => pure (.not e)) (h.whole hvs hoperand hlevel hclosedOperand hstops)
    (.always rfl)) fun n => ?_
  rw [List.cons_append, primary, peek?_bind]
  simp only [List.head?_cons, Option.map_some, ht, expect_bind ht]

theorem readsBack_single {k : Kind} {text : String} (htree : e.tree.tips = [(k, text)])
    (hprimary : ∀ n t ts, t.kind = k → t.text = text → primary (n + 1) (t :: ts) = .ok (e, ts)) : ReadsBack e := by
  refine .of_primary fun us rest htips _ _ => ?_
  rw [htree] at htips
  obtain ⟨t, ws, rfl, ht, htext, hws⟩ := exists_of_tips_leaf (htips : (Tree.leaf k text).tips ++ [] = _)
  obtain rfl := List.map_eq_nil_iff.1 hws.symm
  exact ⟨1, fun n hn => by
    obtain _ | n := n
    · omega
    · exact hprimary n t rest ht htext⟩

theorem settles_operand {β : Type} {k : Kind} {t : Token} {f : Nat → Expr → String → Parse β} {r : β × List Token}
    (he : ReadsBack e) (htips : e.tree.tips = us.map Token.tip) (hordered : e.tree.Ordered) (ht : t.kind = k)
    (hk : k.level? = none) (hf : Settles (fun n => f n e t.text) ts r) :
    Settles (fun n => exprAt n 0 >>= fun a => expect k >>= fun s => f n a s) (us ++ t :: ts) r :=
  .bind (f := fun n a => expect k >>= fun s => f n a s) (he.operand htips hordered (by rw [ht]; exact hk))
    (.expect ht hf)

theorem readsBack_paren {inner : Expr} {close : String} (h : ReadsBack inner) : ReadsBack (.paren inner close) := by
  refine .of_primary fun us rest htips hordered _ => ?_
  simp only [Expr.tree, Tree.tips, Tree.tipsAll, List.append_nil] at htips
  obtain ⟨t, _, rfl, ht, htips⟩ := exists_of_tips_mark htips
  obtain ⟨vs, _, rfl, hvs, htips⟩ := exists_of_tips_append htips
  obtain ⟨t', ws, rfl, ht', rfl, hws⟩ := exists_of_tips_leaf (htips : (Tree.leaf .rparen close).tips ++ [] = _)
  obtain rfl := List.map_eq_nil_iff.1 hws.symm
  have hinner : inner.tree.Ordered := by
    rw [Expr.tree, Tree.ordered_node] at hordered
    exact hordered.2 _ (by simp)
  have hread : Settles (fun n => exprAt n 0 >>= fun e => expect .rparen >>= fun s => pure (Expr.paren e s))
      (vs ++ t' :: rest) (Expr.paren inner t'.text, rest) :=
    settles_operand (f := fun _ e s => pure (Expr.paren e s)) h hvs hinner ht' rfl (.always rfl)
  refine hread.step fun n => ?_
  rw [List.cons_append, List.append_assoc, primary, peek?_bind]
  simp only [List.head?_cons, Option.map_some, ht, expect_bind ht, List.cons_append, List.nil_append]

/-! #### Primitives -/

section Primitives

variable {β : Type} {vs : List Token} {opening : Token}

theorem settles_last {g : Expr → β} (he : ReadsBack e) (hordered : e.tree.Ordered)
    (h : operandTips [e.tree] = vs.map Token.tip) :
    Settles (fun n => exprAt n 0 >>= fun a => expect .rparen >>= fun _ => pure (g a)) (vs ++ rest) (g e, rest) := by
  obtain ⟨us, _, rfl, hus, hclose⟩ := exists_of_tips_append h
  obtain ⟨close, ws, rfl, hkind, hws⟩ := exists_of_tips_mark (hclose : (Tree.mark .rparen).tips ++ [] = _)
  obtain rfl := List.map_eq_nil_iff.1 hws.symm
  rw [List.append_assoc]
  exact settles_operand (f := fun _ a _ => pure (g a)) he hus hordered hkind rfl (.always rfl)

theorem settles_more {f : Nat → Expr → Parse β} {c : Tree} {cs : List Tree} {r : β × List Token} (he : ReadsBack e)
    (hordered : e.tree.Ordered) (h : operandTips (e.tree :: c :: cs) = vs.map Token.tip)
    (hf : ∀ ws, operandTips (c :: cs) = ws.map Token.tip → Settles (fun n => f n e) (ws ++ rest) r) :
    Settles (fun n => exprAt n 0 >>= fun a => expect .comma >>= fun _ => f n a) (vs ++ rest) r := by
  obtain ⟨us, _, rfl, hus, hmore⟩ := exists_of_tips_append h
  obtain ⟨comma, ws, rfl, hcomma, hws⟩ := exists_of_tips_mark hmore
  rw [List.append_assoc]
  exact settles_operand (f := fun n a _ => f n a) he hus hordered hcomma rfl (hf ws hws)

theorem settles_args {es : List Expr} (h : ∀ a ∈ e :: es, ReadsBack a ∧ a.tree.Ordered)
    (htips : operandTips ((e :: es).map Expr.tree) = vs.map Token.tip) :
    Settles (fun n => args (exprAt n 0) es.length) (vs ++ rest) (e :: es, rest) := by
  obtain ⟨he, hordered⟩ := h e List.mem_cons_self
  induction es generalizing e vs with
  | nil => exact settles_last he hordered htips
  | cons e' es ih =>
    have hes : ∀ a ∈ e' :: es, ReadsBack a ∧ a.tree.Ordered := fun a ha => h a (List.mem_cons_of_mem _ ha)
    obtain ⟨he', hordered'⟩ := hes e' List.mem_cons_self
    refine settles_more he hordered htips fun ws hws => ?_
    exact .bind (f := fun _ es => pure (e :: es)) (ih hes hws he' hordered') (.always rfl)

variable {k : Kind} {a : Expr} {l : List Expr}

/-- A call is read back from its tips, if its operands are. The order tells which call is read from them. -/
theorem readsBack_call (form : ExprForm) (htips : e.tree.tips = (callTree form k ((a :: l).map Expr.tree)).tips)
    (hk : k.more? = some l.length) (h : ∀ b ∈ a :: l, ReadsBack b)
    (hordered : e.tree.Ordered → callOf k (a :: l) = e ∧ ∀ b ∈ a :: l, b.tree.Ordered) : ReadsBack e := by
  refine .of_primary fun us rest hus he _ => ?_
  obtain ⟨hcall, hoperands⟩ := hordered he
  rw [htips, tips_callTree form k (by simp)] at hus
  obtain ⟨t, _, rfl, ht, hus⟩ := exists_of_tips_mark hus
  obtain ⟨opening, vs, rfl, hopening, hvs⟩ := exists_of_tips_mark hus
  have hargs : Settles (fun n => args (exprAt n 0) l.length) (vs ++ rest) (a :: l, rest) :=
    settles_args (fun b hb => ⟨h b hb, hoperands b hb⟩) hvs
  have hread : Settles (fun n => expect .lparen >>= fun _ => args (exprAt n 0) l.length >>= fun es =>
      pure (callOf t.kind es)) (opening :: (vs ++ rest)) (e, rest) := by
    rw [ht, ← hcall]
    exact .expect hopening (.bind (f := fun _ es => pure (callOf k es)) hargs (.always rfl))
  exact hread.step fun n => primary_call (ht ▸ hk) n _

theorem readsBack_primitive {form : ExprForm} (htree : e.tree = callTree form k ((a :: l).map Expr.tree))
    (hk : k.more? = some l.length) (hcall : callOf k (a :: l) = e) (h : ∀ b ∈ a :: l, ReadsBack b) :
    ReadsBack e := by
  refine readsBack_call form (congrArg Tree.tips htree) hk h fun hordered => ⟨hcall, fun b hb => ?_⟩
  rw [htree] at hordered
  exact (ordered_callTree.1 hordered).2 _ (List.mem_map_of_mem hb)

theorem readsBack_mux3 {b c : Expr} (h : ∀ d ∈ [a, b, c], ReadsBack d) : ReadsBack (.mux3 a b c) := by
  refine readsBack_call .mux3 rfl rfl h fun hordered => ?_
  obtain ⟨hnests, hoperands⟩ := ordered_callTree.1 hordered
  refine ⟨?_, by simpa using hoperands⟩
  -- The third operand is no number: a multiplexer with one has another form.
  cases c <;> first | rfl | exact absurd rfl (hnests.2.1 rfl _ rfl _)

theorem readsBack_mux3Num {b : Expr} {digits : String} (h : ∀ d ∈ [a, b, .num digits], ReadsBack d) :
    ReadsBack (.mux3Num a b digits) := by
  refine readsBack_call .mux3WithNum rfl rfl h fun hordered => ⟨rfl, ?_⟩
  simpa [Expr.tree, Nests, ExprForm.Nests, ExprForm.level?] using (ordered_callTree.1 hordered).2

end Primitives

theorem readsBack_num (digits : String) : ReadsBack (.num digits) := by
  refine readsBack_single rfl fun n t ts ht htext => ?_
  rw [primary, peek?_bind]
  simp only [List.head?_cons, Option.map_some, ht, expect_bind ht, htext]
  rfl

theorem readsBack (e : Expr) : ReadsBack e := by
  induction e with
  | var name =>
    refine readsBack_single rfl fun n t ts ht htext => ?_
    rw [primary, peek?_bind]
    simp only [List.head?_cons, Option.map_some, ht, expect_bind ht, htext]
    rfl
  | num digits => exact readsBack_num digits
  | truth | const =>
    refine readsBack_single rfl fun n t ts ht _ => ?_
    rw [primary, peek?_bind]
    simp only [List.head?_cons, Option.map_some, ht, expect_bind ht]
    rfl
  | paren inner close ih => exact readsBack_paren ih
  | binary op left right ihleft ihright => exact readsBack_binary ihleft ihright
  | not operand ih => exact readsBack_not ih
  | ternary c y n ihc ihy ihn => exact readsBack_ternary ihc ihy ihn
  | mux2 a b iha ihb | arith a b iha ihb | compute a b iha ihb | rel a b iha ihb | bool a b iha ihb =>
    exact readsBack_primitive (l := [b]) rfl rfl rfl (by simp [iha, ihb])
  | mux3 a b c iha ihb ihc => exact readsBack_mux3 (by simp [iha, ihb, ihc])
  | mux3Num a b digits iha ihb => exact readsBack_mux3Num (by simp [iha, ihb, readsBack_num])
  | mux4 a b c d iha ihb ihc ihd =>
    exact readsBack_primitive (l := [b, c, d]) rfl rfl rfl (by simp [iha, ihb, ihc, ihd])
  | mux5 a b c d e iha ihb ihc ihd ihe =>
    exact readsBack_primitive (l := [b, c, d, e]) rfl rfl rfl (by simp [iha, ihb, ihc, ihd, ihe])
  | opt operand ih => exact readsBack_primitive (l := []) rfl rfl rfl (by simp [ih])

end Parse

/-! ### One tree in order -/

/-- Two expressions in order that are written with the same tokens are the same. -/
theorem Expr.eq_of_tips {e e' : Expr} (h : e.tree.tips = ts.map Token.tip)
    (h' : e'.tree.tips = ts.map Token.tip) (hordered : e.tree.Ordered) (hordered' : e'.tree.Ordered) : e = e' := by
  have hread {e : Expr} (h : e.tree.tips = ts.map Token.tip) (hordered : e.tree.Ordered) :
      Settles (fun n => Parse.exprAt n 0) (ts ++ []) (e, []) :=
    (Parse.readsBack e).whole h hordered (fun q _ => Nat.zero_le q) nofun nofun
  exact congrArg Prod.fst ((hread h hordered).unique (hread h' hordered'))

/-- The tokens of a sentence of the rule for expressions are read to the end. -/
theorem exists_exprAt (h : kinds ts ∈ Rule.expr.language) :
    ∃ e, Parse.exprAt (fuelFor ts) 0 ts = .ok (e, []) ∧ Spells e.tree.tips ts ∧ e.tree.Ordered := by
  have hfuel : 2 * ts.length + 2 ≤ fuelFor ts := by unfold fuelFor; omega
  have houtcome := (Parse.exprFuel ts.length _ hfuel).reads ts {kinds []} le_rfl nofun
  generalize Parse.exprAt (fuelFor ts) 0 ts = result at houtcome
  rw [← List.append_nil ts] at houtcome
  obtain ⟨e, rfl, he⟩ := houtcome.reads_word h
  exact ⟨e, rfl, he.spells, he.ordered⟩

theorem Tree.spelled_of_tips {t : Tree} (h : t.tips = ts.map Token.tip) (hts : ∀ t ∈ ts, t.Spelled) :
    t.Spelled := by
  intro tip htip s hs
  rw [h] at htip
  obtain ⟨token, htoken, rfl⟩ := List.mem_map.1 htip
  exact hts token htoken s hs

/-- Of the derivations of an expression, one keeps to the levels of the operators, and it is the one that is read. -/
theorem Fragment.read_expr_ordered (lexed : Lexed) (hsentence : kinds lexed.visible ∈ Rule.expr.language)
    (hspelled : ∀ t ∈ lexed.visible, t.Spelled) :
    ∃ e, Fragment.read .expr lexed = .ok (.expr e, []) ∧ ∀ t : Tree,
      (t.Derivation ∧ t.symbol = .nonterminal .expr ∧ t.tips = lexed.visible.map Token.tip ∧ t.Ordered) ↔
        t = e.tree := by
  obtain ⟨e, hread, hspells, hordered⟩ := exists_exprAt hsentence
  have htips : e.tree.tips = lexed.visible.map Token.tip := hspells.eq_map hspelled
  refine ⟨e, ?_, fun t => ⟨?_, ?_⟩⟩
  · have hparser : Rule.expr.parser (fuelFor lexed.visible) lexed.visible = .ok (.expr e, []) :=
      Parse.bind_eq_ok.2 ⟨e, [], hread, rfl⟩
    rw [Fragment.read, hparser]
  · rintro ⟨hderivation, hsymbol, hyield, hinorder⟩
    obtain ⟨e', rfl⟩ := isExpr_of_derivation hderivation hsymbol (Tree.spelled_of_tips hyield hspelled)
    rw [Expr.eq_of_tips hyield htips hinorder hordered]
  · rintro rfl
    exact ⟨e.derivation, e.symbol_tree, htips, hordered⟩

theorem Expr.mem_language (e : Expr) : e.tree.tips.map Prod.fst ∈ Rule.expr.language :=
  ⟨e.tree, e.derivation, e.symbol_tree, rfl⟩

/-- A `!` stands in the right operand of a tighter operator, and takes a looser one into its own. -/
def mixedOperators : Lexed :=
  lex "a - !b == c ? d : 1"

theorem read_expr_ordered_mixed :
    kinds mixedOperators.visible ∈ Rule.expr.language ∧ (∀ t ∈ mixedOperators.visible, t.Spelled) ∧
      ∃ e, Fragment.read .expr mixedOperators = .ok (.expr e, []) ∧ ∀ t : Tree,
        (t.Derivation ∧ t.symbol = .nonterminal .expr ∧ t.tips = mixedOperators.visible.map Token.tip ∧ t.Ordered) ↔
          t = e.tree := by
  have hkinds : kinds mixedOperators.visible = (Expr.tree (.ternary
      (.binary .sub (.var "a") (.not (.binary .eq (.var "b") (.var "c")))) (.var "d") (.num "1"))).tips.map
        Prod.fst := by
    decide +kernel
  have hsentence : kinds mixedOperators.visible ∈ Rule.expr.language := by
    rw [hkinds]
    exact Expr.mem_language _
  have hspelled : ∀ t ∈ mixedOperators.visible, t.Spelled :=
    fun t ht => lex_spelled (List.mem_of_mem_filter ht)
  exact ⟨hsentence, hspelled, Fragment.read_expr_ordered mixedOperators hsentence hspelled⟩

end SwitchSynth.Alu
