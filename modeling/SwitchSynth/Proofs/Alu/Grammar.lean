import Mathlib.Computability.RegularExpressions
import Mathlib.Order.CompletePartialOrder
import SwitchSynth.Alu.Fragment

/-!
# The grammar of ALU descriptions

The right-hand side of every alternative is a regular expression over tokens and rules. A tree is a derivation if the
children of each of its nodes match the alternative that the node is labelled with, and the words of a rule are what
its derivations leave at their tips. No operator has a level here: as far as the grammar goes, `a + b == c` has two
derivations.
-/

namespace SwitchSynth.Alu

open Computability

/-! ### Alternatives -/

/-- The right-hand side of an alternative. -/
abbrev Form := RegularExpression (Symbol Kind Rule)

namespace Form

def terminal (k : Kind) : Form :=
  .char (.terminal k)

def phrase (r : Rule) : Form :=
  .char (.nonterminal r)

def seq (parts : List Form) : Form :=
  parts.foldr (· * ·) 1

/-- A primitive with its operands, in parentheses and with commas between them. -/
def call (k : Kind) (operands : List Form) : Form :=
  seq (terminal k :: terminal .lparen :: operands.intersperse (terminal .comma) ++ [terminal .rparen])

def infixed (operator : Form) : Form :=
  seq [phrase .expr, operator, phrase .expr]

/-- A section: two words, and names between braces. -/
def braced (word word' : Kind) (names : Rule) : Form :=
  seq [terminal word, terminal word', terminal .colon, terminal .lbrace, phrase names, terminal .rbrace]

end Form

open Form

def ExprForm.form : ExprForm → Form
  | .var => phrase .variableName
  | .withOp => infixed (terminal .plus + terminal .minus + terminal .star + terminal .slash)
  | .withParen => seq [terminal .lparen, phrase .expr, terminal .rparen]
  | .num => terminal .number
  | .equals => infixed (terminal .equal)
  | .greater => infixed (terminal .greater)
  | .greaterEqual => infixed (terminal .greaterEqual)
  | .less => infixed (terminal .less)
  | .lessEqual => infixed (terminal .lessEqual)
  | .notEqual => infixed (terminal .notEqual)
  | .and => infixed (terminal .and)
  | .or => infixed (terminal .or)
  | .not => seq [terminal .not, phrase .expr]
  | .truth => terminal .trueWord
  | .ternary => seq [phrase .expr, terminal .question, phrase .expr, terminal .colon, phrase .expr]
  | .mux2 => call .mux2 [phrase .expr, phrase .expr]
  | .mux3WithNum => call .mux3 [phrase .expr, phrase .expr, terminal .number]
  | .mux3 => call .mux3 [phrase .expr, phrase .expr, phrase .expr]
  | .mux4 => call .mux4 [phrase .expr, phrase .expr, phrase .expr, phrase .expr]
  | .mux5 => call .mux5 [phrase .expr, phrase .expr, phrase .expr, phrase .expr, phrase .expr]
  | .opt => call .opt [phrase .expr]
  | .constant => terminal .constant
  | .arithOp => call .arithOp [phrase .expr, phrase .expr]
  | .computeAlu => call .computeAlu [phrase .expr, phrase .expr]
  | .relOp => call .relOp [phrase .expr, phrase .expr]
  | .boolOp => call .boolOp [phrase .expr, phrase .expr]

/-- The alternatives of the rule for statements. -/
def StmtForm.form : StmtForm → Form
  | .updateExpr => seq [phrase .variableName, terminal .assign, phrase .expr, terminal .semicolon]
  | .updateTempInt => seq [terminal .intWord, phrase .tempVar, terminal .assign, phrase .expr, terminal .semicolon]
  | .updateTempBit => seq [terminal .bitWord, phrase .tempVar, terminal .assign, phrase .expr, terminal .semicolon]
  | .ret => phrase .returnStatement
  | .branch =>
    seq [terminal .ifWord, phrase .conditionBlock, (terminal .elifWord * phrase .conditionBlock).star,
      1 + seq [terminal .elseWord, terminal .lbrace, phrase .aluBody, terminal .rbrace]]
  | .assertFalse => terminal .assertFalse

def Label.form : Label → Form
  | .rule .stateVar | .rule .tempVar | .rule .packetField | .rule .holeVar | .rule .variableName => terminal .ident
  | .rule .stateless => terminal .stateless
  | .rule .stateful => terminal .stateful
  | .rule .stateIndicator =>
    seq [terminal .typeWord, terminal .colon, phrase .stateless] +
      seq [terminal .typeWord, terminal .colon, phrase .stateful]
  | .rule .stateVarDef => braced .state .variablesWord .stateVarSeq
  | .rule .holeDef => braced .hole .variablesWord .holeSeq
  | .rule .packetFieldDef => braced .packet .fields .packetFieldSeq
  | .rule .stateVarSeq => 1 + phrase .stateVars
  | .rule .holeSeq => 1 + phrase .holeVars
  | .rule .packetFieldSeq => 1 + phrase .packetFields
  | .rule .aluBody => phrase .statement * (phrase .statement).star
  | .rule .conditionBlock =>
    seq [terminal .lparen, phrase .expr, terminal .rparen, terminal .lbrace, phrase .aluBody, terminal .rbrace]
  | .rule .returnStatement => seq [terminal .returnWord, phrase .expr, terminal .semicolon]
  | .rule .alu =>
    seq [phrase .stateIndicator, phrase .stateVarDef, phrase .holeDef, phrase .packetFieldDef, phrase .aluBody]
  -- The alternatives of these rules have labels of their own.
  | .rule .stateVars | .rule .holeVars | .rule .packetFields | .rule .statement | .rule .expr => 0
  | .singleName s => phrase s.nameRule
  | .severalNames s => seq [phrase s.nameRule, terminal .comma, phrase s.namesRule]
  | .stmt form => form.form
  | .expr form => form.form

/-! ### Derivations -/

namespace Tree

/-- What a tree counts as among the children of a node. -/
def symbol : Tree → Symbol Kind Rule
  | .leaf k _ => .terminal k
  | .node label _ => .nonterminal label.toRule

/-- Every node has children that its alternative allows. -/
inductive Derivation : Tree → Prop where
  | leaf (k : Kind) (text : String) : Derivation (.leaf k text)
  | node {label : Label} {cs : List Tree} : cs.map symbol ∈ label.form.matches' → (∀ c ∈ cs, Derivation c) →
    Derivation (.node label cs)

mutual
/-- The tips of a tree in order: the kinds of its leaves with their texts. -/
def tips : Tree → List (Kind × String)
  | .leaf k text => [(k, text)]
  | .node _ cs => tipsAll cs
/-- The tips of several trees in order. -/
def tipsAll : List Tree → List (Kind × String)
  | [] => []
  | c :: cs => c.tips ++ tipsAll cs
end

mutual
theorem map_snd_tips : ∀ t : Tree, t.tips.map Prod.snd = t.leaves
  | .leaf _ _ => rfl
  | .node _ cs => map_snd_tipsAll cs
theorem map_snd_tipsAll : ∀ cs : List Tree, (tipsAll cs).map Prod.snd = leavesAll cs
  | [] => rfl
  | c :: cs => by rw [tipsAll, List.map_append, map_snd_tips c, map_snd_tipsAll cs, leavesAll]
end

@[simp]
theorem tipsAll_append (cs ds : List Tree) : tipsAll (cs ++ ds) = tipsAll cs ++ tipsAll ds := by
  induction cs with
  | nil => rfl
  | cons c cs ih => rw [List.cons_append, tipsAll, ih, tipsAll, List.append_assoc]

end Tree

open Alu.Tree (Derivation tipsAll)

/-- The words of a form: what the tips of derivations that match it can be. -/
def Form.words (P : Form) : Language Kind :=
  {w | ∃ cs : List Tree,
    cs.map Tree.symbol ∈ P.matches' ∧ (∀ c ∈ cs, c.Derivation) ∧ (tipsAll cs).map Prod.fst = w}

def Rule.language (r : Rule) : Language Kind :=
  {w | ∃ t : Tree, t.Derivation ∧ t.symbol = .nonterminal r ∧ t.tips.map Prod.fst = w}

variable {w : List Kind} {k : Kind}

theorem Rule.mem_language_iff {r : Rule} :
    w ∈ r.language ↔ ∃ label : Label, label.toRule = r ∧ w ∈ label.form.words := by
  constructor
  · rintro ⟨t, ht, hsymbol, rfl⟩
    cases ht with
    | leaf k text => exact nomatch hsymbol
    | @node label cs hform hcs => exact ⟨label, Symbol.nonterminal.inj hsymbol, cs, hform, hcs, rfl⟩
  · rintro ⟨label, rfl, cs, hform, hcs, rfl⟩
    exact ⟨.node label cs, .node hform hcs, rfl, rfl⟩

/-! ### Words of forms -/

namespace Form

@[simp]
theorem words_zero : (0 : Form).words = 0 :=
  Language.ext fun _ => ⟨fun ⟨_, h, _⟩ => h, False.elim⟩

@[simp]
theorem words_one : (1 : Form).words = 1 := by
  ext w
  rw [Language.mem_one]
  constructor
  · rintro ⟨cs, hcs, -, rfl⟩
    rw [List.map_eq_nil_iff.1 hcs]
    rfl
  · rintro rfl
    exact ⟨[], rfl, nofun, rfl⟩

@[simp]
theorem words_terminal (k : Kind) : (terminal k).words = {[k]} := by
  ext w
  constructor
  · rintro ⟨cs, hcs, -, rfl⟩
    obtain ⟨c, rfl, hc⟩ := List.map_eq_singleton_iff.1 hcs
    cases c with
    | leaf k' text =>
      cases hc
      rfl
    | node label cs => exact nomatch hc
  · rintro rfl
    refine ⟨[.leaf k ""], rfl, fun c hc => ?_, rfl⟩
    rw [List.mem_singleton.1 hc]
    exact .leaf k ""

@[simp]
theorem words_phrase (r : Rule) : (phrase r).words = r.language := by
  ext w
  constructor
  · rintro ⟨cs, hcs, hderived, rfl⟩
    obtain ⟨c, rfl, hc⟩ := List.map_eq_singleton_iff.1 hcs
    exact ⟨c, hderived c (List.mem_singleton_self c), hc, by simp [tipsAll]⟩
  · rintro ⟨t, ht, hsymbol, rfl⟩
    refine ⟨[t], congrArg (fun s => [s]) hsymbol, fun c hc => ?_, by simp [tipsAll]⟩
    rwa [List.mem_singleton.1 hc]

@[simp]
theorem words_add (P Q : Form) : (P + Q).words = P.words + Q.words := by
  ext w
  constructor
  · rintro ⟨cs, hcs | hcs, hrest⟩
    · exact .inl ⟨cs, hcs, hrest⟩
    · exact .inr ⟨cs, hcs, hrest⟩
  · rintro (⟨cs, hcs, hrest⟩ | ⟨cs, hcs, hrest⟩)
    · exact ⟨cs, .inl hcs, hrest⟩
    · exact ⟨cs, .inr hcs, hrest⟩

@[simp]
theorem words_mul (P Q : Form) : (P * Q).words = P.words * Q.words := by
  ext w
  constructor
  · rintro ⟨cs, hcs, hderived, rfl⟩
    obtain ⟨a, ha, b, hb, hab⟩ := Language.mem_mul.1 hcs
    obtain ⟨as, bs, rfl, rfl, rfl⟩ := List.map_eq_append_iff.1 hab.symm
    rw [Tree.tipsAll_append, List.map_append]
    exact Language.append_mem_mul ⟨as, ha, fun c hc => hderived c (List.mem_append_left _ hc), rfl⟩
      ⟨bs, hb, fun c hc => hderived c (List.mem_append_right _ hc), rfl⟩
  · intro hw
    obtain ⟨_, ⟨as, ha, hderived, rfl⟩, _, ⟨bs, hb, hderived', rfl⟩, rfl⟩ := Language.mem_mul.1 hw
    refine ⟨as ++ bs, ?_, fun c hc => (List.mem_append.1 hc).elim (hderived c) (hderived' c), ?_⟩
    · rw [List.map_append]
      exact Language.append_mem_mul ha hb
    · rw [Tree.tipsAll_append, List.map_append]

@[simp]
theorem words_star (P : Form) : words P.star = P.words∗ := by
  apply le_antisymm
  · rintro w ⟨cs, ⟨parts, hparts, hmatch⟩, hderived, rfl⟩
    induction parts generalizing cs with
    | nil =>
      rw [List.map_eq_nil_iff.1 hparts]
      exact Language.nil_mem_kstar _
    | cons part parts ih =>
      obtain ⟨as, bs, rfl, rfl, hbs⟩ := List.map_eq_append_iff.1 hparts
      have hrest := ih bs hbs (fun y hy => hmatch y (List.mem_cons_of_mem _ hy))
        fun c hc => hderived c (List.mem_append_right _ hc)
      rw [Tree.tipsAll_append, List.map_append, ← Language.one_add_self_mul_kstar_eq_kstar]
      exact .inr (Language.append_mem_mul ⟨as, hmatch _ List.mem_cons_self,
        fun c hc => hderived c (List.mem_append_left _ hc), rfl⟩ hrest)
  · rintro w ⟨parts, rfl, hparts⟩
    induction parts with
    | nil => exact ⟨[], Language.nil_mem_kstar _, nofun, rfl⟩
    | cons part parts ih =>
      obtain ⟨as, ha, hderived, rfl⟩ := hparts part List.mem_cons_self
      obtain ⟨bs, hb, hderived', hword⟩ := ih fun y hy => hparts y (List.mem_cons_of_mem _ hy)
      refine ⟨as ++ bs, ?_, fun c hc => (List.mem_append.1 hc).elim (hderived c) (hderived' c), ?_⟩
      · rw [List.map_append, RegularExpression.matches'_star, ← Language.one_add_self_mul_kstar_eq_kstar]
        exact .inr (Language.append_mem_mul ha hb)
      · rw [Tree.tipsAll_append, List.map_append, hword, List.flatten_cons]

@[simp]
theorem words_seq (parts : List Form) : (seq parts).words = (parts.map words).prod := by
  induction parts with
  | nil => exact words_one
  | cons part parts ih => exact (words_mul part (seq parts)).trans (congrArg (part.words * ·) ih)

end Form

/-- Whether the alternatives of a rule have labels of their own. -/
def Rule.labelled : Rule → Bool
  | .stateVars | .holeVars | .packetFields | .statement | .expr => true
  | _ => false

theorem Label.eq_rule {label : Label} {r : Rule} (h : r.labelled = false) (hrule : label.toRule = r) :
    label = .rule r := by
  subst hrule
  cases label with
  | rule r => rfl
  | singleName s => cases s <;> exact nomatch h
  | severalNames s => cases s <;> exact nomatch h
  | stmt form => exact nomatch h
  | expr form => exact nomatch h

theorem Rule.language_eq {r : Rule} (h : r.labelled = false) : r.language = (Label.rule r).form.words := by
  ext w
  rw [Rule.mem_language_iff]
  constructor
  · rintro ⟨label, hrule, hw⟩
    rwa [Label.eq_rule h hrule] at hw
  · exact fun hw => ⟨.rule r, rfl, hw⟩

/-! ### First tokens -/

/-- Words by their first token and what may follow it. -/
def byFirst (rest : Kind → Language Kind) : Language Kind :=
  ⨆ k, {[k]} * rest k

theorem singleton_mul_le_byFirst (rest : Kind → Language Kind) (k : Kind) : {[k]} * rest k ≤ byFirst rest :=
  le_iSup (fun k => {[k]} * rest k) k

theorem cons_mem_singleton_mul {k' : Kind} {L : Language Kind} :
    k :: w ∈ {[k']} * L ↔ k = k' ∧ w ∈ L := by
  rw [Language.mem_mul]
  constructor
  · rintro ⟨_, rfl, b, hb, heq⟩
    cases heq
    exact ⟨rfl, hb⟩
  · rintro ⟨rfl, hw⟩
    exact ⟨[k], rfl, w, hw, rfl⟩

theorem nil_notMem_singleton_mul (k : Kind) (L : Language Kind) : [] ∉ {[k]} * L := by
  rintro ⟨_, rfl, b, -, heq⟩
  exact nomatch heq

theorem cons_mem_byFirst {rest : Kind → Language Kind} :
    k :: w ∈ byFirst rest ↔ w ∈ rest k := by
  rw [byFirst, Language.mem_iSup]
  constructor
  · rintro ⟨k', h⟩
    obtain ⟨rfl, h⟩ := cons_mem_singleton_mul.1 h
    exact h
  · exact fun h => ⟨k, cons_mem_singleton_mul.2 ⟨rfl, h⟩⟩

theorem nil_notMem_byFirst (rest : Kind → Language Kind) : [] ∉ byFirst rest := by
  rw [byFirst, Language.mem_iSup]
  exact fun ⟨k, h⟩ => nil_notMem_singleton_mul k _ h

theorem byFirst_mul (rest : Kind → Language Kind) (L : Language Kind) :
    byFirst rest * L = byFirst fun k => rest k * L := by
  rw [byFirst, Language.iSup_mul]
  simp only [byFirst, mul_assoc]

/-! ### Expressions -/

abbrev exprs : Language Kind :=
  Rule.expr.language

/-- Operands before a closing parenthesis: one, and some more of them behind commas. -/
def operands : Nat → Language Kind
  | 0 => exprs * {[.rparen]}
  | more + 1 => exprs * ({[.comma]} * operands more)

/-- What an expression that starts with a token can go on with, up to the first operator behind it. -/
def primaryRest : Kind → Language Kind
  | .ident | .number | .trueWord | .constant => 1
  | .lparen => operands 0
  | .not => exprs
  | .opt => {[.lparen]} * operands 0
  | .mux2 | .arithOp | .computeAlu | .relOp | .boolOp => {[.lparen]} * operands 1
  | .mux3 => {[.lparen]} * operands 2
  | .mux4 => {[.lparen]} * operands 3
  | .mux5 => {[.lparen]} * operands 4
  | _ => 0

/-- What stands behind the first operand of an operator that is given by its token. -/
def tailRest (k : Kind) : Language Kind :=
  if k = .question then exprs * ({[.colon]} * exprs) else if (BinaryOp.ofKind? k).isSome then exprs else 0

/-- An operator with its operands from the second one on, or nothing. -/
def tails : Language Kind :=
  1 + byFirst tailRest

theorem exprs_eq_iSup : exprs = ⨆ form : ExprForm, form.form.words := by
  ext w
  rw [Rule.mem_language_iff, Language.mem_iSup]
  constructor
  · rintro ⟨label, hrule, hw⟩
    cases label with
    | rule r =>
      cases hrule
      rw [Label.form, words_zero] at hw
      exact hw.elim
    | singleName s => cases s <;> exact nomatch hrule
    | severalNames s => cases s <;> exact nomatch hrule
    | stmt form => exact nomatch hrule
    | expr form => exact ⟨form, hw⟩
  · rintro ⟨form, hw⟩
    exact ⟨.expr form, rfl, hw⟩

theorem form_le_exprs (form : ExprForm) : form.form.words ≤ exprs := by
  rw [exprs_eq_iSup]
  exact le_iSup (fun form : ExprForm => form.form.words) form

theorem variableName_language : Rule.variableName.language = {[.ident]} := by
  rw [Rule.language_eq rfl, Label.form, words_terminal]

theorem number_le_exprs : {[.number]} ≤ exprs := by
  simpa [ExprForm.form] using form_le_exprs .num

theorem tailRest_question : tailRest .question = exprs * ({[.colon]} * exprs) := rfl

theorem tailRest_operator (h : (BinaryOp.ofKind? k).isSome) : tailRest k = exprs := by
  have hquestion : k ≠ .question := by
    rintro rfl
    exact nomatch h
  rw [tailRest, if_neg hquestion, if_pos h]

theorem infixed_le_tail (h : (BinaryOp.ofKind? k).isSome) :
    (infixed (terminal k)).words ≤ exprs * byFirst tailRest := by
  have htail := singleton_mul_le_byFirst tailRest k
  rw [tailRest_operator h] at htail
  simpa [infixed] using mul_le_mul_right htail exprs

theorem infixed_add (P Q : Form) : (infixed (P + Q)).words = (infixed P).words + (infixed Q).words := by
  simp only [infixed, words_seq, words_add, List.map_cons, List.map_nil, List.prod_cons, List.prod_nil, add_mul,
    mul_add]

/-- An alternative either begins with a token that tells how it goes on, or with an operand of an operator. -/
theorem form_le_primary_add_tail (form : ExprForm) :
    form.form.words ≤ byFirst primaryRest + exprs * byFirst tailRest := by
  have hprimary (k : Kind) : {[k]} * primaryRest k ≤ byFirst primaryRest + exprs * byFirst tailRest :=
    le_add_right (singleton_mul_le_byFirst primaryRest k)
  have htail {k : Kind} (h : (BinaryOp.ofKind? k).isSome) :
      (infixed (terminal k)).words ≤ byFirst primaryRest + exprs * byFirst tailRest :=
    le_add_left (infixed_le_tail h)
  cases form with
  | var => simpa [ExprForm.form, variableName_language, primaryRest] using hprimary .ident
  | withOp =>
    rw [ExprForm.form, infixed_add, infixed_add, infixed_add]
    exact add_le (add_le (add_le (htail rfl) (htail rfl)) (htail rfl)) (htail rfl)
  | equals | greater | greaterEqual | less | lessEqual | notEqual | and | or => exact htail rfl
  | withParen => simpa [ExprForm.form, primaryRest, operands] using hprimary .lparen
  | num => simpa [ExprForm.form, primaryRest] using hprimary .number
  | not => simpa [ExprForm.form, primaryRest] using hprimary .not
  | truth => simpa [ExprForm.form, primaryRest] using hprimary .trueWord
  | ternary =>
    refine le_add_left ?_
    have hquestion := mul_le_mul_right (singleton_mul_le_byFirst tailRest .question) exprs
    simpa [ExprForm.form, tailRest_question] using hquestion
  | mux2 => simpa [ExprForm.form, call, primaryRest, operands] using hprimary .mux2
  | mux3WithNum =>
    -- A number is an expression, so this alternative adds no words to those of the next one.
    refine le_trans ?_ (hprimary .mux3)
    simp only [ExprForm.form, call, primaryRest, operands, words_seq, words_terminal, words_phrase, List.intersperse,
      List.map_cons, List.map_nil, List.cons_append, List.nil_append, List.prod_cons, List.prod_nil, mul_one]
    gcongr
    exact number_le_exprs
  | mux3 => simpa [ExprForm.form, call, primaryRest, operands] using hprimary .mux3
  | mux4 => simpa [ExprForm.form, call, primaryRest, operands] using hprimary .mux4
  | mux5 => simpa [ExprForm.form, call, primaryRest, operands] using hprimary .mux5
  | opt => simpa [ExprForm.form, call, primaryRest, operands] using hprimary .opt
  | constant => simpa [ExprForm.form, primaryRest] using hprimary .constant
  | arithOp => simpa [ExprForm.form, call, primaryRest, operands] using hprimary .arithOp
  | computeAlu => simpa [ExprForm.form, call, primaryRest, operands] using hprimary .computeAlu
  | relOp => simpa [ExprForm.form, call, primaryRest, operands] using hprimary .relOp
  | boolOp => simpa [ExprForm.form, call, primaryRest, operands] using hprimary .boolOp

theorem primary_le_exprs : byFirst primaryRest ≤ exprs := by
  refine iSup_le fun k => ?_
  unfold primaryRest
  split
  · simpa [ExprForm.form, variableName_language] using form_le_exprs .var
  · simpa [ExprForm.form] using form_le_exprs .num
  · simpa [ExprForm.form] using form_le_exprs .truth
  · simpa [ExprForm.form] using form_le_exprs .constant
  · simpa [ExprForm.form, operands] using form_le_exprs .withParen
  · simpa [ExprForm.form] using form_le_exprs .not
  · simpa [ExprForm.form, call, operands] using form_le_exprs .opt
  · simpa [ExprForm.form, call, operands] using form_le_exprs .mux2
  · simpa [ExprForm.form, call, operands] using form_le_exprs .arithOp
  · simpa [ExprForm.form, call, operands] using form_le_exprs .computeAlu
  · simpa [ExprForm.form, call, operands] using form_le_exprs .relOp
  · simpa [ExprForm.form, call, operands] using form_le_exprs .boolOp
  · simpa [ExprForm.form, call, operands] using form_le_exprs .mux3
  · simpa [ExprForm.form, call, operands] using form_le_exprs .mux4
  · simpa [ExprForm.form, call, operands] using form_le_exprs .mux5
  · simp

theorem exprs_mul_tail_le : exprs * byFirst tailRest ≤ exprs := by
  rw [byFirst, Language.mul_iSup]
  refine iSup_le fun k => ?_
  by_cases hquestion : k = .question
  · subst hquestion
    simpa [ExprForm.form, tailRest_question] using form_le_exprs .ternary
  · cases hop : BinaryOp.ofKind? k with
    | none => simp [tailRest, hquestion, hop]
    | some op =>
      rw [tailRest_operator (by rw [hop]; rfl)]
      -- The four operators of arithmetic share an alternative.
      have hform : ∀ w ∈ (infixed (terminal k)).words, w ∈ op.form.form.words := by
        intro w hw
        cases k <;> cases hop <;> simp only [BinaryOp.form, ExprForm.form, infixed_add, Language.mem_add] <;> tauto
      simpa [infixed] using le_trans hform (form_le_exprs op.form)

theorem exprs_eq : exprs = byFirst primaryRest + exprs * byFirst tailRest := by
  apply le_antisymm
  · conv_lhs => rw [exprs_eq_iSup]
    exact iSup_le form_le_primary_add_tail
  · exact add_le primary_le_exprs exprs_mul_tail_le

@[simp]
theorem exprs_mul_tails : exprs * tails = exprs := by
  rw [tails, mul_add, mul_one]
  exact add_eq_left_iff_le.2 exprs_mul_tail_le

theorem tail_mul_tails : byFirst tailRest * tails = byFirst tailRest := by
  rw [byFirst_mul]
  congr 1
  funext k
  unfold tailRest
  split
  · rw [mul_assoc, mul_assoc, exprs_mul_tails]
  · split
    · exact exprs_mul_tails
    · exact zero_mul tails

@[simp]
theorem tails_mul_tails : tails * tails = tails := by
  calc tails * tails = 1 * tails + byFirst tailRest * tails := add_mul 1 (byFirst tailRest) tails
    _ = tails := by rw [one_mul, tail_mul_tails, tails, add_assoc, Language.add_self]

/-- An expression is an operand and what its operators add to it, however they nest. -/
theorem language_expr : exprs = byFirst primaryRest * tails := by
  apply le_antisymm
  · intro w hw
    -- An expression that ends in a tail is shorter without it.
    induction hlength : w.length using Nat.strong_induction_on generalizing w with
    | _ n ih =>
      rw [exprs_eq] at hw
      rcases hw with hw | hw
      · rw [tails, mul_add, mul_one]
        exact .inl hw
      · obtain ⟨a, ha, b, hb, rfl⟩ := Language.mem_mul.1 hw
        have hpos : b ≠ [] := fun h => nil_notMem_byFirst _ (h ▸ hb)
        have hshort : a.length < n := by
          have := List.length_pos_iff.2 hpos
          rw [List.length_append] at hlength
          omega
        have happend := Language.append_mem_mul (ih a.length hshort ha rfl) (show b ∈ tails from .inr hb)
        rwa [mul_assoc, tails_mul_tails] at happend
  · calc byFirst primaryRest * tails ≤ exprs * tails := by gcongr; exact primary_le_exprs
      _ = exprs := exprs_mul_tails

/-! ### Statements -/

abbrev statements : Language Kind :=
  Rule.statement.language

abbrev bodies : Language Kind :=
  Rule.aluBody.language

/-- The words of conditions with the bodies they guard. -/
abbrev arms : Language Kind :=
  Rule.conditionBlock.language

/-- The words of the later arms of a branch. -/
def elses : Language Kind :=
  ({[.elifWord]} * arms)∗ * (1 + {[.elseWord]} * ({[.lbrace]} * (bodies * {[.rbrace]})))

/-- What a statement that starts with a token can go on with. -/
def stmtRest : Kind → Language Kind
  | .ident => {[.assign]} * (exprs * {[.semicolon]})
  | .intWord | .bitWord => {[.ident]} * ({[.assign]} * (exprs * {[.semicolon]}))
  | .returnWord => exprs * {[.semicolon]}
  | .ifWord => arms * elses
  | .assertFalse => 1
  | _ => 0

/-- What the later arms of a branch can go on with behind a token. -/
def elseRest : Kind → Language Kind
  | .elifWord => arms * elses
  | .elseWord => {[.lbrace]} * (bodies * {[.rbrace]})
  | _ => 0

theorem statements_eq_iSup : statements = ⨆ form : StmtForm, form.form.words := by
  ext w
  rw [Rule.mem_language_iff, Language.mem_iSup]
  constructor
  · rintro ⟨label, hrule, hw⟩
    cases label with
    | rule r =>
      cases hrule
      rw [Label.form, words_zero] at hw
      exact hw.elim
    | singleName s => cases s <;> exact nomatch hrule
    | severalNames s => cases s <;> exact nomatch hrule
    | stmt form => exact ⟨form, hw⟩
    | expr form => exact nomatch hrule
  · rintro ⟨form, hw⟩
    exact ⟨.stmt form, rfl, hw⟩

theorem tempVar_language : Rule.tempVar.language = {[.ident]} := by
  rw [Rule.language_eq rfl, Label.form, words_terminal]

theorem returnStatement_language : Rule.returnStatement.language = {[.returnWord]} * (exprs * {[.semicolon]}) := by
  rw [Rule.language_eq rfl]
  simp [Label.form]

theorem language_statement : statements = byFirst stmtRest := by
  rw [statements_eq_iSup]
  apply le_antisymm
  · refine iSup_le fun form => ?_
    have hfirst := singleton_mul_le_byFirst stmtRest
    cases form with
    | updateExpr => simpa [StmtForm.form, variableName_language, stmtRest] using hfirst .ident
    | updateTempInt => simpa [StmtForm.form, tempVar_language, stmtRest] using hfirst .intWord
    | updateTempBit => simpa [StmtForm.form, tempVar_language, stmtRest] using hfirst .bitWord
    | ret => simpa [StmtForm.form, returnStatement_language, stmtRest] using hfirst .returnWord
    | branch => simpa [StmtForm.form, stmtRest, elses] using hfirst .ifWord
    | assertFalse => simpa [StmtForm.form, stmtRest] using hfirst .assertFalse
  · refine iSup_le fun k => ?_
    have hform := le_iSup fun form : StmtForm => form.form.words
    unfold stmtRest
    split
    · simpa [StmtForm.form, variableName_language] using hform .updateExpr
    · simpa [StmtForm.form, tempVar_language] using hform .updateTempInt
    · simpa [StmtForm.form, tempVar_language] using hform .updateTempBit
    · simpa [StmtForm.form, returnStatement_language] using hform .ret
    · simpa [StmtForm.form, elses] using hform .branch
    · simpa [StmtForm.form] using hform .assertFalse
    · simp

theorem language_aluBody : bodies = statements * (1 + bodies) := by
  have hbody : bodies = statements * statements∗ := by
    refine (Rule.language_eq (r := .aluBody) rfl).trans ?_
    simp [Label.form]
  conv_lhs => rw [hbody, ← Language.one_add_self_mul_kstar_eq_kstar, ← hbody]

theorem language_conditionBlock :
    arms = {[.lparen]} * (exprs * ({[.rparen]} * ({[.lbrace]} * (bodies * {[.rbrace]})))) := by
  refine (Rule.language_eq (r := .conditionBlock) rfl).trans ?_
  simp [Label.form]

theorem language_elses : elses = 1 + byFirst elseRest := by
  have hstar : elses = 1 + {[.elseWord]} * ({[.lbrace]} * (bodies * {[.rbrace]})) + {[.elifWord]} * (arms * elses) := by
    conv_lhs => rw [elses, ← Language.one_add_self_mul_kstar_eq_kstar, one_add_mul, mul_assoc, mul_assoc, ← elses]
  ext w
  cases w with
  | nil =>
    rw [hstar, Language.mem_add, Language.mem_add, Language.mem_add]
    simp
  | cons k w =>
    rw [hstar, Language.mem_add, Language.mem_add, Language.mem_add, cons_mem_singleton_mul, cons_mem_singleton_mul,
      cons_mem_byFirst]
    clear hstar
    unfold elseRest
    split <;> simp_all

/-! ### Headers -/

theorem language_name (s : Section) : s.nameRule.language = {[.ident]} := by
  cases s <;> rw [Rule.language_eq rfl] <;> simp [Section.nameRule, Label.form]

theorem language_names (s : Section) : s.namesRule.language = {[.ident]} * (1 + {[.comma]} * s.namesRule.language) := by
  have hlabels : s.namesRule.language = (Label.singleName s).form.words + (Label.severalNames s).form.words := by
    ext w
    rw [Rule.mem_language_iff, Language.mem_add]
    constructor
    · rintro ⟨label, hrule, hw⟩
      cases label with
      | rule r =>
        cases hrule
        cases s <;> exact absurd hw (by simp [Label.form])
      | singleName s' => cases s <;> cases s' <;> first | exact .inl hw | exact nomatch hrule
      | severalNames s' => cases s <;> cases s' <;> first | exact .inr hw | exact nomatch hrule
      | stmt form => cases s <;> exact nomatch hrule
      | expr form => cases s <;> exact nomatch hrule
    · rintro (hw | hw)
      · exact ⟨.singleName s, rfl, hw⟩
      · exact ⟨.severalNames s, rfl, hw⟩
  rw [mul_add, mul_one]
  simpa [Label.form, language_name] using hlabels

theorem language_nameSeq (s : Section) : s.seqRule.language = 1 + s.namesRule.language := by
  cases s <;> rw [Rule.language_eq rfl] <;>
    simp only [Section.seqRule, Section.namesRule, Label.form, words_add, words_one, words_phrase]

theorem language_section (s : Section) : s.defRule.language =
    {[(Parse.sectionWords s).1]} * ({[(Parse.sectionWords s).2]} * ({[.colon]} * ({[.lbrace]} *
      (s.seqRule.language * {[.rbrace]})))) := by
  cases s <;> rw [Rule.language_eq rfl] <;>
    simp [Section.defRule, Section.seqRule, Label.form, braced, Parse.sectionWords]

theorem language_alu : Rule.alu.language = Rule.stateIndicator.language * (Section.stateVars.defRule.language *
    (Section.holeVars.defRule.language * (Section.packetFields.defRule.language * bodies))) := by
  rw [Rule.language_eq rfl]
  simp [Label.form, Section.defRule]

end SwitchSynth.Alu
