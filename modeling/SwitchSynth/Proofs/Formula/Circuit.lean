import Mathlib
import SwitchSynth.Proofs.Formula.Evaluation
import SwitchSynth.Proofs.Table

/-!
# The formula of a circuit is correct

Reading a circuit builds a term for each of its nodes. A valuation is fixed and reading is followed line by
line beside direct evaluation: `Agrees` says that the term of a node has the value of the node, and one
line keeps it (`readLine_advances`). The formula then closes over the sources, so its bound variables range
over all values that the sources can have.
-/

namespace SwitchSynth.Formula.Circuit

variable {α β : Type} {c c' : Circuit}

/-! ### Successful reading -/

/-- Reading goes from one circuit to another and has a result. -/
def Reads (m : ReadCircuit α) (c : Circuit) (a : α) (c' : Circuit) : Prop :=
  m.run c = .ok (a, c')

@[simp] theorem reads_pure {a b : α} : Reads (pure a) c b c' ↔ b = a ∧ c' = c := by
  show Except.ok (a, c) = Except.ok (b, c') ↔ _
  simp only [Except.ok.injEq, Prod.mk.injEq]
  exact ⟨fun h => ⟨h.1.symm, h.2.symm⟩, fun h => ⟨h.1.symm, h.2.symm⟩⟩

@[simp] theorem reads_throw {e : Error} {a : α} : ¬ Reads (throw e) c a c' :=
  fun h => nomatch (show Except.error e = Except.ok (a, c') from h)

@[simp] theorem reads_bind {m : ReadCircuit α} {f : α → ReadCircuit β} {b : β} :
    Reads (m >>= f) c b c' ↔ ∃ a c₁, Reads m c a c₁ ∧ Reads (f a) c₁ b c' := by
  unfold Reads
  rw [StateT.run_bind]
  cases m.run c with
  | error e => exact ⟨fun h => (nomatch h), fun ⟨_, _, h, _⟩ => (nomatch h)⟩
  | ok p =>
    obtain ⟨a, c₁⟩ := p
    constructor
    · intro h
      exact ⟨a, c₁, rfl, h⟩
    · rintro ⟨a', c₁', h, h'⟩
      cases h
      exact h'

@[simp] theorem reads_get {c₁ : Circuit} : Reads get c c₁ c' ↔ c₁ = c ∧ c' = c :=
  reads_pure

@[simp] theorem reads_modify {f : Circuit → Circuit} {u : Unit} :
    Reads (modify f) c u c' ↔ c' = f c := by
  show Except.ok ((), f c) = Except.ok (u, c') ↔ _
  simp only [Except.ok.injEq, Prod.mk.injEq, true_and]
  exact eq_comm

variable {words : List String} {w name : String} {t : Term}

@[simp] theorem reads_word {i : Nat} :
    Reads (word words i) c w c' ↔ words[i]? = some w ∧ c' = c := by
  unfold word
  cases words[i]? with
  | none => simp
  | some w' => simp [eq_comm]

@[simp] theorem reads_lookUp :
    Reads (lookUp name) c t c' ↔ c.terms.get? name = some t ∧ c' = c := by
  simp only [lookUp, reads_bind, reads_get, exists_and_left, exists_eq_left, and_assoc]
  cases c.terms.get? name with
  | none => simp
  | some t' => simp [eq_comm]

@[simp] theorem reads_operand {i : Nat} :
    Reads (operand words i) c t c' ↔
      ∃ n, words[i]? = some n ∧ c.terms.get? (nodeName n) = some t ∧ c' = c := by
  simp [operand, and_assoc]

@[simp] theorem reads_define {u : Unit} :
    Reads (define name t) c u c' ↔ c' = { c with terms := c.terms.insert name t } :=
  reads_modify

@[simp] theorem reads_build {b : Build Term} :
    Reads (build b) c t c' ↔
      t = (b.run c.graph).1 ∧ c' = { c with graph := (b.run c.graph).2 } := by
  show Except.ok ((b.run c.graph).1, { c with graph := (b.run c.graph).2 }) = _ ↔ _
  simp only [Except.ok.injEq, Prod.mk.injEq]
  exact ⟨fun h => ⟨h.1.symm, h.2.symm⟩, fun h => ⟨h.1.symm, h.2.symm⟩⟩

@[simp] theorem reads_integer {n : Int} :
    Reads (integer w) c n c' ↔ Evaluation.integer? w = some n ∧ c' = c := by
  unfold integer Evaluation.integer?
  cases Text.readInt w with
  | error e => simp [Except.toOption]
  | ok m => simp [Except.toOption, eq_comm]

@[simp] theorem reads_bit {b : Bool} :
    Reads (bit w) c b c' ↔ (w = "0" ∧ b = false ∨ w = "1" ∧ b = true) ∧ c' = c := by
  unfold bit
  by_cases h₀ : w = "0"
  · simp [h₀]
  · by_cases h₁ : w = "1"
    · simp [h₁]
    · simp [h₀, h₁]

/-! ### Terms beside values -/

def LooksLikeNode (name : String) : Prop :=
  ['_', 'n'] <+: name.toList

/-- What was read agrees with direct evaluation: the term of every node has the value of the node, and the
name of every source, which is not that of a node, stands for a variable of that name. -/
structure Agrees (u : Valuation) (c : Circuit) (env : Evaluation.Values) : Prop where
  node : ∀ n t, c.terms.get? (nodeName n) = some t → ∃ x, env n = some x ∧ t.HasValue u c.graph x
  source : ∀ s ∈ c.sources, ∃ t, c.terms.get? s = some t ∧
    c.graph[t.node]? = some (.var s) ∧ t.HasValue u c.graph (.int (u.named s))
  names : ∀ s ∈ c.sources, ¬ LooksLikeNode s

instance (name : String) : Decidable (LooksLikeNode name) :=
  inferInstanceAs (Decidable (_ <+: _))

theorem looksLikeNode_nodeName (n : String) : LooksLikeNode (nodeName n) := by
  unfold LooksLikeNode nodeName
  rw [String.toList_append]
  exact List.prefix_append _ _

theorem nodeName_injective {m n : String} (h : nodeName m = nodeName n) : m = n := by
  have hlist := congrArg String.toList h
  simp only [nodeName, String.toList_append, List.append_cancel_left_eq] at hlist
  exact String.toList_inj.1 hlist

namespace Agrees

variable {u : Valuation} {env : Evaluation.Values} {g : Graph}

theorem empty (u : Valuation) : Agrees u {} fun _ => none where
  node n t h := by simp at h
  source s h := by simp at h
  names s h := by simp at h

theorem of_prefix (h : Agrees u c env) (hg : c.graph.toList <+: g.toList) :
    Agrees u { c with graph := g } env where
  node n t ht := by
    obtain ⟨x, hx, hval⟩ := h.node n t ht
    exact ⟨x, hx, hval.of_prefix hg⟩
  source s hs := by
    obtain ⟨t, ht, hvar, hval⟩ := h.source s hs
    exact ⟨t, ht, Graph.getElem?_of_prefix hg hvar, hval.of_prefix hg⟩
  names := h.names

theorem define_node {t : Term} {n : String} {x : Value} (h : Agrees u c env) (ht : t.HasValue u c.graph x) :
    Agrees u { c with terms := c.terms.insert (nodeName n) t }
      fun m => if m = n then some x else env m where
  node m t' ht' := by
    by_cases hm : m = n
    · subst hm
      rw [Table.get?_insert_self, Option.some.injEq] at ht'
      subst ht'
      exact ⟨x, if_pos rfl, ht⟩
    · have hne : nodeName n ≠ nodeName m := fun he => hm (nodeName_injective he).symm
      rw [Table.get?_insert_of_ne _ _ hne] at ht'
      rw [if_neg hm]
      exact h.node m t' ht'
  source s hmem := by
    have hne : nodeName n ≠ s := fun he => h.names s hmem (he ▸ looksLikeNode_nodeName n)
    rw [Table.get?_insert_of_ne _ _ hne]
    exact h.source s hmem
  names := h.names

theorem define_source {t : Term} {s : String} (h : Agrees u c env) (hs : ¬ LooksLikeNode s)
    (hvar : c.graph[t.node]? = some (.var s)) (ht : t.HasValue u c.graph (.int (u.named s))) :
    Agrees u { c with terms := c.terms.insert s t, sources := c.sources ++ [s] } env where
  node n t' ht' := by
    have hne : s ≠ nodeName n := fun he => hs (he ▸ looksLikeNode_nodeName n)
    rw [Table.get?_insert_of_ne _ _ hne] at ht'
    exact h.node n t' ht'
  source r hr := by
    by_cases hrs : r = s
    · subst hrs
      exact ⟨t, Table.get?_insert_self _ _ _, hvar, ht⟩
    · rw [Table.get?_insert_of_ne _ _ (Ne.symm hrs)]
      have hmem : r ∈ c.sources := by
        rw [List.mem_append, List.mem_singleton] at hr
        exact hr.resolve_right hrs
      exact h.source r hmem
  names := List.forall_mem_append.2 ⟨h.names, List.forall_mem_singleton.2 hs⟩

/-- An operand is read without any change, and has the value of its node. -/
theorem operand (h : Agrees u c env) {words : List String} {i : Nat} {t : Term}
    (hread : Reads (Circuit.operand words i) c t c') :
    c = c' ∧ ∃ x, Evaluation.operand? env words i = some x ∧ t.HasValue u c.graph x := by
  obtain ⟨n, hw, ht, rfl⟩ := reads_operand.1 hread
  obtain ⟨x, hx, hval⟩ := h.node n t ht
  refine ⟨rfl, x, ?_, hval⟩
  rw [Evaluation.operand?, hw]
  exact hx

end Agrees

/-! ### The term of a line -/

/-- Reading built a term with a value and changed nothing but the graph. -/
structure Built (u : Valuation) (c : Circuit) (t : Term) (c' : Circuit) (x : Value) : Prop where
  eq : c' = { c with graph := c'.graph }
  grows : c.graph.toList <+: c'.graph.toList
  hasValue : t.HasValue u c'.graph x

section Built

variable {u : Valuation} {t : Term} {x : Value}

theorem built_of_gives {b : Build Term} (hb : Build.Gives u c.graph b x)
    (h : Reads (build b) c t c') : Built u c t c' x := by
  obtain ⟨rfl, rfl⟩ := reads_build.1 h
  exact ⟨rfl, hb.grows, hb.hasValue⟩

variable {y : Value} {g : Graph} {a b : Term} {words : List String}

theorem Built.trans {c₁ : Circuit} {s : Term} (h₁ : Built u c s c₁ y)
    (h₂ : Built u c₁ t c' x) : Built u c t c' x where
  eq := by rw [h₂.eq, h₁.eq]
  grows := h₁.grows.trans h₂.grows
  hasValue := h₂.hasValue

theorem Built.agrees {env : Evaluation.Values} (h : Built u c t c' x) (ha : Agrees u c env) : Agrees u c' env := by
  rw [h.eq]
  exact ha.of_prefix h.grows

theorem Built.sources (h : Built u c t c' x) : c'.sources = c.sources := by
  rw [h.eq]

theorem logical_gives {r : Bool} (op : Op)
    (ha : a.HasValue u g x) (hb : b.HasValue u g y)
    (hop : op.apply u [.bool x.toBool, .bool y.toBool] = .bool r) :
    Build.Gives u g (do Build.app op .bool [← Build.asBool a, ← Build.asBool b]) (.bool r) := by
  refine (Build.asBool_gives ha).bind fun a' g₁ ha' hg₁ => ?_
  refine (Build.asBool_gives (hb.of_prefix hg₁)).bind fun b' g₂ hb' hg₂ => ?_
  exact Build.app_pair_gives op .bool (ha'.of_prefix hg₂) hb' hop (by simp)

theorem arithmetic_gives {z : Value} {f : Term → Term → Build Term}
    (ha : a.HasValue u g x) (hb : b.HasValue u g y)
    (hf : ∀ a' b' g', a'.HasValue u g' (.int x.toInt) → b'.HasValue u g' (.int y.toInt) →
      Build.Gives u g' (f a' b') z) :
    Build.Gives u g (do f (← Build.asInt a) (← Build.asInt b)) z := by
  refine (Build.asInt_gives ha).bind fun a' g₁ ha' hg₁ => ?_
  refine (Build.asInt_gives (hb.of_prefix hg₁)).bind fun b' g₂ hb' hg₂ => ?_
  exact hf a' b' g₂ (ha'.of_prefix hg₂) hb'

/-- An operation on two operands has a term with the value that its word means. -/
theorem binary_gives {w : String} {op : Binary}
    (hw : Binary.ofWord? w = some op) (ha : a.HasValue u g x) (hb : b.HasValue u g y) :
    ∃ f, Evaluation.binary? u w = some f ∧ Build.Gives u g (op.term a b) (f x y) := by
  unfold Binary.ofWord? at hw
  split at hw <;> cases hw
  · exact ⟨_, rfl, logical_gives .and ha hb (by simp [Op.apply, Value.toBool])⟩
  · exact ⟨_, rfl, logical_gives .or ha hb (by simp [Op.apply, Value.toBool])⟩
  · exact ⟨_, rfl, logical_gives .xor ha hb rfl⟩
  · refine ⟨_, rfl, arithmetic_gives ha hb fun a' b' g' ha' hb' => ?_⟩
    exact Build.app_pair_gives .add .int ha' hb' (by simp [Op.apply, Value.toInt]) (by simp)
  · refine ⟨_, rfl, arithmetic_gives ha hb fun a' b' g' ha' hb' => ?_⟩
    exact Build.app_pair_gives .mul .int ha' hb' (by simp [Op.apply, Value.toInt]) (by simp)
  · exact ⟨_, rfl, arithmetic_gives ha hb fun a' b' g' ha' hb' =>
      Build.app_pair_gives .div .int ha' hb' rfl (by simp)⟩
  · exact ⟨_, rfl, arithmetic_gives ha hb fun a' b' g' ha' hb' =>
      Build.app_pair_gives .mod .int ha' hb' rfl (by simp)⟩
  · exact ⟨_, rfl, arithmetic_gives ha hb fun a' b' g' ha' hb' =>
      Build.compare_gives ha' hb' rfl rfl⟩
  · -- Equality is the one comparison that is its own turned form.
    refine ⟨_, rfl, arithmetic_gives ha hb fun a' b' g' ha' hb' => ?_⟩
    refine Build.compare_gives ha' hb' ?_ ?_
    · simp [Op.apply]
    · simp [Op.apply, eq_comm]

theorem constant_built (h : Reads (constant words) c t c') :
    ∃ type w x, words[3]? = some type ∧ words[4]? = some w ∧
      Evaluation.constant? type w = some x ∧ Built u c t c' x := by
  simp only [constant, reads_bind, reads_word] at h
  obtain ⟨type, c₁, ⟨htype, rfl⟩, h⟩ := h
  split at h
  · simp only [reads_bind, reads_word, reads_integer] at h
    obtain ⟨w, c₁, ⟨hw, rfl⟩, n, c₂, ⟨hn, rfl⟩, h⟩ := h
    refine ⟨_, w, .int n, htype, hw, ?_, built_of_gives (Build.numeral_gives n) h⟩
    simp [Evaluation.constant?, hn]
  · simp only [reads_bind, reads_word, reads_bit] at h
    obtain ⟨w, c₁, ⟨hw, rfl⟩, b, c₂, ⟨hb, rfl⟩, h⟩ := h
    refine ⟨_, w, .bool b, htype, hw, ?_, built_of_gives (Build.truth_gives b) h⟩
    obtain ⟨rfl, rfl⟩ | ⟨rfl, rfl⟩ := hb <;> rfl
  · exact absurd h reads_throw

/-- The condition of a selector is whether it equals the literal. A truth value is compared as one or
zero. -/
theorem selected_built {selector : Term} {i : Nat}
    (hsel : selector.HasValue u c.graph x) (h : Reads (selected selector (word words i)) c t c') :
    ∃ w n, words[i]? = some w ∧ Evaluation.integer? w = some n ∧
      Built u c t c' (.bool (decide (x.toInt = n))) := by
  unfold selected at h
  cases hk : selector.kind with
  | bool =>
    simp only [hk, reads_bind, reads_word, reads_bit] at h
    obtain ⟨w, c₁, ⟨hw, rfl⟩, b, c₂, ⟨hb, rfl⟩, h⟩ := h
    obtain ⟨b', rfl⟩ : ∃ b', x = .bool b' := ⟨_, Value.eq_bool_of_isTruth (hsel.kind.1 hk)⟩
    refine ⟨w, if b then 1 else 0, hw, ?_, built_of_gives ?_ h⟩
    · obtain ⟨rfl, rfl⟩ | ⟨rfl, rfl⟩ := hb <;> rfl
    · refine (Build.truth_gives b).bind fun t' g₁ ht' hg₁ => ?_
      refine Build.app_pair_gives .eq .bool (hsel.of_prefix hg₁) ht' ?_ (by simp)
      cases b <;> cases b' <;> rfl
  | int =>
    simp only [hk, reads_bind, reads_word, reads_integer] at h
    obtain ⟨w, c₁, ⟨hw, rfl⟩, n, c₂, ⟨hn, rfl⟩, h⟩ := h
    obtain ⟨m, rfl⟩ : ∃ m, x = .int m :=
      ⟨_, Value.eq_int_of_isTruth (hsel.isTruth_eq_false (by simp [hk]))⟩
    refine ⟨w, n, hw, hn, built_of_gives ?_ h⟩
    refine (Build.numeral_gives n).bind fun t' g₁ ht' hg₁ => ?_
    refine Build.app_pair_gives .eq .bool (hsel.of_prefix hg₁) ht' ?_ (by simp)
    exact congrArg Value.bool (Value.int_beq_int m n)
  | numeral =>
    simp only [hk] at h
    exact absurd h reads_throw

end Built

/-! ### One line after the other -/

/-- Reading a line goes together with evaluating it: the circuit agrees with the values again, and the
sources and assertions are those of the line besides the earlier ones. -/
structure Advances (u : Valuation) (line : String) (c : Circuit) (env : Evaluation.Values)
    (c' : Circuit) (env' : Evaluation.Values) : Prop where
  step : Evaluation.step u env line = some env'
  agrees : Agrees u c' env'
  sources : c'.sources = c.sources ++ (Evaluation.fieldOf "S" 4 line).toList
  asserted : c'.asserted = c.asserted ++ (Evaluation.fieldOf "ASSERT" 3 line).toList.map nodeName

section Line

variable {u : Valuation} {env : Evaluation.Values} {line : String} {n operation : String}

theorem step_of_value {x : Value} (hh : Evaluation.isHeader (Text.words line) = false)
    (hn : (Text.words line)[0]? = some n) (hop : (Text.words line)[2]? = some operation)
    (hne : operation ≠ "ASSERT") (hx : Evaluation.value? u env (Text.words line) = some x) :
    Evaluation.step u env line = some fun m => if m = n then some x else env m := by
  have hassert : ((Text.words line)[2]? == some "ASSERT") = false := by
    rw [hop, beq_eq_false_iff_ne]
    exact fun h => hne (Option.some.inj h)
  simp only [Evaluation.step, hh, hassert, hn, hx, Bool.or_false, Bool.false_eq_true, if_false]
  rfl

theorem fieldOf_of_ne {operation' : String} (i : Nat)
    (hop : (Text.words line)[2]? = some operation) (hne : operation ≠ operation') :
    Evaluation.fieldOf operation' i line = none := by
  have hbeq : ((Text.words line)[2]? == some operation') = false := by
    rw [hop, beq_eq_false_iff_ne]
    exact fun h => hne (Option.some.inj h)
  simp [Evaluation.fieldOf, hbeq]

theorem fieldOf_of_eq (i : Nat) (hh : Evaluation.isHeader (Text.words line) = false)
    (hop : (Text.words line)[2]? = some operation) :
    Evaluation.fieldOf operation i line = (Text.words line)[i]? := by
  simp [Evaluation.fieldOf, hh, hop]

theorem advances_of_built {t : Term} {c₁ : Circuit} {x : Value} (ha : Agrees u c env)
    (hh : Evaluation.isHeader (Text.words line) = false)
    (hn : (Text.words line)[0]? = some n) (hop : (Text.words line)[2]? = some operation)
    (hassert : operation ≠ "ASSERT") (hsource : operation ≠ "S")
    (hx : Evaluation.value? u env (Text.words line) = some x) (hb : Built u c t c₁ x) :
    Advances u line c env { c₁ with terms := c₁.terms.insert (nodeName n) t }
      fun m => if m = n then some x else env m where
  step := step_of_value hh hn hop hassert hx
  agrees := (hb.agrees ha).define_node hb.hasValue
  sources := by
    rw [fieldOf_of_ne 4 hop hsource]
    simpa using hb.sources
  asserted := by
    rw [fieldOf_of_ne 3 hop hassert, hb.eq]
    simp

theorem advances_of_assert {w : String} (ha : Agrees u c env)
    (hh : Evaluation.isHeader (Text.words line) = false)
    (hop : (Text.words line)[2]? = some "ASSERT") (hw : (Text.words line)[3]? = some w) :
    Advances u line c env { c with asserted := c.asserted ++ [nodeName w] } env where
  step := by simp [Evaluation.step, hop]
  agrees := ⟨ha.node, ha.source, ha.names⟩
  sources := by
    rw [fieldOf_of_ne 4 hop (by decide)]
    simp
  asserted := by
    rw [fieldOf_of_eq 3 hh hop, hw]
    rfl

theorem advances_of_source {s : String} (ha : Agrees u c env) (hname : ¬ LooksLikeNode s)
    (hh : Evaluation.isHeader (Text.words line) = false)
    (hn : (Text.words line)[0]? = some n) (hop : (Text.words line)[2]? = some "S")
    (hw : (Text.words line)[4]? = some s) :
    Advances u line c env
      { c with
        graph := ((Build.var s).run c.graph).2
        terms := (c.terms.insert s ((Build.var s).run c.graph).1).insert (nodeName n)
          ((Build.var s).run c.graph).1
        sources := c.sources ++ [s] }
      fun m => if m = n then some (.int (u.named s)) else env m := by
  have hvar : Build.Gives u c.graph (Build.var s) (.int (u.named s)) := Build.var_gives s
  have hnode : ((Build.var s).run c.graph).2[((Build.var s).run c.graph).1.node]? =
      some (.var s) := by
    show (c.graph.push (.var s))[c.graph.size]? = some (.var s)
    exact Array.getElem?_push_size
  refine ⟨?_, ?_, ?_, ?_⟩
  · apply step_of_value hh hn hop (by decide)
    simp [Evaluation.value?, hop, hw]
  · have h := (ha.of_prefix hvar.grows).define_source hname hnode hvar.hasValue
    exact h.define_node hvar.hasValue
  · rw [fieldOf_of_eq 4 hh hop, hw]
    rfl
  · rw [fieldOf_of_ne 3 hop (by decide)]
    simp

/-- Reading a line that stands for a node advances the agreement, whichever operation the line has. -/
theorem readNode_advances (ha : Agrees u c env)
    (hname : ∀ s, Evaluation.fieldOf "S" 4 line = some s → ¬ LooksLikeNode s)
    (hh : Evaluation.isHeader (Text.words line) = false)
    (h : Reads (readNode line (Text.words line)) c () c') :
    ∃ env', Advances u line c env c' env' := by
  simp only [readNode, reads_bind, reads_word] at h
  obtain ⟨n, c₁, ⟨hn, rfl⟩, operation, c₂, ⟨hop, rfl⟩, h⟩ := h
  split at h
  · -- an assertion
    simp only [reads_bind, reads_word, reads_modify] at h
    obtain ⟨w, c₁, ⟨hw, rfl⟩, rfl⟩ := h
    exact ⟨_, advances_of_assert ha hh hop hw⟩
  · -- a source
    simp only [source, reads_bind, reads_word, reads_define] at h
    obtain ⟨t, c₁, ⟨type, c₂, ⟨_, rfl⟩, s, c₃, ⟨hw, rfl⟩, h⟩, rfl⟩ := h
    split at h
    · simp only [reads_bind, reads_throw, false_and, exists_false] at h
    · simp only [reads_bind, reads_pure, reads_build, reads_define, reads_modify] at h
      obtain ⟨_, _, ⟨rfl, rfl⟩, _, _, rfl, _, _, rfl, rfl, rfl⟩ := h
      have hsname := hname s (by rw [fieldOf_of_eq 4 hh hop, hw])
      exact ⟨_, advances_of_source ha hsname hh hn hop hw⟩
  · -- a constant
    simp only [reads_bind, reads_define] at h
    obtain ⟨t, c₁, hc, rfl⟩ := h
    obtain ⟨type, w, x, htype, hw, hx, hb⟩ := constant_built (u := u) hc
    refine ⟨_, advances_of_built ha hh hn hop (by decide) (by decide) ?_ hb⟩
    simp [Evaluation.value?, hop, htype, hw, hx]
  · -- a negation of an integer
    simp only [reads_bind, reads_define] at h
    obtain ⟨a, _, hread, t, c₁, hbuild, rfl⟩ := h
    obtain ⟨rfl, x, hx, hax⟩ := ha.operand hread
    have hb : Build.Gives u c₂.graph (do Build.app .sub .int [← Build.asInt a])
        (.int (-x.toInt)) := by
      refine (Build.asInt_gives hax).bind fun a' g₁ ha' hg₁ => Build.app_gives _ _ _ ?_ (by simp)
      simp [ha'.value, Op.apply, Value.toInt]
    refine ⟨_, advances_of_built ha hh hn hop (by decide) (by decide) ?_ (built_of_gives hb hbuild)⟩
    simp [Evaluation.value?, hop, hx]
  · -- a negation of a truth value
    simp only [reads_bind, reads_define] at h
    obtain ⟨a, _, hread, t, c₁, hbuild, rfl⟩ := h
    obtain ⟨rfl, x, hx, hax⟩ := ha.operand hread
    have hb : Build.Gives u c₂.graph (do Build.app .not .bool [← Build.asBool a])
        (.bool (!x.toBool)) := by
      refine (Build.asBool_gives hax).bind fun a' g₁ ha' hg₁ => Build.app_gives _ _ _ ?_ (by simp)
      simp [ha'.value, Op.apply, Value.toBool]
    refine ⟨_, advances_of_built ha hh hn hop (by decide) (by decide) ?_ (built_of_gives hb hbuild)⟩
    simp [Evaluation.value?, hop, hx]
  · -- a choice by a truth value
    simp only [reads_bind, reads_define] at h
    obtain ⟨a, _, hread, yes, _, hyes, no, _, hno, t, c₁, hbuild, rfl⟩ := h
    obtain ⟨rfl, x, hx, hax⟩ := ha.operand hread
    obtain ⟨rfl, y, hy, hyesy⟩ := ha.operand hyes
    obtain ⟨rfl, z, hz, hnoz⟩ := ha.operand hno
    have hb : Build.Gives u c₂.graph (do Build.choose (← Build.asBool a) yes no)
        (Value.choose x.toBool y z) :=
      (Build.asBool_gives hax).bind fun a' g₁ ha' hg₁ =>
        Build.choose_gives ha' (hyesy.of_prefix hg₁) (hnoz.of_prefix hg₁)
    refine ⟨_, advances_of_built ha hh hn hop (by decide) (by decide) ?_ (built_of_gives hb hbuild)⟩
    simp [Evaluation.value?, hop, hx, hy, hz]
  · -- a choice by a literal
    simp only [reads_bind, reads_define] at h
    obtain ⟨a, _, hread, condition, c₁, hsel, yes, _, hyes, no, _, hno, t, c₂, hbuild, rfl⟩ := h
    obtain ⟨rfl, x, hx, hax⟩ := ha.operand hread
    obtain ⟨w, k, hw, hk, hcond⟩ := selected_built hax hsel
    -- The condition may have added nodes, so the branches are looked up in a longer graph.
    have ha₁ := hcond.agrees ha
    obtain ⟨rfl, y, hy, hyesy⟩ := ha₁.operand hyes
    obtain ⟨rfl, z, hz, hnoz⟩ := ha₁.operand hno
    have hb := hcond.trans (built_of_gives (Build.choose_gives hcond.hasValue hyesy hnoz) hbuild)
    refine ⟨_, advances_of_built ha hh hn hop (by decide) (by decide) ?_ hb⟩
    simp [Evaluation.value?, hop, hx, hw, hk, hy, hz]
  · -- an operation on two operands
    rename_i hassert hsource hconst hneg hnot hacc hass
    split at h
    · exact absurd h reads_throw
    · rename_i op hofWord
      simp only [reads_bind, reads_define] at h
      obtain ⟨a, _, hread, b, _, hread', t, c₁, hbuild, rfl⟩ := h
      obtain ⟨rfl, x, hx, hax⟩ := ha.operand hread
      obtain ⟨rfl, y, hy, hby⟩ := ha.operand hread'
      obtain ⟨f, hf, hb⟩ := binary_gives hofWord hax hby
      refine ⟨_, advances_of_built ha hh hn hop hassert hsource ?_ (built_of_gives hb hbuild)⟩
      simp [Evaluation.value?, hop, hf, hx, hy]

theorem readLine_advances (ha : Agrees u c env)
    (hname : ∀ s, Evaluation.fieldOf "S" 4 line = some s → ¬ LooksLikeNode s)
    (h : Reads (readLine line) c () c') : ∃ env', Advances u line c env c' env' := by
  simp only [readLine, reads_bind, reads_word] at h
  obtain ⟨start, c₁, ⟨hstart, rfl⟩, h⟩ := h
  by_cases hheader : start = "dag" ∨ start = "TUPLE_DEF"
  · rw [if_pos hheader, reads_pure] at h
    obtain ⟨-, rfl⟩ := h
    have hh : Evaluation.isHeader (Text.words line) = true := by
      rcases hheader with rfl | rfl <;> simp [Evaluation.isHeader, hstart]
    exact ⟨env, by simp [Evaluation.step, hh], ha, by simp [Evaluation.fieldOf, hh],
      by simp [Evaluation.fieldOf, hh]⟩
  · rw [if_neg hheader] at h
    have hh : Evaluation.isHeader (Text.words line) = false := by
      rw [not_or] at hheader
      simp [Evaluation.isHeader, hstart, hheader]
    exact readNode_advances ha hname hh h

theorem readLines_agrees {lines : List String} (ha : Agrees u c env)
    (hnames : ∀ s ∈ lines.filterMap (Evaluation.fieldOf "S" 4), ¬ LooksLikeNode s)
    (h : Reads (lines.forM readLine) c () c') :
    ∃ env', lines.foldlM (Evaluation.step u) env = some env' ∧ Agrees u c' env' ∧
      c'.sources = c.sources ++ lines.filterMap (Evaluation.fieldOf "S" 4) ∧
      c'.asserted = c.asserted ++
        (lines.filterMap (Evaluation.fieldOf "ASSERT" 3)).map nodeName := by
  induction lines generalizing c env with
  | nil =>
    obtain ⟨-, rfl⟩ := reads_pure.1 h
    exact ⟨env, rfl, ha, by simp, by simp⟩
  | cons line rest ih =>
    obtain ⟨_, c₁, hline, hrest⟩ := reads_bind.1 h
    have hname : ∀ s, Evaluation.fieldOf "S" 4 line = some s → ¬ LooksLikeNode s := fun s hls =>
      hnames s (List.mem_filterMap.2 ⟨line, List.mem_cons_self, hls⟩)
    have hnames' : ∀ s ∈ rest.filterMap (Evaluation.fieldOf "S" 4), ¬ LooksLikeNode s := by
      intro s hmem
      obtain ⟨l, hl, hls⟩ := List.mem_filterMap.1 hmem
      exact hnames s (List.mem_filterMap.2 ⟨l, List.mem_cons_of_mem _ hl, hls⟩)
    obtain ⟨env₁, hadv⟩ := readLine_advances ha hname hline
    obtain ⟨env', hrun, hagrees, hsources, hasserted⟩ := ih hadv.agrees hnames' hrest
    refine ⟨env', ?_, hagrees, ?_, ?_⟩
    · rw [List.foldlM_cons, hadv.step]
      exact hrun
    · rw [hsources, hadv.sources, List.append_assoc]
      cases hf : Evaluation.fieldOf "S" 4 line <;> simp [hf]
    · rw [hasserted, hadv.asserted, List.append_assoc]
      cases hf : Evaluation.fieldOf "ASSERT" 3 line <;> simp [hf]

end Line

/-! ### The body of the formula -/

section Body

variable {u : Valuation} {env : Evaluation.Values} {t r : Term} {b : Bool}

variable {numbers names : List String}

theorem conjunction_built (ha : Agrees u c env)
    (ht : t.HasValue u c.graph (.bool b))
    (h : Reads (conjunction t (numbers.map nodeName)) c r c') :
    ∃ b', Built u c r c' (.bool b') ∧
      (b' = true ↔ b = true ∧ ∀ n ∈ numbers, ∃ x, env n = some x ∧ x.toBool = true) := by
  induction numbers generalizing c t b with
  | nil =>
    obtain ⟨rfl, rfl⟩ := reads_pure.1 h
    exact ⟨b, ⟨rfl, List.prefix_refl _, ht⟩, by simp⟩
  | cons n rest ih =>
    simp only [List.map_cons, conjunction, reads_bind, reads_lookUp] at h
    obtain ⟨a, c₁, ⟨hat, rfl⟩, h⟩ := h
    obtain ⟨x, hx, hax⟩ := ha.node n a hat
    split at h
    · simp only [reads_bind, reads_throw, false_and, exists_false] at h
    · obtain ⟨t', c₂, hbuild, hrest⟩ := reads_bind.1 h
      have hand : Build.Gives u c₁.graph (Build.app .and .bool [t, a])
          (.bool (b && x.toBool)) :=
        Build.app_pair_gives .and .bool ht hax (by simp [Op.apply, Value.toBool]) (by simp)
      have hb := built_of_gives hand hbuild
      obtain ⟨b', hb', hiff⟩ := ih (hb.agrees ha) hb.hasValue hrest
      refine ⟨b', hb.trans hb', ?_⟩
      rw [hiff, Bool.and_eq_true, List.forall_mem_cons, and_assoc]
      simp [hx]

theorem range_gives {g : Graph} {x : Term} {n : Int} (bits : Int)
    (hx : x.HasValue u g (.int n)) (ht : t.HasValue u g (.bool b)) :
    Build.Gives u g
      (do
        let zero ← Build.numeral 0
        let low ← Build.app .ge .bool [x, zero]
        let limit ← Build.numeral (Int.pow 2 bits.toNat)
        let high ← Build.app .lt .bool [x, limit]
        Build.app .and .bool [t, ← Build.app .and .bool [low, high]])
      (.bool (b && (decide (0 ≤ n) && decide (n < Int.pow 2 bits.toNat)))) := by
  refine (Build.numeral_gives 0).bind fun zero g₁ h₁ hg₁ => ?_
  refine (Build.app_pair_gives (z := .bool (decide (0 ≤ n))) .ge .bool (hx.of_prefix hg₁) h₁ rfl
    (by simp)).bind fun low g₂ h₂ hg₂ => ?_
  refine (Build.numeral_gives _).bind fun limit g₃ h₃ hg₃ => ?_
  have hx₃ := hx.of_prefix (hg₁.trans (hg₂.trans hg₃))
  refine (Build.app_pair_gives (z := .bool (decide (n < Int.pow 2 bits.toNat))) .lt .bool hx₃ h₃ rfl
    (by simp)).bind fun high g₄ h₄ hg₄ => ?_
  have h₂' := h₂.of_prefix (hg₃.trans hg₄)
  refine (Build.app_pair_gives (z := .bool (decide (0 ≤ n) && decide (n < Int.pow 2 bits.toNat)))
    .and .bool h₂' h₄ (by simp [Op.apply, Value.toBool]) (by simp)).bind fun both g₅ h₅ hg₅ => ?_
  have ht₅ := ht.of_prefix (hg₁.trans (hg₂.trans (hg₃.trans (hg₄.trans hg₅))))
  exact Build.app_pair_gives .and .bool ht₅ h₅ (by simp [Op.apply, Value.toBool]) (by simp)

theorem ranges_built {bits : Int} (ha : Agrees u c env)
    (hnames : ∀ s ∈ names, s ∈ c.sources) (ht : t.HasValue u c.graph (.bool b))
    (h : Reads (ranges bits t names) c r c') :
    ∃ b', Built u c r c' (.bool b') ∧
      (b' = true ↔ b = true ∧ ∀ s ∈ names, 0 ≤ u.named s ∧ u.named s < Int.pow 2 bits.toNat) := by
  induction names generalizing c t b with
  | nil =>
    obtain ⟨rfl, rfl⟩ := reads_pure.1 h
    exact ⟨b, ⟨rfl, List.prefix_refl _, ht⟩, by simp⟩
  | cons s rest ih =>
    simp only [ranges, reads_bind, reads_lookUp] at h
    obtain ⟨x, c₁, ⟨hxt, rfl⟩, t', c₂, hbuild, hrest⟩ := h
    obtain ⟨x', hx', _, hx⟩ := ha.source s (hnames s List.mem_cons_self)
    obtain rfl : x = x' := Option.some.inj (hxt.symm.trans hx')
    have hrange := range_gives bits hx ht
    have hb := built_of_gives hrange hbuild
    have hnames' : ∀ s' ∈ rest, s' ∈ c₂.sources := by
      rw [hb.sources]
      exact fun s' hs' => hnames s' (List.mem_cons_of_mem _ hs')
    obtain ⟨b', hb', hiff⟩ := ih (hb.agrees ha) hnames' hb.hasValue hrest
    refine ⟨b', hb.trans hb', ?_⟩
    rw [hiff, Bool.and_eq_true, Bool.and_eq_true, List.forall_mem_cons, and_assoc,
      decide_eq_true_iff, decide_eq_true_iff]

theorem variableNames_eq {xs : List String} (ha : Agrees u c env)
    (hnames : ∀ s ∈ names, s ∈ c.sources) (h : Reads (names.mapM variableName) c xs c') :
    xs = names ∧ c' = c := by
  induction names generalizing xs c' with
  | nil => simpa using h
  | cons s rest ih =>
    simp only [List.mapM_cons, variableName, reads_bind, reads_lookUp, reads_get] at h
    obtain ⟨x, c₁, ⟨t, c₂, ⟨ht, rfl⟩, c₃, c₄, ⟨rfl, rfl⟩, hx⟩, xs', c₅, hrest, hxs⟩ := h
    obtain ⟨t', ht', hvar, _⟩ := ha.source s (hnames s List.mem_cons_self)
    obtain rfl : t = t' := Option.some.inj (ht.symm.trans ht')
    simp only [hvar, reads_pure] at hx
    obtain ⟨rfl, rfl⟩ := hx
    obtain ⟨rfl, rfl⟩ := ih (fun s' hs' => hnames s' (List.mem_cons_of_mem _ hs')) hrest
    exact reads_pure.1 hxs

/-- The formula closes over the sources, and its body says that the ranges imply the assertions. -/
theorem quantified_value {bits : Int} {f : Quantified}
    (ha : Agrees u c env) (hnumbers : c.asserted = numbers.map nodeName)
    (h : Reads (quantified bits) c f c') :
    f = Quantified.closing true c.sources c'.graph f.body ∧
      (c'.graph.valueAt u f.body = .bool true ↔
        ((∀ s ∈ c.sources, 0 ≤ u.named s ∧ u.named s < Int.pow 2 bits.toNat) →
          ∀ n ∈ numbers, ∃ x, env n = some x ∧ x.toBool = true)) := by
  simp only [quantified, reads_bind, reads_get] at h
  obtain ⟨t₁, _, hb₁, _, c₁, ⟨rfl, rfl⟩, asserted, _, hc, _, c₂, ⟨rfl, rfl⟩, t₃, c₃, hb₃,
    range, c₄, hr, names, c₅, hn, h⟩ := h
  have htrue₁ := built_of_gives (Build.truth_gives (v := u) true) hb₁
  have ha₁ := htrue₁.agrees ha
  have hnumbers₁ : c₁.asserted = numbers.map nodeName := by rw [htrue₁.eq]; exact hnumbers
  rw [hnumbers₁] at hc
  obtain ⟨b, hasserted, hb⟩ := conjunction_built ha₁ htrue₁.hasValue hc
  have htrue₃ := built_of_gives (Build.truth_gives (v := u) true) hb₃
  have ha₃ := htrue₃.agrees (hasserted.agrees ha₁)
  have hsources₂ := hasserted.sources.trans htrue₁.sources
  have hsources₃ := htrue₃.sources.trans hsources₂
  rw [hsources₂] at hr hn
  obtain ⟨b', hrange, hb'⟩ := ranges_built ha₃ (hsources₃ ▸ fun _ hs => hs) htrue₃.hasValue hr
  have hsources₄ := hrange.sources.trans hsources₃
  obtain ⟨rfl, rfl⟩ := variableNames_eq (hrange.agrees ha₃) (hsources₄ ▸ fun _ hs => hs) hn
  split at h
  · simp only [reads_bind, reads_throw, false_and, exists_false] at h
  · simp only [reads_bind, reads_get, reads_pure] at h
    obtain ⟨body, c₆, hbody, _, _, ⟨rfl, rfl⟩, rfl, rfl⟩ := h
    have hasserted' := hasserted.hasValue.of_prefix (htrue₃.grows.trans hrange.grows)
    have himplies := built_of_gives (Build.app_pair_gives (z := .bool (!b' || b)) .implies .bool
      hrange.hasValue hasserted' rfl (by simp)) hbody
    refine ⟨rfl, ?_⟩
    show Graph.valueAt _ u body.node = .bool true ↔ _
    rw [himplies.hasValue.value, Value.bool.injEq, Bool.or_eq_true, Bool.not_eq_true',
      ← Bool.not_eq_true, hb', hb]
    simp only [true_and]
    constructor
    · intro hor hall
      exact hor.resolve_left (not_not_intro hall)
    · intro himp
      by_cases hall : ∀ s ∈ c.sources, 0 ≤ u.named s ∧ u.named s < Int.pow 2 bits.toNat
      · exact .inr (himp hall)
      · exact .inl hall

end Body

theorem reads_of_formula {text : String} {bits : Int} {f : Quantified}
    (h : formula text bits = .ok f) :
    ∃ c c', Reads ((Text.lines text).forM readLine) {} () c ∧ Reads (quantified bits) c f c' := by
  simp only [formula] at h
  cases hrun : StateT.run (do (Text.lines text).forM readLine; quantified bits) {} with
  | error e =>
    rw [hrun] at h
    exact nomatch h
  | ok p =>
    rw [hrun] at h
    obtain rfl : p.1 = f := Except.ok.inj h
    obtain ⟨_, c, hlines, hq⟩ := reads_bind.1 hrun
    exact ⟨c, p.2, hlines, hq⟩

end SwitchSynth.Formula.Circuit

namespace SwitchSynth.Formula

/-! ### Bound variables -/

/-- A valuation of bound variables as one of names: a name stands for the value at its last place. -/
def Valuation.naming (v : Valuation) (names : List String) (xs : List Int) : Valuation :=
  { v.binding xs with
    named := fun s =>
      match names.reverse.idxOf? s with
      | some i => xs.reverse.getD i 0
      | none => v.named s }

/-- A name stands for its own value if every name is bound to its value. -/
theorem Valuation.naming_map_named (v : Valuation) {names : List String} (σ : String → Int)
    {s : String} (hs : s ∈ names) : (v.naming names (names.map σ)).named s = σ s := by
  have hmem : s ∈ names.reverse := List.mem_reverse.2 hs
  cases hi : names.reverse.idxOf? s with
  | none => exact absurd hmem (List.idxOf?_eq_none_iff.1 hi)
  | some i =>
    have hget : names.reverse[i]? = some s := by
      rw [List.idxOf?_eq_some_iff] at hi
      obtain ⟨hlt, hbeq, -⟩ := hi
      rw [List.getElem?_eq_getElem hlt, hbeq]
    simp only [naming, hi, List.map_reverse.symm, List.getD_eq_getElem?_getD, List.getElem?_map, hget]
    rfl

theorem Node.value_bind (names : List String) (v : Valuation) (xs : List Int)
    (earlier : Array Value) (n : Node) :
    (n.bind names).value (v.binding xs) earlier = n.value (v.naming names xs) earlier := by
  cases n with
  | var name =>
    simp only [Node.bind, Node.value, Valuation.naming]
    cases names.reverse.idxOf? name <;> rfl
  | numeral n => rfl
  | truth b => rfl
  | bound i => rfl
  | app op arguments => rfl

theorem Graph.valueAt_map_bind (g : Graph) (names : List String) (v : Valuation) (xs : List Int)
    (i : Nat) :
    Graph.valueAt (g.map (Node.bind names)) (v.binding xs) i = g.valueAt (v.naming names xs) i := by
  simp only [Graph.valueAt, Graph.values, Array.foldl_map, Node.value_bind]

/-- The formula of a circuit is true if and only if direct evaluation makes every assertion true for all
values of the sources within the number of bits, whatever a division by zero gives. -/
theorem Circuit.formula_holds_iff_assertions_hold (text : String) (bits : Nat) (f : Quantified)
    (h : Circuit.formula text bits = .ok f)
    (hnames : ∀ s ∈ Evaluation.sources text, ¬ LooksLikeNode s) (v : Valuation) :
    f.Holds v ↔ ∀ σ : String → Int,
      (∀ s ∈ Evaluation.sources text, 0 ≤ σ s ∧ σ s < 2 ^ bits) →
        Evaluation.AssertionsHold { v with named := σ } text := by
  obtain ⟨c, c', hlines, hquantified⟩ := reads_of_formula h
  -- For a fixed valuation, reading goes together with direct evaluation.
  have hread : ∀ u : Valuation,
      f = Quantified.closing true (Evaluation.sources text) c'.graph f.body ∧
        (c'.graph.valueAt u f.body = .bool true ↔
          ((∀ s ∈ Evaluation.sources text, 0 ≤ u.named s ∧ u.named s < 2 ^ bits) →
            Evaluation.AssertionsHold u text)) := by
    intro u
    obtain ⟨env, hrun, hagrees, hsources, hasserted⟩ :=
      readLines_agrees (Agrees.empty u) hnames hlines
    obtain ⟨hf, hvalue⟩ := quantified_value hagrees hasserted hquantified
    rw [show c.sources = Evaluation.sources text from hsources] at hf hvalue
    refine ⟨hf, hvalue.trans (imp_congr Iff.rfl ?_)⟩
    constructor
    · intro hall
      exact ⟨env, hrun, hall⟩
    · rintro ⟨env', hrun', hall⟩
      obtain rfl : env = env' := Option.some.inj (hrun.symm.trans hrun')
      exact hall
  have hholds : f.Holds v ↔ ∀ xs : List Int, xs.length = (Evaluation.sources text).length →
      c'.graph.valueAt (v.naming (Evaluation.sources text) xs) f.body = .bool true := by
    rw [(hread v).1]
    simp only [Quantified.Holds, Quantified.closing, if_true, Graph.valueAt_map_bind]
  rw [hholds]
  constructor
  · intro hall σ hσ
    -- The quantifier reaches every assignment of the sources.
    let u := v.naming (Evaluation.sources text) ((Evaluation.sources text).map σ)
    have hu : ∀ s ∈ Evaluation.sources text, u.named s = σ s :=
      fun s hs => v.naming_map_named σ hs
    have hassert : Evaluation.AssertionsHold u text := by
      refine (hread u).2.1 (hall _ (by simp)) fun s hs => ?_
      rw [hu s hs]
      exact hσ s hs
    exact (Evaluation.assertionsHold_congr (v := u) (w := { v with named := σ }) rfl rfl hu).1 hassert
  · intro hall xs _
    refine (hread _).2.2 fun hrange => ?_
    exact (Evaluation.assertionsHold_congr (w := v.naming (Evaluation.sources text) xs) rfl rfl
      fun _ _ => rfl).1 (hall _ hrange)

/-- A circuit that divides by its source and chooses between a truth value and an integer. -/
def Circuit.dividing : String :=
  "dag circuit\n0 = S INT x\n1 = CONST INT 4\n2 = LT BOOL 0 1\n3 = DIV INT 1 0\n4 = ARRASS INT 2 == 1 3 2\n5 = EQ BOOL 4 1\n6 = ASSERT 5"

/-- The formula of that circuit, for two bits. -/
theorem Circuit.dividing_formula_holds_iff :
    ∃ f, Circuit.formula Circuit.dividing (2 : Nat) = .ok f ∧
      (∀ s ∈ Evaluation.sources Circuit.dividing, ¬ LooksLikeNode s) ∧
      ∀ v : Valuation, f.Holds v ↔ ∀ σ : String → Int,
        (∀ s ∈ Evaluation.sources Circuit.dividing, 0 ≤ σ s ∧ σ s < 2 ^ 2) →
          Evaluation.AssertionsHold { v with named := σ } Circuit.dividing := by
  have hsome : (Circuit.formula Circuit.dividing (2 : Nat)).toOption.isSome = true := by
    decide +kernel
  have hnames : ∀ s ∈ Evaluation.sources Circuit.dividing, ¬ LooksLikeNode s := by
    decide +kernel
  cases hf : Circuit.formula Circuit.dividing (2 : Nat) with
  | error e =>
    rw [hf] at hsome
    exact nomatch hsome
  | ok f => exact ⟨f, rfl, hnames, Circuit.formula_holds_iff_assertions_hold _ 2 f hf hnames⟩

end SwitchSynth.Formula
