import SwitchSynth.Formula.Graph

/-!
# Values of terms in growing graphs

Nodes are only ever added at the end of a graph, so a term keeps its value while further terms are built.
`Term.HasValue` says that a term is a node of a graph with a value and that its kind fits the value;
`Build.Gives` says that building a term gives it a value and only adds to the graph. Each way to build a
term has one lemma that says which value it gives.
-/

namespace SwitchSynth.Formula

namespace Graph

theorem values_push (g : Graph) (n : Node) (v : Valuation) :
    Graph.values (g.push n) v = (g.values v).push (n.value v (g.values v)) := by
  simp only [values, Array.foldl_push]

@[simp] theorem size_values (g : Graph) (v : Valuation) : (g.values v).size = g.size := by
  have hfold : ∀ (ns : List Node) (earlier : Array Value),
      (ns.foldl (fun vs n => vs.push (n.value v vs)) earlier).size = earlier.size + ns.length := by
    intro ns
    induction ns with
    | nil => intro earlier; rfl
    | cons n ns ih =>
      intro earlier
      rw [List.foldl_cons, ih, Array.size_push, List.length_cons]
      omega
  rw [values, ← Array.foldl_toList, hfold]
  simp

/-- The node that is added last has the value that it has over the nodes before it. -/
theorem valueAt_push_size (g : Graph) (n : Node) (v : Valuation) :
    Graph.valueAt (g.push n) v g.size = n.value v (g.values v) := by
  rw [valueAt, values_push, Array.getD_eq_getD_getElem?, ← size_values g v,
    Array.getElem?_push_size, Option.getD_some]

variable {i : Nat} {g g' : Graph}

theorem valueAt_push_of_lt (g : Graph) (n : Node) (v : Valuation) (h : i < g.size) :
    Graph.valueAt (g.push n) v i = g.valueAt v i := by
  have hi : i < (g.values v).size := by rw [size_values]; exact h
  rw [valueAt, valueAt, values_push, Array.getD_eq_getD_getElem?, Array.getD_eq_getD_getElem?,
    Array.getElem?_push_lt hi, Array.getElem?_eq_getElem hi]

theorem valueAt_of_prefix (v : Valuation) (h : g.toList <+: g'.toList)
    (hi : i < g.size) : g'.valueAt v i = g.valueAt v i := by
  obtain ⟨rest, hrest⟩ := h
  -- The nodes behind `g` are added one by one.
  induction rest generalizing g with
  | nil =>
    rw [List.append_nil] at hrest
    rw [Array.toList_inj.1 hrest]
  | cons n rest ih =>
    have hpush : (g.push n).toList ++ rest = g'.toList := by
      rw [← hrest, Array.toList_push, List.append_assoc, List.singleton_append]
    have hlt : i < (g.push n).size := by rw [Array.size_push]; omega
    rw [ih hlt hpush, valueAt_push_of_lt g n v hi]

theorem size_le_of_prefix (h : g.toList <+: g'.toList) : g.size ≤ g'.size := by
  have hlen := h.length_le
  rwa [Array.length_toList, Array.length_toList] at hlen

theorem getElem?_of_prefix {n : Node} (h : g.toList <+: g'.toList)
    (hi : g[i]? = some n) : g'[i]? = some n := by
  obtain ⟨rest, hrest⟩ := h
  rw [← Array.getElem?_toList] at hi ⊢
  rw [← hrest, List.getElem?_append_left (List.getElem?_eq_some_iff.1 hi).1]
  exact hi

end Graph

def Value.isTruth : Value → Bool
  | .bool _ => true
  | .int _ => false

@[simp] theorem Value.isTruth_bool (b : Bool) : (Value.bool b).isTruth = true := rfl

@[simp] theorem Value.isTruth_int (n : Int) : (Value.int n).isTruth = false := rfl

@[simp] theorem Value.int_beq_int (m n : Int) : (Value.int m == .int n) = decide (m = n) := by
  rw [Bool.eq_iff_iff]
  simp

theorem Value.eq_bool_of_isTruth {x : Value} (h : x.isTruth = true) : x = .bool x.toBool := by
  cases x with
  | bool b => rfl
  | int n => simp at h

theorem Value.eq_int_of_isTruth {x : Value} (h : x.isTruth = false) : x = .int x.toInt := by
  cases x with
  | bool b => simp at h
  | int n => rfl

/-- The value of a choice: if one of the two is an integer, both count as integers. -/
def Value.choose (c : Bool) (yes no : Value) : Value :=
  if yes.isTruth && no.isTruth then if c then yes else no
  else .int (if c then yes.toInt else no.toInt)

/-- A term is a node of a graph that has a value, and its kind says whether that is a truth value. -/
structure Term.HasValue (v : Valuation) (g : Graph) (t : Term) (x : Value) : Prop where
  lt : t.node < g.size
  value : g.valueAt v t.node = x
  kind : t.kind = .bool ↔ x.isTruth = true

namespace Term.HasValue

variable {v : Valuation} {g g' : Graph} {t : Term} {x : Value}

theorem of_prefix (h : t.HasValue v g x) (hg : g.toList <+: g'.toList) : t.HasValue v g' x where
  lt := Nat.lt_of_lt_of_le h.lt (Graph.size_le_of_prefix hg)
  value := by rw [Graph.valueAt_of_prefix v hg h.lt, h.value]
  kind := h.kind

theorem isTruth_eq_false (h : t.HasValue v g x) (hk : t.kind ≠ .bool) : x.isTruth = false := by
  rw [← Bool.not_eq_true, ← h.kind]
  exact hk

end Term.HasValue

namespace Build

/-- Building a term from a graph gives it a value and only adds to the graph. -/
structure Gives (v : Valuation) (g : Graph) (b : Build Term) (x : Value) : Prop where
  hasValue : (b.run g).1.HasValue v (b.run g).2 x
  grows : g.toList <+: (b.run g).2.toList

variable {v : Valuation} {g : Graph} {t : Term} {x : Value}

theorem pure_gives (h : t.HasValue v g x) : Gives v g (pure t) x :=
  ⟨h, List.prefix_refl _⟩

/-- Terms are built one after the other: what the first one gives is still there for the second. -/
theorem Gives.bind {b : Build Term} {f : Term → Build Term} {y : Value} (hb : Gives v g b x)
    (hf : ∀ t g', t.HasValue v g' x → g.toList <+: g'.toList → Gives v g' (f t) y) :
    Gives v g (b >>= f) y := by
  have h := hf _ _ hb.hasValue hb.grows
  exact ⟨h.hasValue, hb.grows.trans h.grows⟩

theorem node_gives (n : Node) (kind : Kind) (hx : n.value v (g.values v) = x)
    (hk : kind = .bool ↔ x.isTruth = true) : Gives v g (node n kind) x where
  hasValue := by
    refine ⟨?_, ?_, hk⟩
    · show g.size < (g.push n).size
      rw [Array.size_push]
      omega
    · show Graph.valueAt (g.push n) v g.size = x
      rw [Graph.valueAt_push_size, hx]
  grows := by
    show g.toList <+: (g.push n).toList
    rw [Array.toList_push]
    exact List.prefix_append _ _

theorem numeral_gives (n : Int) : Gives v g (numeral n) (.int n) :=
  node_gives _ _ rfl (by simp)

theorem truth_gives (b : Bool) : Gives v g (truth b) (.bool b) :=
  node_gives _ _ rfl (by simp)

theorem var_gives (name : String) : Gives v g (var name) (.int (v.named name)) :=
  node_gives _ _ rfl (by simp)

theorem app_gives (op : Op) (kind : Kind) (args : List Term)
    (hx : op.apply v (args.map fun t => g.valueAt v t.node) = x)
    (hk : kind = .bool ↔ x.isTruth = true) : Gives v g (app op kind args) x := by
  apply node_gives _ _ _ hk
  rw [← hx]
  simp only [Node.value, List.map_map, Graph.valueAt, Function.comp_def]

theorem app_pair_gives {a b : Term} {y z : Value} (op : Op) (kind : Kind)
    (ha : a.HasValue v g x) (hb : b.HasValue v g y) (hop : op.apply v [x, y] = z)
    (hk : kind = .bool ↔ z.isTruth = true) : Gives v g (app op kind [a, b]) z := by
  apply app_gives _ _ _ _ hk
  simpa only [List.map_cons, List.map_nil, ha.value, hb.value] using hop

theorem asInt_gives (h : t.HasValue v g x) : Gives v g (asInt t) (.int x.toInt) := by
  unfold asInt
  cases hk : t.kind with
  | bool =>
    obtain ⟨b, rfl⟩ : ∃ b, x = .bool b := ⟨_, Value.eq_bool_of_isTruth (h.kind.1 hk)⟩
    refine (numeral_gives 1).bind fun one g₁ h₁ hg₁ => ?_
    refine (numeral_gives 0).bind fun zero g₂ h₂ hg₂ => ?_
    apply app_gives
    · simp only [List.map_cons, List.map_nil, (h.of_prefix (hg₁.trans hg₂)).value,
        (h₁.of_prefix hg₂).value, h₂.value]
      cases b <;> rfl
    · simp
  | int =>
    have hx := Value.eq_int_of_isTruth (h.isTruth_eq_false (by simp [hk]))
    rw [← hx]
    exact pure_gives h
  | numeral =>
    have hx := Value.eq_int_of_isTruth (h.isTruth_eq_false (by simp [hk]))
    rw [← hx]
    exact pure_gives h

theorem asBool_gives (h : t.HasValue v g x) : Gives v g (asBool t) (.bool x.toBool) := by
  unfold asBool
  by_cases hk : t.kind = .bool
  · rw [hk, ← Value.eq_bool_of_isTruth (h.kind.1 hk)]
    exact pure_gives h
  · have hx := Value.eq_int_of_isTruth (h.isTruth_eq_false hk)
    have hgt : Gives v g (do let zero ← numeral 0; app .gt .bool [t, zero])
        (.bool x.toBool) := by
      refine (numeral_gives 0).bind fun zero g₁ h₁ hg₁ => ?_
      refine app_pair_gives .gt .bool (h.of_prefix hg₁) h₁ ?_ (by simp)
      rw [hx]
      rfl
    cases hk' : t.kind with
    | bool => exact absurd hk' hk
    | int => exact hgt
    | numeral => exact hgt

theorem compare_gives {op turned : Op} {a b : Term} {m n : Int} {r : Bool}
    (ha : a.HasValue v g (.int m)) (hb : b.HasValue v g (.int n))
    (hop : op.apply v [.int m, .int n] = .bool r)
    (hturned : turned.apply v [.int n, .int m] = .bool r) :
    Gives v g (compare op turned a b) (.bool r) := by
  unfold compare
  split
  · exact app_pair_gives turned .bool hb ha hturned (by simp)
  · exact app_pair_gives op .bool ha hb hop (by simp)

theorem choose_gives {condition yes no : Term} {c : Bool} {y n : Value}
    (hc : condition.HasValue v g (.bool c)) (hy : yes.HasValue v g y) (hn : no.HasValue v g n) :
    Gives v g (choose condition yes no) (Value.choose c y n) := by
  unfold choose Value.choose
  by_cases hk : yes.kind = .bool ∧ no.kind = .bool
  · have hyt := hy.kind.1 hk.1
    have hnt := hn.kind.1 hk.2
    rw [if_pos hk, hyt, hnt]
    apply app_gives
    · simp only [List.map_cons, List.map_nil, hc.value, hy.value, hn.value]
      cases c <;> rfl
    · cases c <;> simp [hyt, hnt]
  · have hneg : (y.isTruth && n.isTruth) = false := by
      rw [← Bool.not_eq_true, Bool.and_eq_true, ← hy.kind, ← hn.kind]
      exact hk
    rw [if_neg hk, hneg]
    refine (asInt_gives hy).bind fun yes' g₁ h₁ hg₁ => ?_
    refine (asInt_gives (hn.of_prefix hg₁)).bind fun no' g₂ h₂ hg₂ => ?_
    apply app_gives
    · simp only [List.map_cons, List.map_nil, (hc.of_prefix (hg₁.trans hg₂)).value,
        (h₁.of_prefix hg₂).value, h₂.value]
      cases c <;> rfl
    · simp

end Build

end SwitchSynth.Formula
