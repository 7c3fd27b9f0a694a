import SwitchSynth.Formula.Solver
import SwitchSynth.Proofs.Formula.Evaluation

/-!
# The negated body of a formula

In the body of a formula the last name has number zero, so names and numbers run in opposite directions. Opening
the body gives every bound variable its own name back: an opened node has, for values of the names, the value that
the node has if each bound variable has the value of its name (`opening_opens`). What a solver says of the negated
body therefore decides the formula.
-/

namespace SwitchSynth.Formula

/-- A node refers to earlier nodes and to variables that a quantifier binds. -/
def Node.Within (size count : Nat) : Node → Prop
  | .numeral _ | .truth _ => True
  | .var _ => False
  | .bound i => i < count
  | .app _ arguments => ∀ i ∈ arguments, i < size

instance (size count : Nat) : DecidablePred (Node.Within size count)
  | .numeral _ | .truth _ => .isTrue trivial
  | .var _ => .isFalse id
  | .bound i => inferInstanceAs (Decidable (i < count))
  | .app _ arguments => inferInstanceAs (Decidable (∀ i ∈ arguments, _))

/-- A formula about all values of distinct names that has no other variables. Its body is a truth value. -/
structure Quantified.Closed (f : Quantified) : Prop where
  universal : f.universal = true
  nodup : f.names.Nodup
  within : ∀ i : Fin f.graph.size, f.graph[i].Within i f.names.length
  body_lt : f.body < f.graph.size
  isTruth : ∀ v : Valuation, (f.graph.valueAt v f.body).isTruth = true

/-! ### Opening a body -/

section Opening

variable {names : List String} {w u : Valuation} {g : Graph} {o : Opening} {n n' : Node} {op : Op}
  {args : List Nat} {i : Nat}

/-- Names have the values that the variables bound under them have, and operations mean the same. -/
structure Names (names : List String) (w u : Valuation) : Prop where
  bound : ∀ i name, names.reverse[i]? = some name → w.named name = u.bound i
  apply : ∀ op values, Op.apply w op values = Op.apply u op values

theorem names_binding (names : List String) (v : Valuation) (σ : String → Int) :
    Names names { v with named := σ } (v.binding (names.map σ)) where
  bound i name h := by simp [Valuation.binding, ← List.map_reverse, h]
  apply op values := by
    unfold Op.apply
    rfl

/-- A body and what it is opened to: the image of each node has the value of the node. -/
structure Opens (w u : Valuation) (g : Graph) (o : Opening) : Prop where
  size : o.graph.size = g.size
  images : o.images.size = g.size
  value : ∀ i < g.size, ∃ j < g.size, o.images[i]? = some j ∧ o.graph.valueAt w j = g.valueAt u i

theorem valueAt_truth {b : Bool} (h : g[i]? = some (.truth b)) : g.valueAt w i = .bool b := by
  obtain ⟨hi, hget⟩ := Array.getElem?_eq_some_iff.1 h
  have hsize : (g.extract 0 i).size = i := by simp; omega
  have hgrows : ((g.extract 0 i).push (.truth b)).toList <+: g.toList := by
    simpa [← hget] using List.take_prefix (i + 1) g.toList
  rw [Graph.valueAt_of_prefix w hgrows (by simp; omega)]
  have hlast := Graph.valueAt_push_size (g.extract 0 i) (.truth b) w
  rwa [hsize] at hlast

/-- A choice that is settled has the value of what it comes down to. -/
theorem apply_settled (h : settled g op args = some i) :
    i ∈ args ∧ op.apply w (args.map (g.valueAt w)) = g.valueAt w i := by
  unfold settled at h
  split at h
  · split at h
    · rename_i hc
      cases h
      simp [Op.apply, valueAt_truth hc, Value.toBool]
    · rename_i hc
      cases h
      simp [Op.apply, valueAt_truth hc, Value.toBool]
    · exact nomatch h
  · exact nomatch h

theorem Opens.push (h : Opens w u g o) (closed : Array Bool) (hi : i ≤ g.size)
    (hvalue : Graph.valueAt (o.graph.push n') w i = n.value u (g.values u)) :
    Opens w u (g.push n) ⟨o.graph.push n', o.images.push i, closed⟩ where
  size := by simp [h.size]
  images := by simp [h.images]
  value k hk := by
    rw [Array.size_push] at hk ⊢
    by_cases hlast : k = g.size
    · refine ⟨i, by omega, by rw [hlast, ← h.images, Array.getElem?_push_size], ?_⟩
      rw [hlast, Graph.valueAt_push_size, hvalue]
    · obtain ⟨j, hj, himage, hj'⟩ := h.value k (by omega)
      refine ⟨j, by omega, ?_, ?_⟩
      · rwa [Array.getElem?_push_lt (by rw [h.images]; omega), ← Array.getElem?_eq_getElem]
      · rw [Graph.valueAt_push_of_lt _ _ _ (h.size ▸ hj), Graph.valueAt_push_of_lt _ _ _ (by omega), hj']

/-- What an operation refers to has the same values in an opened body. -/
theorem Opens.map_images (h : Opens w u g o) (hlt : ∀ i ∈ args, i < g.size) :
    (args.map (o.images.getD · 0)).map (o.graph.valueAt w) = args.map (g.valueAt u) ∧
      ∀ j ∈ args.map (o.images.getD · 0), j < g.size := by
  have hgetD : ∀ i ∈ args, o.images.getD i 0 < g.size ∧
      o.graph.valueAt w (o.images.getD i 0) = g.valueAt u i := by
    intro i hi
    obtain ⟨j, hj, himage, hvalue⟩ := h.value i (hlt i hi)
    rw [Array.getD_eq_getD_getElem?, himage]
    exact ⟨hj, hvalue⟩
  rw [List.map_map, List.forall_mem_map]
  exact ⟨List.map_congr_left fun i hi => (hgetD i hi).2, fun i hi => (hgetD i hi).1⟩

theorem Opens.next (hnames : Names names w u) (h : Opens w u g o) (hn : n.Within g.size names.length) :
    Opens w u (g.push n) (o.next names n) := by
  have hown (n' : Node) := Graph.valueAt_push_size o.graph n' w
  cases n with
  | numeral m => exact h.push _ (Nat.le_of_eq h.size) (hown _)
  | truth b => exact h.push _ (Nat.le_of_eq h.size) (hown _)
  | var name => exact hn.elim
  | bound i =>
    obtain ⟨name, hname⟩ : ∃ name, names.reverse[i]? = some name :=
      ⟨_, List.getElem?_eq_getElem (by rw [List.length_reverse]; exact hn)⟩
    refine h.push _ (Nat.le_of_eq h.size) ((hown _).trans ?_)
    simp only [Node.free, hname, Node.value, hnames.bound i name hname]
  | app op args =>
    obtain ⟨hvalues, hlt⟩ := h.map_images hn
    have happly : op.apply w ((args.map (o.images.getD · 0)).map (o.graph.valueAt w)) =
        (Node.app op args).value u (g.values u) := by
      rw [hvalues, hnames.apply]
      rfl
    -- The image is the node itself or what a settled choice comes down to.
    have himage : ∀ j, j = o.graph.size ∨ settled o.graph op (args.map (o.images.getD · 0)) = some j →
        j ≤ g.size ∧ Graph.valueAt (o.graph.push (.app op (args.map (o.images.getD · 0)))) w j =
          (Node.app op args).value u (g.values u) := by
      rintro j (rfl | hsettled)
      · refine ⟨Nat.le_of_eq h.size, (hown _).trans (.trans ?_ happly)⟩
        simp only [Node.value, List.map_map, Graph.valueAt, Function.comp_def]
      · obtain ⟨hmem, hsame⟩ := apply_settled (w := w) hsettled
        have hj := hlt j hmem
        exact ⟨Nat.le_of_lt hj, (Graph.valueAt_push_of_lt _ _ _ (h.size ▸ hj)).trans (hsame.symm.trans happly)⟩
    obtain ⟨hj, hvalue⟩ := himage (if args.all fun i => o.closed.getD i true then o.graph.size else
      (settled o.graph op (args.map (o.images.getD · 0))).getD o.graph.size) (by
        split
        · exact .inl rfl
        · cases settled o.graph op (args.map (o.images.getD · 0)) with
          | none => exact .inl rfl
          | some j => exact .inr rfl)
    exact h.push _ hj hvalue

theorem opening_opens {f : Quantified} (h : f.Closed) (hnames : Names f.names w u) :
    Opens w u f.graph f.opening := by
  have hall : Opens w u (f.graph.extract 0 f.graph.size) f.opening :=
    Array.foldl_induction (fun i o => Opens w u (f.graph.extract 0 i) o) ⟨by simp, by simp, by simp⟩ fun i o ho => by
      have hsize : (f.graph.extract 0 i).size = i := by simp
      have hnext := ho.next hnames (n := f.graph[i]) (by rw [hsize]; exact h.within i)
      rwa [Fin.getElem_fin, Array.push_extract_getElem (by omega)] at hnext
  rwa [Array.extract_size] at hall

end Opening

/-! ### What a solver says -/

/-- Values that a solver has found. Names that it does not mention have the value zero. -/
def modelValues (model : List (String × Int)) (name : String) : Int :=
  (model.lookup name).getD 0

/-- A verdict is right about values of the names: those that it gives are such, or there are none. -/
def Verdict.Right (P : (String → Int) → Prop) : Verdict → Prop
  | .sat model => P (modelValues model)
  | .unsat => ∀ σ, ¬ P σ
  | .unknown => False

theorem Verdict.Right.sat_iff {P : (String → Int) → Prop} {verdict : Verdict} (h : verdict.Right P) :
    (∃ model, verdict = .sat model) ↔ ∃ σ, P σ := by
  cases verdict with
  | sat model => exact ⟨fun _ => ⟨_, h⟩, fun _ => ⟨model, rfl⟩⟩
  | unsat => exact ⟨nofun, fun ⟨σ, hσ⟩ => absurd hσ (h σ)⟩
  | unknown => exact h.elim

namespace Quantified

/-- The negated body is true for values of the names. -/
def Refutes (f : Quantified) (v : Valuation) (σ : String → Int) : Prop :=
  f.negatedBody.valueAt { v with named := σ } (f.negatedBody.size - 1) = .bool true

variable {f : Quantified}

theorem refutes_iff (h : f.Closed) (v : Valuation) (σ : String → Int) :
    f.Refutes v σ ↔ f.graph.valueAt (v.binding (f.names.map σ)) f.body = .bool false := by
  obtain ⟨j, hj, himage, hvalue⟩ := (opening_opens h (names_binding f.names v σ)).value f.body h.body_lt
  have hbody : f.openBody = j := by
    rw [openBody, Array.getD_eq_getD_getElem?, himage]
    rfl
  have hlast : f.negatedBody.valueAt { v with named := σ } (f.negatedBody.size - 1) =
      .bool (!(f.graph.valueAt (v.binding (f.names.map σ)) f.body).toBool) := by
    rw [← hvalue, ← hbody, negatedBody, Array.size_push, Nat.add_sub_cancel, Graph.valueAt_push_size]
    rfl
  rw [Refutes, hlast, Value.eq_bool_of_isTruth (h.isTruth _)]
  simp [Value.toBool]

/-- Values of the bound variables are values of the names, because the names are distinct. -/
theorem exists_values (h : f.Closed) {xs : List Int} (hlength : xs.length = f.names.length) :
    ∃ σ : String → Int, f.names.map σ = xs := by
  refine ⟨fun s => xs.getD (f.names.idxOf s) 0, List.ext_getElem (by simp [hlength]) fun i hi hi' => ?_⟩
  simp [h.nodup.idxOf_getElem, List.getElem?_eq_getElem hi']

theorem holds_iff (h : f.Closed) (v : Valuation) : f.Holds v ↔ ¬ ∃ σ, f.Refutes v σ := by
  simp only [Holds, h.universal, if_true, not_exists, refutes_iff h]
  constructor
  · intro hall σ hfalse
    have htrue := hall (f.names.map σ) (by simp)
    rw [hfalse] at htrue
    exact nomatch htrue
  · intro hnone xs hlength
    obtain ⟨σ, rfl⟩ := exists_values h hlength
    have hbool := Value.eq_bool_of_isTruth (h.isTruth (v.binding (f.names.map σ)))
    cases hvalue : (f.graph.valueAt (v.binding (f.names.map σ)) f.body).toBool with
    | true => rw [hbool, hvalue]
    | false => exact absurd (by rw [hbool, hvalue]) (hnone σ)

/-- For all `c`, `a` and `b`, the last one is the greatest and the first one the least. -/
def increasing : Quantified where
  universal := true
  names := ["c", "a", "b"]
  graph := #[.bound 2, .bound 1, .bound 0, .app .gt [2, 1], .app .gt [1, 0], .app .and [3, 4]]
  body := 5

end Quantified

end SwitchSynth.Formula
