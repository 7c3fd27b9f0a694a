import Mathlib.Data.List.Forall2
import SwitchSynth.Error

/-!
# Computations that end without an error

A computation with a state may stop at an error. `Ends` says that it does not, and which result and which
state it ends with; `Stops` says at which error it does. A computation made of parts ends if its parts do, one
after the other, so that the statement about the whole is taken apart by rewriting.
-/

namespace SwitchSynth

abbrev Computation (σ : Type) := ExceptT Error (StateM σ)

/-- A computation with surroundings that it may read. -/
abbrev ComputationIn (ρ σ : Type) := ReaderT ρ (Computation σ)

variable {σ α β : Type} {s s' : σ} {a : α} {b : β} {e : Error} {m : Computation σ α} {f : α → Computation σ β}

theorem run_bind (m : Computation σ α) (f : α → Computation σ β) (s : σ) :
    (m >>= f).run.run s =
      match m.run.run s with
      | (.ok a, s₁) => (f a).run.run s₁
      | (.error e, s₁) => (.error e, s₁) := by
  rw [ExceptT.run_bind, StateT.run_bind]
  rcases m.run.run s with ⟨_ | a, s₁⟩ <;> rfl

def Ends (m : Computation σ α) (s : σ) (a : α) (s' : σ) : Prop :=
  m.run.run s = (.ok a, s')

@[simp] theorem ends_pure {b : α} : Ends (pure a : Computation σ α) s b s' ↔ b = a ∧ s' = s := by
  show ((.ok a, s) : Except Error α × σ) = (.ok b, s') ↔ _
  simp only [Prod.mk.injEq, Except.ok.injEq, eq_comm]

@[simp] theorem ends_throw : ¬ Ends (throw e : Computation σ α) s a s' :=
  fun h => nomatch (congrArg Prod.fst h : (Except.error e : Except Error α) = .ok a)

@[simp] theorem ends_bind : Ends (m >>= f) s b s' ↔ ∃ a s₁, Ends m s a s₁ ∧ Ends (f a) s₁ b s' := by
  unfold Ends
  rw [run_bind]
  rcases m.run.run s with ⟨_ | a, s₁⟩
  · -- Where the first part stops, the whole stops at the same error.
    exact ⟨fun h => (nomatch h), fun ⟨_, _, h, _⟩ => (nomatch h)⟩
  · refine ⟨fun h => ⟨a, s₁, rfl, h⟩, ?_⟩
    rintro ⟨a', s₂, ⟨⟩, h⟩
    exact h

theorem Ends.run_bind (h : Ends m s a s') : (m >>= f).run.run s = (f a).run.run s' := by
  rw [SwitchSynth.run_bind, show m.run.run s = _ from h]

@[simp] theorem ends_get {t : σ} : Ends (get : Computation σ σ) s t s' ↔ t = s ∧ s' = s :=
  ends_pure

@[simp] theorem ends_set {t : σ} {u : PUnit} : Ends (set t : Computation σ PUnit) s u s' ↔ s' = t := by
  show ((.ok PUnit.unit, t) : Except Error PUnit × σ) = (.ok u, s') ↔ _
  simp only [Prod.mk.injEq, true_and]
  exact eq_comm

@[simp] theorem ends_modify {k : σ → σ} {u : PUnit} : Ends (modify k : Computation σ PUnit) s u s' ↔ s' = k s :=
  ends_set (s := s)

/-! ### Computations that stop at an error -/

def Stops (m : Computation σ α) (s : σ) (e : Error) (s' : σ) : Prop :=
  m.run.run s = (.error e, s')

theorem ends_or_stops (m : Computation σ α) (s : σ) : (∃ a s', Ends m s a s') ∨ ∃ e s', Stops m s e s' := by
  unfold Ends Stops
  rcases m.run.run s with ⟨e | a, s'⟩
  · exact .inr ⟨e, s', rfl⟩
  · exact .inl ⟨a, s', rfl⟩

theorem Ends.unique {b : α} {s₁ s₂ : σ} (h : Ends m s a s₁) (h' : Ends m s b s₂) : b = a ∧ s₂ = s₁ := by
  cases (show m.run.run s = _ from h).symm.trans h'
  exact ⟨rfl, rfl⟩

theorem Ends.not_stops {s₁ s₂ : σ} (h : Ends m s a s₁) : ¬ Stops m s e s₂ :=
  fun h' => nomatch (show m.run.run s = _ from h).symm.trans h'

@[simp] theorem stops_pure : ¬ Stops (pure a : Computation σ α) s e s' :=
  fun h => nomatch (congrArg Prod.fst h : (Except.ok a : Except Error α) = .error e)

@[simp] theorem stops_throw {e' : Error} : Stops (throw e : Computation σ α) s e' s' ↔ e' = e ∧ s' = s := by
  show ((.error e, s) : Except Error α × σ) = (.error e', s') ↔ _
  simp only [Prod.mk.injEq, Except.error.injEq, eq_comm]

/-- What is made of two parts stops in the first one, or in the second one after the first has ended. -/
@[simp] theorem stops_bind :
    Stops (m >>= f) s e s' ↔ Stops m s e s' ∨ ∃ a s₁, Ends m s a s₁ ∧ Stops (f a) s₁ e s' := by
  unfold Stops Ends
  rw [run_bind]
  rcases m.run.run s with ⟨_ | a, s₁⟩
  · constructor
    · rintro ⟨⟩
      exact .inl rfl
    · rintro (⟨⟨⟩⟩ | ⟨_, _, ⟨⟩, -⟩)
      rfl
  · refine ⟨fun h => .inr ⟨a, s₁, rfl, h⟩, ?_⟩
    rintro (⟨⟨⟩⟩ | ⟨a', s₂, ⟨⟩, h⟩)
    exact h

theorem Stops.run_bind (h : Stops m s e s') : (m >>= f).run.run s = (.error e, s') := by
  rw [SwitchSynth.run_bind, show m.run.run s = _ from h]

@[simp] theorem stops_get : ¬ Stops (get : Computation σ σ) s e s' :=
  stops_pure

@[simp] theorem stops_modify {k : σ → σ} : ¬ Stops (modify k : Computation σ PUnit) s e s' :=
  fun h => nomatch (congrArg Prod.fst h : (Except.ok PUnit.unit : Except Error PUnit) = .error e)

/-! ### Computations with surroundings -/

section Reader

variable {ρ : Type} {r : ρ} {m : ComputationIn ρ σ α} {f : α → ComputationIn ρ σ β}

/-- In surroundings that it may read, a computation ends with a result and a state. -/
def EndsIn (m : ComputationIn ρ σ α) (r : ρ) (s : σ) (a : α) (s' : σ) : Prop :=
  Ends (m.run r) s a s'

@[simp] theorem endsIn_pure {b : α} : EndsIn (pure a : ComputationIn ρ σ α) r s b s' ↔ b = a ∧ s' = s :=
  ends_pure

@[simp] theorem endsIn_throw : ¬ EndsIn (throw e : ComputationIn ρ σ α) r s a s' :=
  ends_throw

@[simp] theorem endsIn_bind : EndsIn (m >>= f) r s b s' ↔ ∃ a s₁, EndsIn m r s a s₁ ∧ EndsIn (f a) r s₁ b s' :=
  ends_bind

@[simp] theorem endsIn_get {t : σ} : EndsIn (get : ComputationIn ρ σ σ) r s t s' ↔ t = s ∧ s' = s :=
  ends_get

@[simp] theorem endsIn_set {t : σ} {u : PUnit} : EndsIn (set t : ComputationIn ρ σ PUnit) r s u s' ↔ s' = t :=
  ends_set (s := s)

@[simp] theorem endsIn_modify {k : σ → σ} {u : PUnit} :
    EndsIn (modify k : ComputationIn ρ σ PUnit) r s u s' ↔ s' = k s :=
  ends_modify

@[simp] theorem endsIn_read {q : ρ} : EndsIn (read : ComputationIn ρ σ ρ) r s q s' ↔ q = r ∧ s' = s :=
  ends_pure

/-- Whether a computation has ended, with a result and a state that pass a test. -/
def endsWith (test : α → σ → Bool) : Except Error α × σ → Bool
  | (.ok a, s) => test a s
  | (.error _, _) => false

/-- A computation that was seen to end with a result that passes a test. -/
theorem exists_endsIn (test : α → σ → Bool) (h : endsWith test ((m.run r).run.run s) = true) :
    ∃ a s', EndsIn m r s a s' ∧ test a s' = true := by
  generalize hrun : (m.run r).run.run s = run at h
  obtain ⟨result, s'⟩ := run
  cases result with
  | error e => exact nomatch h
  | ok a => exact ⟨a, s', hrun, h⟩

/-- In surroundings that it may read, a computation stops at an error, with the state it has reached. -/
def StopsIn (m : ComputationIn ρ σ α) (r : ρ) (s : σ) (e : Error) (s' : σ) : Prop :=
  Stops (m.run r) s e s'

@[simp] theorem stopsIn_pure : ¬ StopsIn (pure a : ComputationIn ρ σ α) r s e s' :=
  stops_pure

@[simp] theorem stopsIn_throw {e' : Error} :
    StopsIn (throw e : ComputationIn ρ σ α) r s e' s' ↔ e' = e ∧ s' = s :=
  stops_throw

@[simp] theorem stopsIn_bind :
    StopsIn (m >>= f) r s e s' ↔ StopsIn m r s e s' ∨ ∃ a s₁, EndsIn m r s a s₁ ∧ StopsIn (f a) r s₁ e s' :=
  stops_bind

@[simp] theorem stopsIn_get : ¬ StopsIn (get : ComputationIn ρ σ σ) r s e s' :=
  stops_get

@[simp] theorem stopsIn_modify {k : σ → σ} : ¬ StopsIn (modify k : ComputationIn ρ σ PUnit) r s e s' :=
  stops_modify

@[simp] theorem stopsIn_read : ¬ StopsIn (read : ComputationIn ρ σ ρ) r s e s' :=
  stops_pure

end Reader

/-! ### What every computation does to the state -/

/-- A relation between states that holds along any number of steps. -/
structure Lasting (R : σ → σ → Prop) : Prop where
  refl : ∀ s, R s s
  trans : ∀ {s t u}, R s t → R t u → R s u

/-- A computation leaves a state that is related to the one it found, whether it ends or stops at an
error. -/
def Moves (R : σ → σ → Prop) (m : Computation σ α) : Prop :=
  ∀ s, R s (m.run.run s).2

section Moves

variable {R : σ → σ → Prop}

theorem Moves.related (h : Moves R m) (hm : Ends m s a s') : R s s' := by
  have hR := h s
  rw [show m.run.run s = _ from hm] at hR
  exact hR

theorem Lasting.pure (hR : Lasting R) (a : α) : Moves R (Pure.pure a : Computation σ α) := hR.refl

theorem Lasting.throw (hR : Lasting R) (e : Error) : Moves R (MonadExcept.throw e : Computation σ α) := hR.refl

theorem Lasting.get (hR : Lasting R) : Moves R (MonadState.get : Computation σ σ) := hR.refl

theorem Lasting.bind (hR : Lasting R) (hm : Moves R m) (hf : ∀ a, Moves R (f a)) : Moves R (m >>= f) := by
  intro s
  have h := hm s
  rw [run_bind]
  generalize m.run.run s = first at h ⊢
  rcases first with ⟨_ | a, s₁⟩
  · exact h
  · exact hR.trans h (hf a s₁)

section Reader

variable {ρ γ : Type} {r : ρ} {xs : List γ} {ys : List α} {f : γ → ComputationIn ρ σ α}

theorem Lasting.bindIn (hR : Lasting R) {m : ComputationIn ρ σ α} {f : α → ComputationIn ρ σ β}
    (hm : Moves R (m.run r)) (hf : ∀ a, Moves R ((f a).run r)) : Moves R ((m >>= f).run r) :=
  hR.bind hm hf

theorem Lasting.mapMIn (hR : Lasting R) (xs : List γ) (hf : ∀ x, Moves R ((f x).run r)) :
    Moves R ((xs.mapM f).run r) := by
  induction xs with
  | nil => exact hR.pure []
  | cons x xs ih =>
    rw [List.mapM_cons]
    exact hR.bindIn (hf x) fun _ => hR.bindIn ih fun _ => hR.pure _

/-- A list of jobs relates the states before and after it if each job does where it ends, and each of them ends
somewhere on the way. -/
theorem Lasting.jobs_mapM (hR : Lasting R) (hf : ∀ x {s y s'}, EndsIn (f x) r s y s' → R s s')
    (h : EndsIn (xs.mapM f) r s ys s') :
    R s s' ∧ List.Forall₂ (fun x y => ∃ s₁ s₂, R s s₁ ∧ EndsIn (f x) r s₁ y s₂ ∧ R s₂ s') xs ys := by
  induction xs generalizing s ys with
  | nil =>
    rw [List.mapM_nil, endsIn_pure] at h
    obtain ⟨rfl, rfl⟩ := h
    exact ⟨hR.refl _, .nil⟩
  | cons x xs ih =>
    rw [List.mapM_cons] at h
    simp only [endsIn_bind, endsIn_pure] at h
    obtain ⟨y, s₁, hfirst, ys, s₂, hrest, rfl, rfl⟩ := h
    obtain ⟨hrelated, hjobs⟩ := ih hrest
    refine ⟨hR.trans (hf x hfirst) hrelated, .cons ⟨s, s₁, hR.refl s, hfirst, hrelated⟩ ?_⟩
    exact hjobs.imp fun _ _ ⟨s₃, s₄, hbefore, hjob, hafter⟩ =>
      ⟨s₃, s₄, hR.trans (hf x hfirst) hbefore, hjob, hafter⟩

theorem Lasting.forall₂_mapM (hR : Lasting R) (hf : ∀ x {s y s'}, EndsIn (f x) r s y s' → R s s')
    (h : EndsIn (xs.mapM f) r s ys s') :
    List.Forall₂ (fun x y => ∃ s₁ s₂, R s s₁ ∧ EndsIn (f x) r s₁ y s₂ ∧ R s₂ s') xs ys :=
  (hR.jobs_mapM hf h).2

theorem getElem?_of_forall₂ {Q : γ → α → Prop} (h : List.Forall₂ Q xs ys) {k : Nat} {x : γ} (hx : xs[k]? = some x) :
    ∃ y, ys[k]? = some y ∧ Q x y := by
  induction h generalizing k with
  | nil => exact nomatch hx
  | @cons x₀ y₀ xs ys hfirst _ ih =>
    cases k with
    | zero =>
      obtain rfl : x₀ = x := by simpa using hx
      exact ⟨y₀, rfl, hfirst⟩
    | succ k => simpa using ih (by simpa using hx)

theorem Lasting.endsIn_mapM (hR : Lasting R) (hf : ∀ x {s y s'}, EndsIn (f x) r s y s' → R s s')
    (h : EndsIn (xs.mapM f) r s ys s') {k : Nat} {x : γ} (hx : xs[k]? = some x) :
    ∃ y s₁ s₂, ys[k]? = some y ∧ R s s₁ ∧ EndsIn (f x) r s₁ y s₂ ∧ R s₂ s' := by
  obtain ⟨y, hy, s₁, s₂, hbefore, hjob, hafter⟩ := getElem?_of_forall₂ (hR.forall₂_mapM hf h) hx
  exact ⟨y, s₁, s₂, hy, hbefore, hjob, hafter⟩

theorem moves_get_bind {f : σ → ComputationIn ρ σ α} (hf : ∀ s, R s (((f s).run r).run.run s).2) :
    Moves R ((MonadState.get >>= f : ComputationIn ρ σ α).run r) := hf

theorem moves_modify {k : σ → σ} (hk : ∀ s, R s (k s)) : Moves R (modify k : Computation σ PUnit) := hk

end Reader

end Moves

/-! ### Two runs of one computation -/

section TwoRuns

variable {R : σ → σ → Prop}

/-- From states that go together, a computation has the same outcome and leaves states that go together, whether it
ends or stops at an error. -/
def Steady (R : σ → σ → Prop) (m : Computation σ α) : Prop :=
  ∀ s t, R s t → (m.run.run s).1 = (m.run.run t).1 ∧ R (m.run.run s).2 (m.run.run t).2

theorem steady_pure (a : α) : Steady R (pure a : Computation σ α) :=
  fun _ _ h => ⟨rfl, h⟩

theorem steady_throw (e : Error) : Steady R (throw e : Computation σ α) :=
  fun _ _ h => ⟨rfl, h⟩

theorem steady_modify {k : σ → σ} (hk : ∀ s t, R s t → R (k s) (k t)) :
    Steady R (modify k : Computation σ PUnit) :=
  fun s t h => ⟨rfl, hk s t h⟩

theorem Steady.bind (hm : Steady R m) (hf : ∀ a, Steady R (f a)) : Steady R (m >>= f) := by
  intro s t h
  obtain ⟨hresult, hstates⟩ := hm s t h
  rw [run_bind, run_bind]
  generalize m.run.run s = first at hresult hstates ⊢
  generalize m.run.run t = second at hresult hstates ⊢
  obtain ⟨result, s₁⟩ := first
  obtain ⟨_, t₁⟩ := second
  obtain rfl : result = _ := hresult
  cases result with
  | error e => exact ⟨rfl, hstates⟩
  | ok a => exact hf a s₁ t₁ hstates

section Reader

variable {ρ γ : Type} {r : ρ} {m : ComputationIn ρ σ α}

theorem Steady.bindIn {f : α → ComputationIn ρ σ β} (hm : Steady R (m.run r)) (hf : ∀ a, Steady R ((f a).run r)) :
    Steady R ((m >>= f).run r) :=
  hm.bind hf

/-- What follows a look at the state may depend on what the states have in common. -/
theorem steady_get_bind {f : σ → ComputationIn ρ σ α} (hsame : ∀ s t, R s t → f t = f s)
    (hf : ∀ s t, R s t → Steady R ((f s).run r)) : Steady R ((MonadState.get >>= f : ComputationIn ρ σ α).run r) := by
  intro s t h
  show (((f s).run r).run.run s).1 = (((f t).run r).run.run t).1 ∧
    R (((f s).run r).run.run s).2 (((f t).run r).run.run t).2
  rw [hsame s t h]
  exact hf s t h s t h

/-- A check that is made first. -/
theorem steady_check {c : Prop} [Decidable c] (hm : Steady R (m.run r)) :
    Steady R (ReaderT.run (if c then (throw e : ComputationIn ρ σ PUnit) >>= fun _ => m else m) r) := by
  split
  · exact Steady.bindIn (m := (throw e : ComputationIn ρ σ PUnit)) (steady_throw e) fun _ => hm
  · exact hm

theorem steady_mapMIn (xs : List γ) {f : γ → ComputationIn ρ σ α} (hf : ∀ x ∈ xs, Steady R ((f x).run r)) :
    Steady R ((xs.mapM f).run r) := by
  induction xs with
  | nil => exact steady_pure []
  | cons x xs ih =>
    rw [List.mapM_cons]
    exact (hf x List.mem_cons_self).bindIn fun _ =>
      (ih fun y hy => hf y (List.mem_cons_of_mem x hy)).bindIn fun _ => steady_pure _

theorem steady_forMIn (xs : List γ) {f : γ → ComputationIn ρ σ PUnit} (hf : ∀ x, Steady R ((f x).run r)) :
    Steady R ((xs.forM f).run r) := by
  induction xs with
  | nil => exact steady_pure PUnit.unit
  | cons x xs ih => exact (hf x).bindIn fun _ => ih

end Reader

end TwoRuns

end SwitchSynth
