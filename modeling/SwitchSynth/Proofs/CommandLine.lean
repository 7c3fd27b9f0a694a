import SwitchSynth.CommandLine

/-!
# Command lines that are understood

An option that takes values takes at least one, so that a list that is given has a member.
-/

namespace SwitchSynth.CommandLine

theorem bind_eq_ok {α β : Type} {x : Except Error α} {f : α → Except Error β} {b : β} :
    (x >>= f) = .ok b ↔ ∃ a, x = .ok a ∧ f a = .ok b := by
  cases x with
  | error e => exact ⟨(nomatch ·), fun ⟨_, h, _⟩ => nomatch h⟩
  | ok a => exact ⟨fun h => ⟨a, rfl, h⟩, fun ⟨_, h, hf⟩ => Except.ok.inj h ▸ hf⟩

variable {p q : Parsed}

/-- Every option that has been understood so far and takes values has one. -/
def Parsed.Valued (p : Parsed) : Prop :=
  ∀ e ∈ p.values, e.2 ≠ []

theorem addPlace_values {text : String} (h : addPlace p text = .ok q) : q.values = p.values := by
  unfold addPlace at h
  split at h
  · obtain ⟨n, -, h⟩ := bind_eq_ok.1 h
    cases h
    rfl
  · cases h
    rfl

variable {items rest : List Item} {flag : Flag} {texts : List String}

theorem fillPlaces_values (h : fillPlaces p items = .ok (q, rest)) :
    q.values = p.values := by
  fun_induction fillPlaces p items with
  | case1 p text items _ ih =>
    obtain ⟨p', hplace, h⟩ := bind_eq_ok.1 h
    rw [← addPlace_values hplace]
    -- A divider behind the argument goes along with it.
    have ih := ih p'
    split at ih
    · exact ih h
    · next hdivider =>
      split at h
      · exact absurd rfl (hdivider _)
      · exact ih h
  | case2 =>
    cases h
    rfl
  | case3 p text items _ ih =>
    obtain ⟨p', hplace, h⟩ := bind_eq_ok.1 h
    rw [← addPlace_values hplace]
    exact ih p' h
  | case4 =>
    cases h
    rfl
  | case5 =>
    cases h
    rfl

theorem addSwitch_values (h : addSwitch p flag = .ok q) : q.values = p.values := by
  cases flag with
  | help => exact nomatch h
  | _ =>
    cases h
    rfl

theorem addSwitches_values {flags : List Flag} (h : flags.foldlM addSwitch p = .ok q) : q.values = p.values := by
  induction flags generalizing p with
  | nil =>
    cases h
    rfl
  | cons flag flags ih =>
    rw [List.foldlM_cons] at h
    obtain ⟨p', hflag, h⟩ := bind_eq_ok.1 h
    rw [ih h, addSwitch_values hflag]

theorem ne_nil_of_mapM {numbers : List Int} (htexts : texts ≠ [])
    (h : texts.mapM readNumber = .ok numbers) : numbers ≠ [] := by
  cases texts with
  | nil => exact absurd rfl htexts
  | cons text texts =>
    rw [List.mapM_cons] at h
    obtain ⟨n, -, h⟩ := bind_eq_ok.1 h
    obtain ⟨ns, -, h⟩ := bind_eq_ok.1 h
    cases h
    exact List.cons_ne_nil n ns

theorem addValues_valued (htexts : texts ≠ []) (hp : p.Valued)
    (h : addValues p flag texts = .ok q) : q.Valued := by
  obtain ⟨numbers, hnumbers, h⟩ := bind_eq_ok.1 h
  cases h
  intro e he
  rcases List.mem_append.1 he with he | he
  · exact hp e he
  · rw [List.mem_singleton.1 he]
    exact ne_nil_of_mapM htexts hnumbers

/-- An option takes a value that is joined to it, or all plain arguments behind it, of which there is one. -/
theorem takeOption_valued {joined : Bool} {value : Option String}
    (hp : p.Valued) (h : takeOption p flag joined value items = .ok (q, rest)) : q.Valued := by
  unfold takeOption at h
  split at h
  · obtain ⟨p', hvalues, h⟩ := bind_eq_ok.1 h
    cases h
    exact addValues_valued (List.cons_ne_nil _ _) hp hvalues
  · split at h
    · exact nomatch h
    · next hplain =>
      obtain ⟨p', hvalues, h⟩ := bind_eq_ok.1 h
      cases h
      exact addValues_valued hplain hp hvalues
  · obtain ⟨p', hswitch, h⟩ := bind_eq_ok.1 h
    cases h
    rw [Parsed.Valued, addSwitch_values hswitch]
    exact hp
  · split at h
    · obtain ⟨⟨flags, excess⟩, -, h⟩ := bind_eq_ok.1 h
      obtain ⟨p', hswitches, h⟩ := bind_eq_ok.1 h
      cases h
      show p'.Valued
      rw [Parsed.Valued, addSwitches_values hswitches]
      exact hp
    · exact nomatch h

theorem process_valued {fuel : Nat} (hp : p.Valued) (h : process p fuel items = .ok q) :
    q.Valued := by
  fun_induction process p fuel items with
  | case1 =>
    cases h
    exact hp
  | case2 =>
    cases h
    exact hp
  | case3 p fuel flag joined value items ih =>
    obtain ⟨⟨p', rest⟩, hoption, h⟩ := bind_eq_ok.1 h
    exact ih p' rest (takeOption_valued hp hoption) h
  | case4 p fuel items ih => exact ih hp h
  | case5 p fuel items _ _ _ ih₁ ih₂ =>
    obtain ⟨⟨p', rest⟩, hfill, h⟩ := bind_eq_ok.1 h
    have hvalues := fillPlaces_values hfill
    dsimp only at h
    -- Without a place that was filled, the argument has none.
    split at h
    · exact ih₁ rest hp h
    · refine ih₂ p' rest ?_ h
      rw [Parsed.Valued, hvalues]
      exact hp

theorem Parsed.Valued.valuesOf_ne (h : p.Valued) (flag : Flag) : p.valuesOf flag ≠ some [] := by
  intro hnil
  obtain ⟨before, after, hvalues, -⟩ := List.lookup_eq_some_iff.1 hnil
  have hmem : (flag, []) ∈ p.values.reverse := by
    rw [hvalues]
    exact List.mem_append_right _ List.mem_cons_self
  exact h _ (List.mem_reverse.1 hmem) rfl

/-- A list of packet fields or state groups that is given has a member. -/
theorem ne_nil_of_read {arguments : List String} {a : Arguments} (h : read arguments = .ok a) :
    a.outputFields ≠ some [] ∧ a.outputGroups ≠ some [] := by
  obtain ⟨items, -, h⟩ := bind_eq_ok.1 h
  obtain ⟨p, hprocess, h⟩ := bind_eq_ok.1 h
  have hvalued : p.Valued := process_valued (fun _ he => absurd he List.not_mem_nil) hprocess
  unfold Parsed.arguments at h
  dsimp only at h
  split at h
  · obtain ⟨_, hmistake, -⟩ := bind_eq_ok.1 h
    exact nomatch hmistake
  · split at h
    · obtain ⟨_, -, h⟩ := bind_eq_ok.1 h
      obtain ⟨_, -, h⟩ := bind_eq_ok.1 h
      obtain ⟨_, -, h⟩ := bind_eq_ok.1 h
      cases h
      exact ⟨hvalued.valuesOf_ne _, hvalued.valuesOf_ne _⟩
    · exact nomatch h

end SwitchSynth.CommandLine
