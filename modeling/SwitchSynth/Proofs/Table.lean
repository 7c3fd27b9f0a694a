import SwitchSynth.Table

/-!
# Looking up tables

What `get?` finds after `insert` and `erase`: the key that was touched, and every other key unchanged. New keys stand in
the order in which they were inserted.
-/

namespace SwitchSynth.Table

variable {α : Type}

@[simp] theorem get?_empty (k : String) : (∅ : Table α).get? k = none := rfl

/-- The value of a key after a key of a list of entries was changed in place. -/
private theorem find?_replaceIn (entries : List (String × α)) (k k' : String) (v : α) :
    ((replaceIn k v entries).find? fun e => e.1 == k').map Prod.snd =
      if k = k' ∧ k ∈ entries.map Prod.fst then some v
      else (entries.find? fun e => e.1 == k').map Prod.snd := by
  induction entries with
  | nil => simp [replaceIn]
  | cons e rest ih =>
    have hcons : replaceIn k v (e :: rest) =
        (if e.1 == k then (k, v) else e) :: replaceIn k v rest := rfl
    rw [hcons, List.find?_cons, List.find?_cons]
    by_cases hk : e.1 = k
    · by_cases hk' : k = k'
      · simp [hk, hk']
      · have hb : (k == k') = false := beq_eq_false_iff_ne.2 hk'
        simp only [hk', false_and, if_false] at ih ⊢
        simp only [hk, beq_self_eq_true, if_true, hb, ih]
    · by_cases hk' : e.1 = k'
      · have hne : ¬ k = k' := fun h => hk (hk'.trans h.symm)
        have hne' : ¬ k' = k := fun h => hne h.symm
        simp [hk', hne, hne']
      · have hmem : k ∈ (e :: rest).map Prod.fst ↔ k ∈ rest.map Prod.fst := by
          rw [List.map_cons, List.mem_cons]
          exact or_iff_right fun h => hk h.symm
        have hhead : (if e.1 == k then (k, v) else e) = e := if_neg (by simpa using hk)
        rw [hhead, beq_eq_false_iff_ne.2 hk']
        simp only [hmem, ih]

theorem get?_insert (t : Table α) (k k' : String) (v : α) :
    (t.insert k v).get? k' = if k = k' then some v else t.get? k' := by
  unfold insert
  by_cases h : t.contains k = true
  · rw [dif_pos h]
    have hmem : k ∈ t.entries.map Prod.fst := (contains_eq_true_iff t k).1 h
    simp only [get?, find?_replaceIn, hmem, and_true]
  · rw [dif_neg h]
    have hmem : k ∉ t.entries.map Prod.fst := fun hk => h ((contains_eq_true_iff t k).2 hk)
    by_cases hk : k = k'
    · subst hk
      have hnone : t.entries.find? (fun e => e.1 == k) = none := by
        rw [List.find?_eq_none]
        intro e he heq
        exact hmem (List.mem_map.2 ⟨e, he, by simpa using heq⟩)
      simp [get?, List.find?_append, hnone]
    · simp [get?, List.find?_append, hk]

theorem get?_insert_self (t : Table α) (k : String) (v : α) : (t.insert k v).get? k = some v := by
  rw [get?_insert, if_pos rfl]

theorem get?_insert_of_ne (t : Table α) {k k' : String} (v : α) (h : k ≠ k') :
    (t.insert k v).get? k' = t.get? k' := by
  rw [get?_insert, if_neg h]

theorem size_insert_ne_zero (t : Table α) (k : String) (v : α) : (t.insert k v).size ≠ 0 := by
  have hmem : k ∈ (t.insert k v).keys := by
    rw [keys_insert]
    split
    · assumption
    · simp
  have hpos := List.length_pos_of_mem hmem
  rw [keys, List.length_map] at hpos
  exact Nat.pos_iff_ne_zero.1 hpos

theorem get?_erase (t : Table α) (k k' : String) :
    (t.erase k).get? k' = if k = k' then none else t.get? k' := by
  simp only [get?, erase, List.find?_filter]
  by_cases hk : k = k'
  · subst hk
    rw [if_pos rfl, List.find?_eq_none.2]
    · rfl
    · simp
  · rw [if_neg hk]
    congr 2
    funext e
    by_cases he : e.1 = k'
    · simp [he, Ne.symm hk]
    · simp [he]

theorem get?_eq_none_iff (t : Table α) (k : String) : t.get? k = none ↔ k ∉ t.keys := by
  rw [get?, Option.map_eq_none_iff, List.find?_eq_none, keys, List.mem_map]
  constructor
  · rintro h ⟨e, he, rfl⟩
    exact h e he (beq_self_eq_true e.1)
  · intro h e he heq
    exact h ⟨e, he, beq_iff_eq.1 heq⟩

theorem get?_eq_some_iff (t : Table α) (k : String) (v : α) : t.get? k = some v ↔ (k, v) ∈ t.toList := by
  obtain ⟨entries, hnodup⟩ := t
  show (entries.find? fun e => e.1 == k).map Prod.snd = some v ↔ (k, v) ∈ entries
  induction entries with
  | nil => simp
  | cons e rest ih =>
    obtain ⟨hnew, hrest⟩ := List.nodup_cons.1 hnodup
    rw [List.find?_cons, List.mem_cons]
    by_cases hk : e.1 = k
    · -- The key stands nowhere else.
      have hother : (k, v) ∉ rest := fun hmem => hnew (hk ▸ List.mem_map_of_mem hmem)
      rw [beq_iff_eq.2 hk, Option.map_some, Option.some.injEq, or_iff_left hother]
      constructor
      · rintro rfl
        rw [← hk]
      · intro heq
        rw [← heq]
    · have hne : (k, v) ≠ e := fun heq => hk (heq ▸ rfl)
      rw [beq_eq_false_iff_ne.2 hk, ih hrest, or_iff_right hne]

theorem toList_insert_of_not_mem {t : Table α} {k : String} (v : α) (h : k ∉ t.keys) :
    (t.insert k v).toList = t.toList ++ [(k, v)] := by
  rw [insert, dif_neg fun hk => h ((contains_eq_true_iff t k).1 hk)]
  rfl

theorem toList_foldl_insert {entries : List (String × α)} {t : Table α}
    (h : (t.keys ++ entries.map Prod.fst).Nodup) :
    (entries.foldl (fun t e => t.insert e.1 e.2) t).toList = t.toList ++ entries := by
  induction entries generalizing t with
  | nil => exact (List.append_nil _).symm
  | cons e entries ih =>
    have hnew : e.1 ∉ t.keys := fun hmem => (List.nodup_append.1 h).2.2 e.1 hmem e.1 List.mem_cons_self rfl
    have hkeys : (t.insert e.1 e.2).keys = t.keys ++ [e.1] := by rw [keys_insert, if_neg hnew]
    rw [List.foldl_cons, ih (by rw [hkeys, List.append_assoc]; exact h), toList_insert_of_not_mem e.2 hnew,
      List.append_assoc]
    rfl

theorem toList_ofList {entries : List (String × α)} (h : (entries.map Prod.fst).Nodup) :
    (ofList entries).toList = entries :=
  toList_foldl_insert (t := empty) h

/-! ### Keys that are taken away one after the other -/

/-- A table has no other values than another one. -/
def Within (t s : Table α) : Prop :=
  ∀ k v, t.get? k = some v → s.get? k = some v

theorem within_erase (t : Table α) (k : String) : (t.erase k).Within t := by
  intro k' v h
  rw [get?_erase] at h
  split at h
  · exact nomatch h
  · exact h

theorem within_refl (t : Table α) : t.Within t :=
  fun _ _ h => h

theorem Within.trans {t s u : Table α} (h₁ : t.Within s) (h₂ : s.Within u) : t.Within u :=
  fun k v h => h₂ k v (h₁ k v h)

/-- Keys are taken away from a table one after the other, and each is there when it is taken. -/
inductive Taken : Table α → List String → Table α → Prop where
  | nil (t : Table α) : Taken t [] t
  | cons {t t' : Table α} {k : String} {v : α} {ks : List String} :
      t.get? k = some v → Taken (t.erase k) ks t' → Taken t (k :: ks) t'

namespace Taken

variable {t t' t'' : Table α} {k : String} {ks ks' : List String}

theorem trans (h : Taken t ks t') (h' : Taken t' ks' t'') : Taken t (ks ++ ks') t'' := by
  induction h with
  | nil => exact h'
  | cons hk _ ih => exact .cons hk (ih h')

theorem get?_eq (h : Taken t ks t') (k : String) :
    t'.get? k = if k ∈ ks then none else t.get? k := by
  induction h with
  | nil => simp
  | @cons t t' k' _ ks _ _ ih =>
    rw [ih, get?_erase]
    by_cases hk : k = k'
    · simp [hk]
    · simp [hk, Ne.symm hk]

theorem within (h : Taken t ks t') : t'.Within t := by
  induction h with
  | nil => exact within_refl _
  | cons _ _ ih => exact ih.trans (within_erase _ _)

theorem mem_keys (h : Taken t ks t') (hk : k ∈ ks) : k ∈ t.keys := by
  induction h with
  | nil => exact nomatch hk
  | @cons t t' k' _ ks hget _ ih =>
    rcases List.mem_cons.1 hk with rfl | hk
    · exact Decidable.byContradiction fun hnot => by simp [(t.get?_eq_none_iff k).2 hnot] at hget
    · have hmem := ih hk
      rw [keys_erase] at hmem
      exact (List.mem_filter.1 hmem).1

theorem nodup (h : Taken t ks t') : ks.Nodup := by
  induction h with
  | nil => exact List.nodup_nil
  | @cons t t' k _ ks _ htail ih =>
    refine List.nodup_cons.2 ⟨fun hk => ?_, ih⟩
    have hmem := htail.mem_keys hk
    simp [keys_erase] at hmem

theorem keys_eq_nil (h : Taken t ks t') (hall : ∀ k ∈ t.keys, k ∈ ks) : t'.keys = [] := by
  refine List.eq_nil_iff_forall_not_mem.2 fun k => (get?_eq_none_iff t' k).1 ?_
  rw [h.get?_eq]
  by_cases hk : k ∈ ks
  · rw [if_pos hk]
  · rw [if_neg hk, get?_eq_none_iff]
    exact fun hmem => hk (hall k hmem)

end Taken

end SwitchSynth.Table
