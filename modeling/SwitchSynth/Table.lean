/-!
# Tables

A table holds one value for each of its keys and keeps the keys in the order in which they were first
inserted. A key that is inserted again keeps its place and takes the new value.
-/

namespace SwitchSynth

/-- Entries with distinct keys, in order of insertion. -/
structure Table (α : Type) where
  entries : List (String × α)
  nodup : (entries.map Prod.fst).Nodup

namespace Table

variable {α β : Type}

def empty : Table α := ⟨[], List.nodup_nil⟩

instance : Inhabited (Table α) := ⟨empty⟩

instance : EmptyCollection (Table α) := ⟨empty⟩

def keys (t : Table α) : List String :=
  t.entries.map Prod.fst

def values (t : Table α) : List α :=
  t.entries.map Prod.snd

def contains (t : Table α) (k : String) : Bool :=
  t.entries.any fun e => e.1 == k

def get? (t : Table α) (k : String) : Option α :=
  (t.entries.find? fun e => e.1 == k).map Prod.snd

def size (t : Table α) : Nat :=
  t.entries.length

theorem contains_eq_true_iff (t : Table α) (k : String) :
    t.contains k = true ↔ k ∈ t.keys := by
  simp [contains, keys]

/-- Change the value of one key in place. -/
def replaceIn (k : String) (v : α) (entries : List (String × α)) : List (String × α) :=
  entries.map fun e => if e.1 == k then (k, v) else e

theorem map_fst_replaceIn (k : String) (v : α) (entries : List (String × α)) :
    (replaceIn k v entries).map Prod.fst = entries.map Prod.fst := by
  induction entries with
  | nil => rfl
  | cons e rest ih =>
    simp only [replaceIn, List.map_cons, List.cons.injEq] at ih ⊢
    refine ⟨?_, ih⟩
    by_cases h : e.1 = k <;> simp [h]

/-- Give a key a value: a new key goes to the end. -/
def insert (t : Table α) (k : String) (v : α) : Table α :=
  if h : t.contains k = true then
    ⟨replaceIn k v t.entries, by rw [map_fst_replaceIn]; exact t.nodup⟩
  else
    ⟨t.entries ++ [(k, v)], by
      rw [List.map_append, List.nodup_append]
      refine ⟨t.nodup, by simp, fun a ha b hb => ?_⟩
      simp only [List.map_cons, List.map_nil, List.mem_singleton] at hb
      subst hb
      exact fun hab => h ((contains_eq_true_iff t _).2 (hab ▸ ha))⟩

def erase (t : Table α) (k : String) : Table α :=
  ⟨t.entries.filter fun e => !(e.1 == k),
    List.Sublist.nodup (List.Sublist.map Prod.fst List.filter_sublist) t.nodup⟩

def ofList (entries : List (String × α)) : Table α :=
  entries.foldl (fun t e => t.insert e.1 e.2) empty

def toList (t : Table α) : List (String × α) :=
  t.entries

def update (t s : Table α) : Table α :=
  s.entries.foldl (fun t e => t.insert e.1 e.2) t

def map (f : α → β) (t : Table α) : Table β :=
  ⟨t.entries.map fun e => (e.1, f e.2), by
    rw [List.map_map]; exact t.nodup⟩

theorem keys_insert (t : Table α) (k : String) (v : α) :
    (t.insert k v).keys = if k ∈ t.keys then t.keys else t.keys ++ [k] := by
  unfold insert
  by_cases h : t.contains k = true
  · rw [dif_pos h, if_pos ((contains_eq_true_iff t k).1 h)]
    exact map_fst_replaceIn k v t.entries
  · rw [dif_neg h, if_neg fun hk => h ((contains_eq_true_iff t k).2 hk)]
    simp [keys]

theorem keys_erase (t : Table α) (k : String) :
    (t.erase k).keys = t.keys.filter fun x => !(x == k) := by
  simp [erase, keys, List.filter_map, Function.comp_def]

end Table

end SwitchSynth
