import SwitchSynth.Proofs.Text

/-!
# Lists and names in texts

The arguments of a call and the parameters of a function are words with commas between them and blank space
around them. A name is put together of words with underscores in front of them; where no word has an underscore
of its own, the words can be read off the name.
-/

namespace SwitchSynth.Text

/-- Nothing but spaces and line feeds. -/
def Blank (s : String) : Prop :=
  s.toList.all (fun c => c == ' ' || c == '\n') = true

theorem Blank.append {a b : String} (ha : Blank a) (hb : Blank b) : Blank (a ++ b) := by
  unfold Blank at *
  rw [String.toList_append, List.all_append, ha, hb]
  rfl

/-- A text lists words: they stand in it in order, with a comma between each two of them and blank space around
them. -/
inductive Lists : String → List String → Prop where
  | last {a w b : String} : Blank a → Blank b → Lists (a ++ w ++ b) [w]
  | cons {a w b text : String} {ws : List String} : Blank a → Blank b → Lists text ws →
      Lists (a ++ w ++ b ++ "," ++ text) (w :: ws)

/-- The words that are read off a text with some words and commas between them: no word at all is an empty one. -/
def pieces : List String → List String
  | [] => [""]
  | w :: ws => w :: ws

variable {ws : List String} {xs ys us vs : List Char}

theorem pieces_of_ne_nil (h : ws ≠ []) : pieces ws = ws := by
  cases ws with
  | nil => exact absurd rfl h
  | cons w ws => rfl

namespace Lists

variable {a b s t : String} {ws vs : List String}

theorem word (w : String) : Lists w [w] := by
  have hlast : Lists ("" ++ w ++ "") [w] := .last rfl rfl
  simpa using hlast

theorem padLeft (h : Lists t ws) (ha : Blank a) : Lists (a ++ t) ws := by
  cases h with
  | @last a' w b ha' hb =>
    rw [← String.append_assoc, ← String.append_assoc]
    exact .last (ha.append ha') hb
  | @cons a' w b text ws ha' hb h =>
    rw [← String.append_assoc, ← String.append_assoc, ← String.append_assoc, ← String.append_assoc]
    exact .cons (ha.append ha') hb h

theorem padRight (h : Lists t ws) (hb : Blank b) : Lists (t ++ b) ws := by
  induction h with
  | last ha' hb' =>
    rw [String.append_assoc]
    exact .last ha' (hb'.append hb)
  | cons ha' hb' _ ih =>
    rw [String.append_assoc]
    exact .cons ha' hb' ih

theorem append (hs : Lists s ws) (ht : Lists t vs) : Lists (s ++ "," ++ t) (ws ++ vs) := by
  induction hs with
  | last ha hb => exact .cons ha hb ht
  | @cons a w b text ws ha hb _ ih =>
    have hassoc : a ++ w ++ b ++ "," ++ text ++ "," ++ t = a ++ w ++ b ++ "," ++ (text ++ "," ++ t) := by
      simp only [String.append_assoc]
    rw [hassoc]
    exact .cons ha hb ih

theorem commasBehind (ws : List String) (ht : Lists t vs) (ha : Blank a) (hb : Blank b) :
    Lists (String.join (ws.map fun w => a ++ w ++ "," ++ b) ++ t) (ws ++ vs) := by
  induction ws with
  | nil => simpa using ht
  | cons w ws ih =>
    have hcons := ((word w).padLeft ha).append (ih.padLeft hb)
    simpa only [List.map_cons, String.join_cons, String.append_assoc, List.cons_append,
      List.nil_append] using hcons

theorem commasBefore (ws : List String) (hs : Lists s vs) (ha : Blank a) :
    Lists (s ++ String.join (ws.map fun w => "," ++ a ++ w)) (vs ++ ws) := by
  induction ws generalizing s vs with
  | nil => simpa using hs
  | cons w ws ih =>
    have hmore : Lists (s ++ "," ++ (a ++ w)) (vs ++ [w]) := hs.append ((word w).padLeft ha)
    have hrest := ih hmore
    rw [List.append_assoc, List.singleton_append] at hrest
    simpa only [List.map_cons, String.join_cons, String.append_assoc] using hrest

theorem intercalate (ws : List String) (ha : Blank a) :
    Lists (String.intercalate ("," ++ a) ws) (pieces ws) := by
  induction ws with
  | nil => exact .word ""
  | cons w ws ih =>
    cases ws with
    | nil =>
      rw [String.intercalate_singleton]
      exact .word w
    | cons v vs =>
      rw [String.intercalate_cons_cons, ← String.append_assoc, String.append_assoc]
      exact (word w).append (ih.padLeft ha)

theorem unpad (h : Lists t (ws.map (b ++ ·))) (hb : Blank b) : Lists t ws := by
  induction ws generalizing t with
  | nil => exact nomatch h
  | cons w ws ih =>
    cases ws with
    | nil =>
      cases h with
      | @last a _ c ha hc =>
        rw [← String.append_assoc]
        exact .last (ha.append hb) hc
      | cons _ _ h => exact nomatch h
    | cons v vs =>
      cases h with
      | @cons a _ c text _ ha hc h =>
        rw [← String.append_assoc]
        exact .cons (ha.append hb) hc (ih h)

theorem intercalate_padded (ws : List String) (hb : Blank b) :
    Lists (String.intercalate "," (ws.map (b ++ ·))) (pieces ws) := by
  cases ws with
  | nil => exact .word ""
  | cons w ws => exact unpad (intercalate (a := "") ((w :: ws).map (b ++ ·)) rfl) hb

end Lists

/-! ### Names -/

/-- A name that goes on with words, each behind an underscore. -/
def path (words : List String) : String :=
  String.join (words.map ("_" ++ ·))

theorem path_append (ws vs : List String) : path (ws ++ vs) = path ws ++ path vs := by
  rw [path, List.map_append, String.join_append]
  rfl

theorem path_concat (ws : List String) (w : String) : path (ws ++ [w]) = path ws ++ "_" ++ w := by
  rw [path_append]
  simp [path, String.append_assoc]

def Plain (word : String) : Prop :=
  '_' ∉ word.toList

theorem plain_toString (n : Nat) : Plain (toString n) :=
  fun hmem => absurd (isDigit_of_mem_toString hmem) (by decide)

/-- What follows a word can be told from it if it begins with a character that no word has. -/
theorem eq_of_append_eq_of_stops {P : Char → Prop} (hxs : ∀ c ∈ xs, P c)
    (hys : ∀ c ∈ ys, P c) (hus : ∀ c ∈ us.head?, ¬ P c) (hvs : ∀ c ∈ vs.head?, ¬ P c) (h : xs ++ us = ys ++ vs) :
    xs = ys ∧ us = vs := by
  induction xs generalizing ys with
  | nil =>
    cases ys with
    | nil => exact ⟨rfl, h⟩
    | cons y ys =>
      rw [List.nil_append] at h
      subst h
      exact absurd (hys y List.mem_cons_self) (hus y rfl)
  | cons x xs ih =>
    cases ys with
    | nil =>
      rw [List.nil_append] at h
      subst h
      exact absurd (hxs x List.mem_cons_self) (hvs x rfl)
    | cons y ys =>
      obtain ⟨rfl, htail⟩ := List.cons.inj h
      obtain ⟨rfl, rfl⟩ := ih (fun c hc => hxs c (List.mem_cons_of_mem x hc))
        (fun c hc => hys c (List.mem_cons_of_mem x hc)) htail
      exact ⟨rfl, rfl⟩

/-- What follows a word without an underscore can be told from it if it begins with an underscore. -/
theorem eq_of_append_eq (hxs : '_' ∉ xs) (hys : '_' ∉ ys)
    (hus : ∀ c ∈ us.head?, c = '_') (hvs : ∀ c ∈ vs.head?, c = '_') (h : xs ++ us = ys ++ vs) :
    xs = ys ∧ us = vs :=
  eq_of_append_eq_of_stops (P := fun c => c ≠ '_') (fun _ hc heq => hxs (heq ▸ hc)) (fun _ hc heq => hys (heq ▸ hc))
    (fun c hc => not_not_intro (hus c hc)) (fun c hc => not_not_intro (hvs c hc)) h

theorem head?_path (words : List String) : ∀ c ∈ (path words).toList.head?, c = '_' := by
  cases words with
  | nil => simp [path]
  | cons w ws => simp [path]

/-- The first word of a name can be read off it, whatever else is behind the name. -/
theorem path_cons_append_inj {w v : String} {vs : List String} {a b : String} (hw : Plain w) (hv : Plain v)
    (ha : ∀ c ∈ a.toList.head?, c = '_') (hb : ∀ c ∈ b.toList.head?, c = '_')
    (h : path (w :: ws) ++ a = path (v :: vs) ++ b) : w = v ∧ path ws ++ a = path vs ++ b := by
  have hhead (words : List String) {x : String} (hx : ∀ c ∈ x.toList.head?, c = '_') :
      ∀ c ∈ ((path words).toList ++ x.toList).head?, c = '_' := by
    intro c hc
    rw [List.head?_append] at hc
    cases hpath : (path words).toList.head? with
    | none => exact hx c (by simpa [hpath] using hc)
    | some c' => exact head?_path words c (by simpa [hpath] using hc)
  have hchars := congrArg String.toList h
  simp only [path, List.map_cons, String.join_cons, String.toList_append, List.append_assoc] at hchars
  obtain ⟨hword, hrest⟩ := eq_of_append_eq hw hv (hhead ws ha) (hhead vs hb) (List.append_cancel_left hchars)
  refine ⟨String.toList_inj.1 hword, String.toList_inj.1 ?_⟩
  rw [String.toList_append, String.toList_append]
  exact hrest

theorem path_inj {vs : List String} (hws : ∀ w ∈ ws, Plain w) (hvs : ∀ v ∈ vs, Plain v)
    (h : path ws = path vs) : ws = vs := by
  induction ws generalizing vs with
  | nil =>
    cases vs with
    | nil => rfl
    | cons v vs => simp [path] at h
  | cons w ws ih =>
    cases vs with
    | nil => simp [path] at h
    | cons v vs =>
      obtain ⟨hw, hws'⟩ := List.forall_mem_cons.1 hws
      obtain ⟨hv, hvs'⟩ := List.forall_mem_cons.1 hvs
      obtain ⟨rfl, hrest⟩ := path_cons_append_inj hw hv (a := "") (b := "") nofun nofun (congrArg (· ++ "") h)
      rw [ih hws' hvs' (by simpa using hrest)]

end SwitchSynth.Text
