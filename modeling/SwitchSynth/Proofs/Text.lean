/-!
# Numerals and parts of texts

Numbers with the same decimal text are equal. A text contains another one if it stands somewhere in it.
-/

namespace SwitchSynth.Text

theorem toString_nat_injective {m n : Nat} (h : toString m = toString n) : m = n := by
  have hdigits : Nat.toDigits 10 m = Nat.toDigits 10 n := by
    have hlist := congrArg String.toList h
    rwa [Nat.toString_eq_repr, Nat.toString_eq_repr, Nat.toList_repr, Nat.toList_repr] at hlist
  have hnumber := congrArg (fun ds => Nat.ofDigitChars 10 ds 0) hdigits
  simpa only [Nat.ofDigitChars_ten_toDigits] using hnumber

theorem isDigit_of_mem_toString {n : Nat} {c : Char} (h : c ∈ (toString n).toList) :
    c.isDigit = true := by
  rw [Nat.toString_eq_repr, Nat.toList_repr] at h
  exact Nat.isDigit_of_mem_toDigits (by decide) (by decide) h

theorem numbered_inj {a b : String} {m n : Nat}
    (h : a ++ "_" ++ toString m = b ++ "_" ++ toString n) : a = b ∧ m = n := by
  have hlist := congrArg String.toList h
  simp only [String.toList_append, List.append_assoc] at hlist
  have hno {k : Nat} : '_' ∉ (toString k).toList := fun hmem =>
    absurd (isDigit_of_mem_toString hmem) (by decide)
  -- The underscore in front of the digits is the last one in both texts.
  rcases List.append_eq_append_iff.1 hlist with ⟨more, hb, hrest⟩ | ⟨more, ha, hrest⟩
  · cases more with
    | nil =>
      have htail : (toString m).toList = (toString n).toList := by simpa using hrest
      exact ⟨(String.toList_inj.1 (by simpa using hb)).symm,
        toString_nat_injective (String.toList_inj.1 htail)⟩
    | cons c more =>
      have htail : (toString m).toList = more ++ '_' :: (toString n).toList := by
        simpa using congrArg List.tail hrest
      exact absurd (htail ▸ by simp) (hno (k := m))
  · cases more with
    | nil =>
      have htail : (toString n).toList = (toString m).toList := by simpa using hrest
      exact ⟨String.toList_inj.1 (by simpa using ha),
        (toString_nat_injective (String.toList_inj.1 htail)).symm⟩
    | cons c more =>
      have htail : (toString n).toList = more ++ '_' :: (toString m).toList := by
        simpa using congrArg List.tail hrest
      exact absurd (htail ▸ by simp) (hno (k := n))

def Contains (whole part : String) : Prop :=
  part.toList <:+: whole.toList

namespace Contains

variable {a b part : String}

theorem refl (a : String) : Contains a a :=
  List.infix_refl _

theorem trans {c : String} (h₁ : Contains a b) (h₂ : Contains b c) : Contains a c :=
  List.IsInfix.trans h₂ h₁

theorem append_left (h : Contains a part) : Contains (a ++ b) part := by
  unfold Contains at *
  rw [String.toList_append]
  exact List.infix_append_of_infix_left h

theorem append_right (h : Contains b part) : Contains (a ++ b) part := by
  unfold Contains at *
  rw [String.toList_append]
  exact List.infix_append_of_infix_right h

theorem join {texts : List String} (h : part ∈ texts) : Contains (String.join texts) part := by
  rw [Contains, String.toList_join]
  exact List.infix_of_mem_flatten (List.mem_map_of_mem h)

end Contains

end SwitchSynth.Text
