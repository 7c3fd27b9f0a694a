/-!
# Texts limited to ASCII

Descriptions of ALUs are read byte by byte, and generated switch programs are written so; neither may
hold a byte beyond 127.
-/

namespace SwitchSynth.Text

def bytes (s : String) : List UInt8 :=
  s.toUTF8.data.toList

/-- The characters of a text; those of an ASCII text are its bytes. -/
def chars (s : String) : List Char :=
  if (bytes s).all (·.toNat < 128) then (bytes s).map fun b => Char.ofNat b.toNat else s.toList

theorem map_ofNat_utf8Encode {cs : List Char} (h : (cs.flatMap String.utf8EncodeChar).all (·.toNat < 128) = true) :
    ((cs.flatMap String.utf8EncodeChar).map fun b => Char.ofNat b.toNat) = cs := by
  induction cs with
  | nil => rfl
  | cons c cs ih =>
    rw [List.flatMap_cons, List.all_append, Bool.and_eq_true] at h
    have hbyte : String.utf8EncodeChar c = [UInt8.ofNat c.toNat] ∧ c.toNat ≤ 127 := by
      have hc := h.1
      unfold String.utf8EncodeChar at hc ⊢
      by_cases hle : c.val.toNat ≤ 127
      · exact ⟨if_pos hle, hle⟩
      · -- Longer encodings begin with a byte beyond ASCII.
        dsimp only at hc
        rw [if_neg hle] at hc
        split at hc <;> (try split at hc) <;> simp [UInt8.toNat_ofNat'] at hc <;> omega
    have hchar : Char.ofNat (UInt8.ofNat c.toNat).toNat = c := by
      rw [UInt8.toNat_ofNat', Nat.mod_eq_of_lt (by omega), Char.ofNat_toNat]
    rw [List.flatMap_cons, List.map_append, ih h.2, hbyte.1, List.map_singleton, hchar, List.singleton_append]

theorem chars_eq (s : String) : chars s = s.toList := by
  have hbytes : bytes s = s.toList.flatMap String.utf8EncodeChar := by
    conv => lhs; rw [← String.ofList_toList (s := s)]
    show ((s.toList.flatMap String.utf8EncodeChar).toByteArray).data.toList = _
    rw [List.data_toByteArray]
  unfold chars
  split
  · next h =>
    rw [hbytes] at h ⊢
    exact map_ofNat_utf8Encode h
  · rfl

/-- The first byte of a text that is not ASCII, with its offset among the bytes. -/
def firstWideByte? (s : String) : Option (Nat × Nat) :=
  ((bytes s).zipIdx.find? (128 ≤ ·.1.toNat)).map fun (b, i) => (b.toNat, i)

def isWide (c : Char) : Bool :=
  128 ≤ c.toNat

/-- The first run of characters that are not ASCII: its first one, the characters before it, its length. -/
def firstWideRun? (s : String) : Option (Char × Nat × Nat) :=
  let rest := s.toList.dropWhile (!isWide ·)
  rest.head?.map fun c => (c, s.length - rest.length, (rest.takeWhile isWide).length)

end SwitchSynth.Text
