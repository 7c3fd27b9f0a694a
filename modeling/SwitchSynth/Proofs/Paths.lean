import SwitchSynth.Proofs.Table
import SwitchSynth.Workspace

/-!
# Paths and the files they lead to

A path that leads to a file ends with the name of the file: what comes before the last part is a directory, and
a path that ends with nothing, with a point or with two leads to a directory too. So a path to a file leads to
another name only if the two end alike.
-/

namespace SwitchSynth

/-! ### Splitting at a character -/

namespace Text

theorem splitFrom_ne_nil (separator : List Char) (skip : Nat) (current cs : List Char) :
    splitFrom separator skip current cs ≠ [] := by
  induction cs generalizing skip current with
  | nil => cases skip <;> simp [splitFrom]
  | cons c cs ih =>
    cases skip with
    | succ skip => exact ih skip current
    | zero =>
      rw [splitFrom]
      split
      · simp
      · exact ih 0 _

variable {c : Char} {cs more current piece : List Char} {separator s : String}

theorem splitFrom_append (more current rest : List Char) (hcs : c ∉ cs) :
    splitFrom (c :: more) 0 current (cs ++ rest) = splitFrom (c :: more) 0 (cs.reverse ++ current) rest := by
  induction cs generalizing current with
  | nil => rfl
  | cons d cs ih =>
    have hd : c ≠ d := fun h => hcs (h ▸ List.mem_cons_self)
    have hstart : (c :: more).isPrefixOf (d :: (cs ++ rest)) = false := by
      simp [List.isPrefixOf, hd]
    rw [List.cons_append, splitFrom, hstart, if_neg (by simp),
      ih _ fun hmem => hcs (List.mem_cons_of_mem d hmem)]
    simp

theorem splitFrom_of_not_mem (hcs : c ∉ cs) :
    splitFrom (c :: more) 0 [] cs = [cs] := by
  have happend := splitFrom_append more [] [] hcs
  simpa [splitFrom] using happend

theorem not_mem_of_mem_splitFrom (hcurrent : c ∉ current)
    (h : piece ∈ splitFrom [c] 0 current cs) : c ∉ piece := by
  induction cs generalizing current with
  | nil =>
    rw [splitFrom, List.mem_singleton] at h
    rw [h]
    exact fun hmem => hcurrent (List.mem_reverse.1 hmem)
  | cons d cs ih =>
    rw [splitFrom] at h
    split at h
    · rcases List.mem_cons.1 h with rfl | h
      · exact fun hmem => hcurrent (List.mem_reverse.1 hmem)
      · exact ih List.not_mem_nil h
    · next hstart =>
      refine ih (fun hmem => ?_) h
      rcases List.mem_cons.1 hmem with rfl | hmem
      · exact hstart (by simp [List.isPrefixOf])
      · exact hcurrent hmem

theorem mem_of_mem_splitFrom {separator : List Char} {skip : Nat}
    (h : piece ∈ splitFrom separator skip current cs) (hc : c ∈ piece) : c ∈ current ∨ c ∈ cs := by
  induction cs generalizing skip current with
  | nil =>
    have hpiece : piece = current.reverse := by cases skip <;> simpa [splitFrom] using h
    rw [hpiece] at hc
    exact .inl (List.mem_reverse.1 hc)
  | cons d cs ih =>
    cases skip with
    | succ skip => exact (ih h).imp_right (List.mem_cons_of_mem d)
    | zero =>
      rw [splitFrom] at h
      split at h
      · rcases List.mem_cons.1 h with rfl | h
        · exact .inl (List.mem_reverse.1 hc)
        · exact .inr (List.mem_cons_of_mem d ((ih h).resolve_left List.not_mem_nil))
      · rcases ih h with hmem | hmem
        · exact (List.mem_cons.1 hmem).elim (fun heq => .inr (heq ▸ List.mem_cons_self)) .inl
        · exact .inr (List.mem_cons_of_mem d hmem)

theorem split_ne_nil (separator s : String) : split separator s ≠ [] := by
  simp [split, splitFrom_ne_nil]

theorem not_mem_of_mem_split {piece : String} (hseparator : separator.toList = [c])
    (h : piece ∈ split separator s) : c ∉ piece.toList := by
  rw [split, hseparator, List.mem_map] at h
  obtain ⟨cs, hcs, rfl⟩ := h
  rw [String.toList_ofList]
  exact not_mem_of_mem_splitFrom List.not_mem_nil hcs

theorem mem_of_mem_split {piece : String} (h : piece ∈ split separator s)
    (hc : c ∈ piece.toList) : c ∈ s.toList := by
  rw [split, List.mem_map] at h
  obtain ⟨cs, hcs, rfl⟩ := h
  rw [String.toList_ofList] at hc
  exact (mem_of_mem_splitFrom hcs hc).resolve_left List.not_mem_nil

theorem split_of_not_mem (hseparator : separator.toList = c :: more)
    (h : c ∉ s.toList) : split separator s = [s] := by
  rw [split, hseparator, splitFrom_of_not_mem h, List.map_singleton, String.ofList_toList]

theorem headD_split {a : String} (b : String)
    (hseparator : separator.toList = c :: more) (h : c ∉ a.toList) :
    (split separator (a ++ separator ++ b)).headD "" = a := by
  rw [split, String.toList_append, String.toList_append, List.append_assoc, hseparator, splitFrom_append _ _ _ h,
    List.cons_append, splitFrom]
  have hstart : (c :: more).isPrefixOf (c :: (more ++ b.toList)) = true := by simp
  rw [if_pos hstart]
  simp

end Text

/-! ### Following paths -/

theorem follow_concat (parts : List String) (part : String) :
    follow (parts ++ [part]) =
      if part = "" ∨ part = "." then follow parts
      else if part = ".." then (follow parts).dropLast
      else follow parts ++ [part] := by
  unfold follow
  rw [List.foldl_append, List.foldl_cons, List.foldl_nil]
  split
  · rfl
  · split
    · simp
    · simp

variable {name : String}

theorem eq_singleton_of_intercalate {parts : List String} (hname : '/' ∉ name.toList)
    (hne : name ≠ "") (h : "/".intercalate parts = name) : parts = [name] := by
  match parts with
  | [] => exact absurd h.symm hne
  | [part] =>
    rw [String.intercalate_singleton] at h
    rw [h]
  | part :: next :: rest =>
    rw [String.intercalate_cons_cons] at h
    refine absurd ?_ hname
    rw [← h]
    simp

namespace Files

variable {files : Files} {path text : String}

theorem hasDirectory_dropLast {parts : List String} (h : files.hasDirectory parts = true) :
    files.hasDirectory parts.dropLast = true := by
  unfold hasDirectory at h ⊢
  rw [Bool.or_eq_true] at h ⊢
  rcases h with h | h
  · rw [List.isEmpty_iff] at h
    rw [h]
    exact .inl rfl
  · refine .inr ?_
    rw [List.any_eq_true] at h ⊢
    obtain ⟨name, hname, hbelow⟩ := h
    refine ⟨name, hname, ?_⟩
    simp only [Bool.and_eq_true, List.isPrefixOf_iff_prefix, decide_eq_true_eq, List.length_dropLast] at hbelow ⊢
    exact ⟨(List.dropLast_prefix parts).trans hbelow.1, by omega⟩

theorem hasDirectory_of_obstacle? {parts : List String} {last : String} (hparts : Text.split "/" path = parts ++ [last])
    (h : files.obstacle? path = none) : files.hasDirectory (follow parts) = true := by
  by_cases hnil : parts = []
  · rw [hnil]
    rfl
  · unfold obstacle? at h
    dsimp only at h
    rw [List.findSome?_eq_none_iff] at h
    have hlength : 0 < parts.length := List.length_pos_iff.2 hnil
    have hmem : parts.length ∈ (List.range (Text.split "/" path).length).drop 1 := by
      rw [hparts, List.length_append, List.length_singleton, List.range_eq_range', List.drop_range',
        List.mem_range'_1]
      omega
    have hplace := h parts.length hmem
    rw [hparts, List.take_left] at hplace
    split at hplace
    · exact nomatch hplace
    · split at hplace
      · assumption
      · exact nomatch hplace

theorem content_ok (h : files.content path = .ok text) :
    files.get? (pathName path) = some text ∧
      ∃ parts last, Text.split "/" path = parts ++ [last] ∧ pathParts path = follow parts ++ [last] := by
  unfold content at h
  split at h
  · exact nomatch h
  · split at h
    · exact nomatch h
    · next hobstacle =>
      split at h
      · exact nomatch h
      · next hdirectory =>
        split at h
        · next found hfound =>
          cases h
          obtain ⟨parts, last, hparts⟩ : ∃ parts last, Text.split "/" path = parts ++ [last] :=
            ⟨_, _, (List.dropLast_concat_getLast (Text.split_ne_nil _ _)).symm⟩
          refine ⟨hfound, parts, last, hparts, ?_⟩
          have hbefore := hasDirectory_of_obstacle? hparts hobstacle
          -- Any other last part leads to a directory.
          rw [pathParts, hparts, follow_concat] at hdirectory ⊢
          split at hdirectory
          · exact absurd hbefore hdirectory
          · split at hdirectory
            · exact absurd (hasDirectory_dropLast hbefore) hdirectory
            · next hplain hup => rw [if_neg hplain, if_neg hup]
        · exact nomatch h

theorem getLastD_split_of_pathName {name : String} (hname : '/' ∉ name.toList) (hne : name ≠ "")
    (h : files.content path = .ok text) (hpath : pathName path = name) :
    (Text.split "/" path).getLastD "" = name := by
  obtain ⟨-, parts, last, hparts, hlast⟩ := content_ok h
  have hsingle := eq_singleton_of_intercalate hname hne hpath
  rw [hlast] at hsingle
  have hnil : follow parts = [] := by
    have hlength := congrArg List.length hsingle
    simpa using hlength
  rw [hnil, List.nil_append] at hsingle
  rw [hparts, List.getLastD_concat]
  exact List.singleton_inj.1 hsingle

theorem write_ok {written : Files} (h : files.write path text = .ok written) :
    written = files.insert (pathName path) text := by
  unfold write at h
  dsimp only at h
  split at h
  · exact nomatch h
  · split at h
    · exact (Except.ok.inj h).symm
    · split at h
      · exact nomatch h
      · split at h
        · exact (Except.ok.inj h).symm
        · exact nomatch h

end Files

theorem pathName_of_plain (hname : '/' ∉ name.toList) (hne : name ≠ "") (hpoint : name ≠ ".")
    (hpoints : name ≠ "..") : pathName name = name := by
  have hparts : pathParts name = [name] := by
    rw [pathParts, Text.split_of_not_mem (show "/".toList = ['/'] by decide) hname, ← List.nil_append [name],
      follow_concat, if_neg (by simp [hne, hpoint]), if_neg hpoints]
    rfl
  rw [pathName, hparts, String.intercalate_singleton]

theorem plainPath_of_plain (hname : '/' ∉ name.toList) (hne : name ≠ "") (hpoint : name ≠ ".") :
    plainPath name = name := by
  have hstart : Text.startsWith "/" name = false := by
    rw [Text.startsWith, Bool.eq_false_iff, ne_eq, List.isPrefixOf_iff_prefix]
    intro hstart
    exact hname (hstart.subset (by decide))
  unfold plainPath
  rw [Text.split_of_not_mem (show "/".toList = ['/'] by decide) hname]
  simp [hne, hpoint, hstart]

end SwitchSynth
