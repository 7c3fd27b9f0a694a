import SwitchSynth.Text.Pattern.Basic

/-!
# What patterns find in a text

Where a match can end depends only on what is behind the place where it starts. So the matches of a text are told by
walking through it: at each place the pattern fails, or it takes something and the walk goes on behind it. A run of
characters of a class can only be given up again if what follows the run begins with a character of the class; where it
does not, the pattern has one match at most.
-/

namespace SwitchSynth.Text

/-! ### Places -/

namespace Cursor

variable {c : Cursor} {m n : Nat}

/-- The number of characters behind a place is kept. -/
def Sound (c : Cursor) : Prop :=
  c.remaining = c.rest.length

/-- The place so many characters further on. -/
def skip (c : Cursor) (n : Nat) : Cursor :=
  { c with before := (c.rest.take n).reverse ++ c.before, rest := c.rest.drop n, remaining := c.remaining - n }

theorem Sound.skip (h : c.Sound) (n : Nat) : (c.skip n).Sound := by
  show c.remaining - n = (c.rest.drop n).length
  rw [List.length_drop, h]

theorem skip_zero : c.skip 0 = c := by
  simp [skip]

theorem skip_skip : (c.skip m).skip n = c.skip (m + n) := by
  simp only [skip, List.drop_drop, List.take_add, List.reverse_append, List.append_assoc, Nat.sub_sub]

theorem advance_eq (h : c.Sound) : c.advance = c.skip 1 := by
  unfold advance
  split
  · next x rest hrest => simp [skip, hrest]
  · next hrest =>
    have hzero : c.remaining = 0 := by rw [h, hrest, List.length_nil]
    obtain ⟨before, rest, remaining, groups⟩ := c
    simp_all [skip]

theorem rest_skip_one {x : Char} {rest : List Char} (hrest : c.rest = x :: rest) : (c.skip 1).rest = rest := by
  simp [skip, hrest]

theorem textSince_skip (h : c.Sound) (hn : n ≤ c.rest.length) :
    (c.skip n).textSince c = String.ofList (c.rest.take n) := by
  show String.ofList (c.rest.take (c.remaining - (c.remaining - n))) = _
  rw [h, Nat.sub_sub_self hn]

end Cursor

/-! ### Where matches end -/

namespace Pattern

variable {c : Cursor}

-- The equations of `ends` are made here, once for all proofs below.
attribute [local simp] ends in
variable {items : List CharItem} {x : Char} {rest cs : List Char} {ps qs : List Pattern} {number : Nat}

theorem ends_one (hc : c.Sound) : (one false items).ends c =
    if c.rest.head?.any (fun x => items.any (·.holds x)) then [c.skip 1] else [] := by
  unfold ends
  split
  · next x rest hrest => simp [hrest, Cursor.advance_eq hc]
  · next hrest => simp [hrest]

theorem ends_one_of_pos (hc : c.Sound)
    (hrest : c.rest = x :: rest) (hx : items.any (·.holds x) = true) : (one false items).ends c = [c.skip 1] := by
  rw [ends_one hc, hrest]
  exact if_pos hx

theorem ends_one_of_neg (hc : c.Sound)
    (hrest : c.rest = x :: rest) (hx : ¬ items.any (·.holds x) = true) : (one false items).ends c = [] := by
  rw [ends_one hc, hrest]
  exact if_neg hx

theorem ends_seqAll_cons (p : Pattern) (ps : List Pattern) :
    (seqAll (p :: ps)).ends c = (p.ends c).flatMap (seqAll ps).ends := by
  rw [seqAll, List.foldr_cons, ends]
  rfl

theorem ends_seqAll_append (ps qs : List Pattern) :
    (seqAll (ps ++ qs)).ends c = ((seqAll ps).ends c).flatMap (seqAll qs).ends := by
  induction ps generalizing c with
  | nil =>
    rw [List.nil_append, show (seqAll []).ends c = [c] from rfl, List.flatMap_singleton]
  | cons p ps ih =>
    rw [List.cons_append, ends_seqAll_cons, ends_seqAll_cons, List.flatMap_assoc]
    congr 1
    funext d
    exact ih

theorem ends_chars (cs : List Char) (hc : c.Sound) :
    (seqAll (cs.map char)).ends c = if cs <+: c.rest then [c.skip cs.length] else [] := by
  induction cs generalizing c with
  | nil => simp [seqAll, ends, Cursor.skip_zero]
  | cons x cs ih =>
    rw [List.map_cons, ends_seqAll_cons, char]
    cases hrest : c.rest with
    | nil => simp [ends_one hc, hrest]
    | cons y rest =>
      by_cases hxy : x = y
      · subst hxy
        rw [ends_one_of_pos hc hrest (by simp [CharItem.holds]), List.flatMap_singleton, ih (hc.skip 1),
          Cursor.rest_skip_one hrest]
        simp only [List.cons_prefix_cons, true_and, Cursor.skip_skip, List.length_cons, Nat.add_comm 1]
      · have hne : ¬ x :: cs <+: y :: rest := fun h => hxy (List.cons_prefix_cons.1 h).1
        rw [ends_one_of_neg hc hrest (by simp [CharItem.holds, hxy]), List.flatMap_nil, if_neg hne]

theorem ends_text (s : String) (hc : c.Sound) :
    (text s).ends c = if s.toList <+: c.rest then [c.skip s.length] else [] := by
  rw [text, ends_chars _ hc, String.length_toList]

theorem ends_text_cons_eq_nil {s : String} (hc : c.Sound) (hrest : ¬ s.toList <+: c.rest) :
    (seqAll (text s :: ps)).ends c = [] := by
  rw [ends_seqAll_cons, ends_text s hc, if_neg hrest, List.flatMap_nil]

theorem ends_chars_append (s : String) (ps : List Pattern) :
    (seqAll (s.toList.map char ++ ps)).ends = (seqAll (text s :: ps)).ends := by
  funext c
  rw [ends_seqAll_append, ends_seqAll_cons]
  rfl

theorem ends_group_singleton (number : Nat) (p : Pattern) : (group number (seqAll [p])).ends = (group number p).ends := by
  funext c
  rw [ends, ends, ends_seqAll_cons, show (seqAll []).ends = fun d => [d] from rfl, List.flatMap_singleton']

theorem ends_seqAll_congr (p : Pattern) (h : (seqAll ps).ends = (seqAll qs).ends) :
    (seqAll (p :: ps)).ends = (seqAll (p :: qs)).ends := by
  funext c
  rw [ends_seqAll_cons, ends_seqAll_cons, h]

def run (items : List CharItem) : Pattern :=
  rounds (one false items) 1 none .greedy

/-- How far the characters of some items go. -/
def runLength (items : List CharItem) (cs : List Char) : Nat :=
  (cs.takeWhile fun x => items.any (·.holds x)).length

theorem runLength_le (items : List CharItem) (cs : List Char) : runLength items cs ≤ cs.length :=
  (List.takeWhile_prefix _).length_le

theorem runLength_cons_of_pos
    (h : items.any (·.holds x) = true) : runLength items (x :: cs) = runLength items cs + 1 := by
  simp [runLength, h]

theorem runLength_cons_of_neg
    (h : items.any (·.holds x) = false) : runLength items (x :: cs) = 0 := by
  simp [runLength, h]

theorem runLength_append {word : List Char}
    (hword : ∀ x ∈ word, items.any (·.holds x) = true) (hrest : ∀ x ∈ rest.head?, items.any (·.holds x) = false) :
    runLength items (word ++ rest) = word.length := by
  induction word with
  | nil =>
    cases rest with
    | nil => rfl
    | cons x rest => exact runLength_cons_of_neg (hrest x rfl)
  | cons x word ih =>
    rw [List.cons_append, runLength_cons_of_pos (hword x List.mem_cons_self),
      ih fun y hy => hword y (List.mem_cons_of_mem x hy), List.length_cons]

theorem roundEnds_run {fuel : Nat} (hc : c.Sound) (hfuel : runLength items c.rest < fuel) :
    roundEnds (one false items).ends false fuel 0 none c =
      (List.range (runLength items c.rest + 1)).reverse.map c.skip := by
  induction fuel generalizing c with
  | zero => omega
  | succ fuel ih =>
    cases hrest : c.rest with
    | nil => simp [roundEnds, ends_one hc, hrest, runLength, Cursor.skip_zero]
    | cons x rest =>
      by_cases hx : items.any (·.holds x) = true
      · have htail := Cursor.rest_skip_one hrest
        have hne : ¬ (c.skip 1).remaining = c.remaining := by
          show ¬ c.remaining - 1 = c.remaining
          rw [hc, hrest, List.length_cons]
          omega
        rw [hrest, runLength_cons_of_pos hx] at hfuel
        have hrounds := ih (hc.skip 1) (by rw [htail]; omega)
        rw [htail] at hrounds
        rw [roundEnds, ends_one_of_pos hc hrest hx, runLength_cons_of_pos hx, List.range_succ_eq_map, List.reverse_cons, List.map_append,
          ← List.map_reverse, List.map_map]
        simp only [reduceCtorEq, if_false, List.flatMap_singleton, hne, false_and, Nat.zero_sub, Option.map_none,
          hrounds, Nat.lt_irrefl, Bool.false_eq_true, List.map_singleton, Cursor.skip_zero]
        congr 1
        refine List.map_congr_left fun n _ => ?_
        rw [Cursor.skip_skip, Nat.add_comm]
        rfl
      · rw [roundEnds, ends_one_of_neg hc hrest hx, runLength_cons_of_neg (Bool.not_eq_true _ ▸ hx)]
        simp [Cursor.skip_zero]

/-- A run ends at every place behind its first character, the last one first. -/
theorem ends_run (hc : c.Sound) :
    (run items).ends c = (List.range (runLength items c.rest)).reverse.map fun n => c.skip (n + 1) := by
  have hle := runLength_le items c.rest
  rw [run, ends, if_neg (by decide), show (Preference.greedy == .lazy) = false from rfl, roundEnds]
  cases hrest : c.rest with
  | nil => simp [ends_one hc, hrest, runLength]
  | cons x rest =>
    by_cases hx : items.any (·.holds x) = true
    · have htail := Cursor.rest_skip_one hrest
      rw [hrest, runLength_cons_of_pos hx] at hle
      have hrounds : roundEnds (one false items).ends false (c.remaining + 1) 0 none (c.skip 1) = _ :=
        roundEnds_run (hc.skip 1) (by rw [htail, hc, hrest]; omega)
      rw [htail] at hrounds
      rw [ends_one_of_pos hc hrest hx, runLength_cons_of_pos hx]
      simp only [reduceCtorEq, if_false, List.flatMap_singleton, Nat.one_ne_zero, and_false, Nat.sub_self,
        Option.map_none, hrounds, Nat.zero_lt_one, if_true]
      refine List.map_congr_left fun n _ => ?_
      rw [Cursor.skip_skip, Nat.add_comm]
    · rw [ends_one_of_neg hc hrest hx, runLength_cons_of_neg (Bool.not_eq_true _ ▸ hx)]
      rfl

/-- Only the last place of a run counts if what follows cannot begin with its characters. -/
theorem flatMap_run {α : Type} {k : Nat} {f : Nat → List α} (h : ∀ n, n + 1 < k → f (n + 1) = []) :
    ((List.range k).reverse.flatMap fun n => f (n + 1)) = if k = 0 then [] else f k := by
  cases k with
  | zero => rfl
  | succ k =>
    rw [List.range_succ, List.reverse_append, List.reverse_singleton, List.singleton_append, List.flatMap_cons,
      if_neg (Nat.succ_ne_zero k)]
    have hrest : ((List.range k).reverse.flatMap fun n => f (n + 1)) = [] := by
      refine List.flatMap_eq_nil_iff.2 fun n hn => h n ?_
      rw [List.mem_reverse, List.mem_range] at hn
      omega
    rw [hrest, List.append_nil]

def Shuns (items : List CharItem) (q : Pattern) : Prop :=
  ∀ d : Cursor, d.Sound → ∀ x ∈ d.rest.head?, items.any (·.holds x) = true → q.ends d = []

theorem shuns_text {s : String}
    (h : ∀ x ∈ s.toList.head?, items.any (·.holds x) = false) (hs : s ≠ "") :
    Shuns items (seqAll (text s :: qs)) := by
  intro d hd x hx hitems
  refine ends_text_cons_eq_nil hd fun hpre => ?_
  obtain ⟨y, cs, hs⟩ : ∃ y cs, s.toList = y :: cs :=
    List.exists_cons_of_ne_nil fun hnil => hs (String.toList_inj.1 hnil)
  obtain ⟨rest, hrest⟩ := hpre
  rw [hs, List.cons_append] at hrest
  rw [← hrest] at hx
  obtain rfl : y = x := Option.mem_some.1 hx
  rw [h y (by rw [hs]; rfl)] at hitems
  exact nomatch hitems

theorem head?_skip_of_lt {n : Nat} (h : n < runLength items c.rest) :
    ∃ x ∈ (c.skip n).rest.head?, items.any (·.holds x) = true := by
  have hlt : n < c.rest.length := Nat.lt_of_lt_of_le h (runLength_le items c.rest)
  refine ⟨c.rest[n], ?_, ?_⟩
  · show c.rest[n] ∈ (c.rest.drop n).head?
    rw [List.head?_drop]
    exact List.getElem?_eq_getElem hlt
  · have hmem : c.rest[n] ∈ c.rest.takeWhile fun x => items.any (·.holds x) := by
      have heq := (List.takeWhile_prefix (l := c.rest) fun x => items.any (·.holds x)).getElem h
      rw [← heq]
      exact List.getElem_mem h
    exact List.all_eq_true.1 (List.all_takeWhile (p := fun x => items.any (·.holds x))) _ hmem

/-- A run is taken as a whole if what follows cannot begin with its characters. -/
theorem ends_run_then (hc : c.Sound) (hps : Shuns items (seqAll ps)) :
    (seqAll (run items :: ps)).ends c =
      if runLength items c.rest = 0 then [] else (seqAll ps).ends (c.skip (runLength items c.rest)) := by
  rw [ends_seqAll_cons, ends_run hc, List.flatMap_map]
  refine flatMap_run (f := fun n => (seqAll ps).ends (c.skip n)) fun n hn => ?_
  obtain ⟨x, hx, hitems⟩ := head?_skip_of_lt hn
  exact hps _ (hc.skip _) x hx hitems

/-- A place with a text that a group has kept. -/
def keep (c : Cursor) (number : Nat) (s : String) : Cursor :=
  { c with groups := (number, s) :: c.groups }

theorem ends_group_run (hc : c.Sound)
    (hps : Shuns items (seqAll ps)) :
    (seqAll (group number (run items) :: ps)).ends c =
      if runLength items c.rest = 0 then [] else (seqAll ps).ends
        (keep (c.skip (runLength items c.rest)) number (String.ofList (c.rest.take (runLength items c.rest)))) := by
  have hends : (seqAll (group number (run items) :: ps)).ends c =
      (List.range (runLength items c.rest)).reverse.flatMap fun n =>
        (seqAll ps).ends (keep (c.skip (n + 1)) number ((c.skip (n + 1)).textSince c)) := by
    rw [ends_seqAll_cons, ends, ends_run hc, List.map_map, List.flatMap_map]
    rfl
  rw [hends, flatMap_run (f := fun n => (seqAll ps).ends (keep (c.skip n) number ((c.skip n).textSince c)))]
  · rw [Cursor.textSince_skip hc (runLength_le items c.rest)]
  · intro n hn
    obtain ⟨x, hx, hitems⟩ := head?_skip_of_lt hn
    exact hps _ (hc.skip (n + 1)) x hx hitems

theorem head?_ends_group_run (hc : c.Sound)
    (hpos : 0 < runLength items c.rest) :
    ((group number (run items)).ends c).head? =
      some (keep (c.skip (runLength items c.rest)) number (String.ofList (c.rest.take (runLength items c.rest)))) := by
  obtain ⟨k, hk⟩ := Nat.exists_eq_add_one_of_ne_zero (Nat.ne_of_gt hpos)
  rw [ends, ends_run hc, ← Cursor.textSince_skip hc (runLength_le items c.rest), hk, List.range_succ,
    List.reverse_append, List.reverse_singleton, List.singleton_append, List.map_cons, List.map_cons, List.head?_cons]
  rfl

/-! ### One part after the other -/

/-- Patterns in a row take a text up to what is left of it. The texts that groups have kept before and behind it are
given too. -/
def Goes (ps : List Pattern) (cs : List Char) (groups : List (Nat × String)) (left : List Char)
    (groups' : List (Nat × String)) : Prop :=
  ∀ c : Cursor, c.Sound → c.rest = cs → c.groups = groups →
    ∃ d, ((seqAll ps).ends c).head? = some d ∧ d.Sound ∧ d.rest = left ∧ d.groups = groups'

theorem rest_skip {a b : List Char} (hrest : c.rest = a ++ b) : (c.skip a.length).rest = b := by
  show c.rest.drop a.length = b
  rw [hrest, List.drop_left]

namespace Goes

variable {ps : List Pattern} {word more left : List Char} {groups groups' : List (Nat × String)}

theorem nil : Goes [] more groups more groups :=
  fun c hc hrest hgroups => ⟨c, rfl, hc, hrest, hgroups⟩

theorem text {s : String} (h : Goes ps more groups left groups') :
    Goes (text s :: ps) (s.toList ++ more) groups left groups' := by
  intro c hc hrest hgroups
  obtain ⟨d, hd⟩ := h (c.skip s.toList.length) (hc.skip _) (rest_skip hrest) hgroups
  refine ⟨d, ?_⟩
  rw [ends_seqAll_cons, ends_text s hc, if_pos (hrest ▸ List.prefix_append _ _), List.flatMap_singleton,
    ← String.length_toList]
  exact hd

variable {items : List CharItem}

theorem run (hps : Shuns items (seqAll ps)) (hword : ∀ x ∈ word, items.any (·.holds x) = true)
    (hmore : ∀ x ∈ more.head?, items.any (·.holds x) = false) (hne : word ≠ [])
    (h : Goes ps more groups left groups') : Goes (run items :: ps) (word ++ more) groups left groups' := by
  intro c hc hrest hgroups
  obtain ⟨d, hd⟩ := h (c.skip word.length) (hc.skip _) (rest_skip hrest) hgroups
  refine ⟨d, ?_⟩
  rw [ends_run_then hc hps, hrest, runLength_append hword hmore, if_neg fun h => hne (List.length_eq_zero_iff.1 h)]
  exact hd

theorem group (number : Nat) (hps : Shuns items (seqAll ps)) (hword : ∀ x ∈ word, items.any (·.holds x) = true)
    (hmore : ∀ x ∈ more.head?, items.any (·.holds x) = false) (hne : word ≠ [])
    (h : Goes ps more ((number, String.ofList word) :: groups) left groups') :
    Goes (group number (.run items) :: ps) (word ++ more) groups left groups' := by
  intro c hc hrest hgroups
  obtain ⟨d, hd⟩ := h (keep (c.skip word.length) number (String.ofList word)) (hc.skip _) (rest_skip hrest)
    (by rw [← hgroups]; rfl)
  refine ⟨d, ?_⟩
  rw [ends_group_run hc hps, hrest, runLength_append hword hmore, if_neg fun h => hne (List.length_eq_zero_iff.1 h),
    List.take_left]
  exact hd

theorem lastGroup (number : Nat) (hword : ∀ x ∈ word, items.any (·.holds x) = true)
    (hmore : ∀ x ∈ more.head?, items.any (·.holds x) = false) (hne : word ≠ []) :
    Goes [.group number (.run items)] (word ++ more) groups more ((number, String.ofList word) :: groups) := by
  intro c hc hrest hgroups
  have hlength : runLength items c.rest = word.length := by rw [hrest, runLength_append hword hmore]
  refine ⟨keep (c.skip word.length) number (String.ofList word), ?_, hc.skip _, rest_skip hrest, by rw [← hgroups]; rfl⟩
  rw [ends_seqAll_cons, show (seqAll []).ends = fun d => [d] from rfl, List.flatMap_singleton',
    head?_ends_group_run hc (by rw [hlength]; exact List.length_pos_iff.2 hne), hlength, hrest, List.take_left]

end Goes

/-! ### Walking through a text -/

/-- A pattern does not match at the start of a text. -/
def Fails (p : Pattern) (cs : List Char) : Prop :=
  ∀ c : Cursor, c.Sound → c.rest = cs → p.ends c = []

/-- At the start of a text a pattern takes something, with some texts in its groups, and leaves the rest. -/
structure Takes (p : Pattern) (count : Nat) (cs left : List Char) (values : List String) : Prop where
  shorter : left.length < cs.length
  ends : ∀ c : Cursor, c.Sound → c.rest = cs → c.groups = [] →
    ∃ d, (p.ends c).head? = some d ∧ d.Sound ∧ d.rest = left ∧ d.captures count = values

theorem Goes.takes {left : List Char} {groups : List (Nat × String)}
    (h : Goes ps cs [] left groups) (count : Nat) (hshorter : left.length < cs.length) :
    Takes (seqAll ps) count cs left ((List.range count).map fun i => (groups.lookup (i + 1)).getD "") := by
  refine ⟨hshorter, fun c hc hrest hgroups => ?_⟩
  obtain ⟨d, hd, hsound, hleft, rfl⟩ := h c hc hrest hgroups
  exact ⟨d, hd, hsound, hleft, rfl⟩

/-- The matches of a text, by the texts of their groups. -/
inductive Finds (p : Pattern) (count : Nat) : List Char → List (List String) → Prop where
  | done : Fails p [] → Finds p count [] []
  | skip {x : Char} {cs : List Char} {found : List (List String)} :
      Fails p (x :: cs) → Finds p count cs found → Finds p count (x :: cs) found
  | take {cs left : List Char} {values : List String} {found : List (List String)} :
      Takes p count cs left values → Finds p count left found → Finds p count cs (values :: found)

namespace Finds

variable {p : Pattern} {count : Nat} {cs : List Char} {found : List (List String)}

theorem findFrom_eq (h : Finds p count cs found) {fuel : Nat} (hc : c.Sound) (hrest : c.rest = cs)
    (hgroups : c.groups = []) (hfuel : cs.length < fuel) :
    (p.findFrom fuel false c).map (·.captures count) = found := by
  induction h generalizing fuel c with
  | done hfails =>
    obtain ⟨fuel, rfl⟩ := Nat.exists_eq_add_one_of_ne_zero (Nat.ne_of_gt (Nat.zero_lt_of_lt hfuel))
    simp [findFrom, hfails c hc hrest, hrest]
  | @skip x cs found hfails hfinds ih =>
    obtain ⟨fuel, rfl⟩ := Nat.exists_eq_add_one_of_ne_zero (Nat.ne_of_gt (Nat.zero_lt_of_lt hfuel))
    have hnext : (p.findFrom fuel false (c.skip 1)).map (·.captures count) = found :=
      ih (hc.skip 1) (Cursor.rest_skip_one hrest) hgroups (by rw [List.length_cons] at hfuel; omega)
    rw [findFrom, hfails c hc hrest]
    simp only [List.find?_nil, hrest, List.isEmpty_cons, Bool.false_eq_true, if_false, Cursor.advance_eq hc, hnext]
  | @take cs left values found htakes hfinds ih =>
    obtain ⟨fuel, rfl⟩ := Nat.exists_eq_add_one_of_ne_zero (Nat.ne_of_gt (Nat.zero_lt_of_lt hfuel))
    obtain ⟨d, hd, hsound, hleft, hvalues⟩ := htakes.ends c hc hrest hgroups
    have hnext : (p.findFrom fuel false { d with groups := [] }).map (·.captures count) = found :=
      ih hsound hleft rfl (by have hshorter := htakes.shorter; omega)
    have hmoved : (d.remaining == c.remaining) = false := by
      rw [hsound, hc, hleft, hrest, beq_eq_false_iff_ne]
      exact Nat.ne_of_lt htakes.shorter
    have hfind : (p.ends c).find? (fun e => !false || decide (e.remaining < c.remaining)) = some d := by
      cases hends : p.ends c with
      | nil => rw [hends] at hd; exact nomatch hd
      | cons e es =>
        rw [hends] at hd
        cases hd
        rfl
    rw [findFrom]
    simp only [hfind, hmoved, List.map_cons, hvalues, hnext]

theorem of_ends {q : Pattern} (h : Finds p count cs found) (hends : q.ends = p.ends) : Finds q count cs found := by
  induction h with
  | done hfails => exact .done fun c hc hrest => hends ▸ hfails c hc hrest
  | skip hfails _ ih => exact .skip (fun c hc hrest => hends ▸ hfails c hc hrest) ih
  | take htakes _ ih => exact .take ⟨htakes.shorter, hends ▸ htakes.ends⟩ ih

theorem findAll_eq {s : String} (h : Finds p count s.toList found) :
    (p.findAll s).map (·.captures count) = found := by
  rw [← chars_eq] at h
  exact h.findFrom_eq (c := Cursor.ofText (chars s)) rfl rfl rfl (by omega)

/-- Nothing is found in a part of a text at whose places the pattern fails. -/
theorem skipAll {part : List Char} (hpart : ∀ u v, part = u ++ v → v ≠ [] → Fails p (v ++ cs))
    (h : Finds p count cs found) : Finds p count (part ++ cs) found := by
  induction part with
  | nil => exact h
  | cons x part ih =>
    refine .skip (hpart [] (x :: part) rfl (List.cons_ne_nil x part)) (ih fun u v huv hv => ?_)
    exact hpart (x :: u) v (by rw [huv]; rfl) hv

end Finds

end Pattern

end SwitchSynth.Text
