import SwitchSynth.Proofs.Alu.Grammar

/-!
# What reading comes to

A parser of a language either reads a word of it or stops at a token. To say that it stops at the right place one has to
say what may follow: `Outcome A K` is about reading a word of `A` in front of a word of `K`. Both results speak about
words that go on with the next token of the text, or that are over at that place. With the language that follows as a
parameter, what two parsers come to one after the other is what each of them comes to, and where a parser looks at the
next token it is enough that the token tells the alternatives apart.
-/

namespace SwitchSynth.Alu

/-! ### Steps of parsers -/

namespace Parse

variable {α β : Type} {p : Parse α} {f : α → Parse β} {t : Token} {k : Kind} {ts rest : List Token} {e : Failure}

theorem bind_eq (p : Parse α) (f : α → Parse β) (ts : List Token) :
    (p >>= f) ts = (p ts).bind fun r => f r.1 r.2 := rfl

theorem bind_eq_ok {b : β} : (p >>= f) ts = .ok (b, rest) ↔
    ∃ a ts', p ts = .ok (a, ts') ∧ f a ts' = .ok (b, rest) := by
  rw [bind_eq]
  cases p ts with
  | error e => exact ⟨nofun, fun ⟨_, _, h, _⟩ => nomatch h⟩
  | ok r =>
    constructor
    · exact fun h => ⟨r.1, r.2, rfl, h⟩
    · rintro ⟨a, ts', ⟨⟩, hf⟩
      exact hf

theorem bind_eq_error (h : (p >>= f) ts = .error e) :
    p ts = .error e ∨ ∃ a ts', p ts = .ok (a, ts') ∧ f a ts' = .error e := by
  rw [bind_eq] at h
  cases hp : p ts with
  | error e' =>
    rw [hp] at h
    cases h
    exact .inl rfl
  | ok r =>
    rw [hp] at h
    exact .inr ⟨r.1, r.2, rfl, h⟩

theorem peek?_bind (f : Option Kind → Parse β) (ts : List Token) :
    (peek? >>= f) ts = f (ts.head?.map Token.kind) ts := rfl

theorem expect_bind (h : t.kind = k) (f : String → Parse β) (ts : List Token) :
    (expect k >>= f) (t :: ts) = f t.text ts := by
  rw [bind_eq, expect, if_pos h]
  rfl

end Parse

/-! ### Words in front of a text -/

def kinds (ts : List Token) : List Kind :=
  ts.map Token.kind

@[simp]
theorem kinds_nil : kinds [] = [] := rfl

@[simp]
theorem kinds_cons (t : Token) (ts : List Token) : kinds (t :: ts) = t.kind :: kinds ts := rfl

@[simp]
theorem kinds_append (us vs : List Token) : kinds (us ++ vs) = kinds us ++ kinds vs :=
  List.map_append

/-- A word that is over or begins with the kind of the next token. -/
def Fits (ts : List Token) (x : List Kind) : Prop :=
  x = [] ∨ x.head? = ts.head?.map Token.kind

theorem fits_nil (ts : List Token) : Fits ts [] :=
  .inl rfl

variable {ts : List Token} {k : Kind} {x : List Kind} {rest : Kind → Language Kind} {K : Language Kind}

theorem fits_cons {t : Token} :
    Fits (t :: ts) (k :: x) ↔ t.kind = k := by
  simp [Fits, eq_comm]

theorem fits_kinds (ts : List Token) : Fits ts (kinds ts) := by
  cases ts with
  | nil => exact fits_nil []
  | cons t ts => exact fits_cons.2 rfl

theorem Fits.append {rest : List Token} (h : Fits rest x) (us : List Token) :
    Fits (us ++ rest) (kinds us ++ x) := by
  cases us with
  | nil => exact h
  | cons t us => exact .inr rfl

theorem Fits.cases (h : Fits ts x) :
    x = [] ∨ ∃ t ts' x', ts = t :: ts' ∧ x = t.kind :: x' := by
  cases x with
  | nil => exact .inl rfl
  | cons k x =>
    cases ts with
    | nil => simp [Fits] at h
    | cons t ts =>
      have hk := fits_cons.1 h
      exact .inr ⟨t, ts, x, rfl, by rw [hk]⟩

/-- What it comes to when a word of `A` is read that a word of `K` has to follow. Either a word of `A` was read, and
what makes a word of `A * K` of it without leaving the text at the next token is a word of `K`; or the tokens in front
of the failure can be completed, but not by anything that begins with the next token, nor by nothing. -/
inductive Outcome {α : Type} (A K : Language Kind) (Q : α → List Token → List Token → Prop) (ts : List Token) :
    Except Failure (α × List Token) → Prop where
  | read {a : α} {us rest : List Token} : ts = us ++ rest → Q a us rest → kinds us ∈ A →
    (∀ x, Fits rest x → (kinds us ++ x ∈ A * K ↔ x ∈ K)) → Outcome A K Q ts (.ok (a, rest))
  | failed {f : Failure} {us : List Token} : ts = us ++ f.rest → (∀ z ∈ A * K, ∃ x, kinds us ++ x ∈ A * K) →
    (∀ x, Fits f.rest x → kinds us ++ x ∉ A * K) → Outcome A K Q ts (.error f)

namespace Outcome

variable {α β : Type} {A B K L : Language Kind} {Q Q' : α → List Token → List Token → Prop}
  {R : β → List Token → List Token → Prop} {ts : List Token}

theorem imp {r : Except Failure (α × List Token)} (h : Outcome A K Q ts r)
    (hQ : ∀ a us rest, ts = us ++ rest → Q a us rest → Q' a us rest) : Outcome A K Q' ts r := by
  cases h with
  | read hts hq hword hiff => exact .read hts (hQ _ _ _ hts hq) hword hiff
  | failed hts hbegun hnone => exact .failed hts hbegun hnone

theorem nothing {a : α} (hA : [] ∈ A) (hK : A * K = K) (h : Q a [] ts) : Outcome A K Q ts (.ok (a, ts)) := by
  have hts : ts = [] ++ ts := rfl
  exact .read hts h hA fun x _ => by rw [hK, kinds_nil, List.nil_append]

theorem pure {a : α} (h : Q a [] ts) : Outcome 1 K Q ts ((Pure.pure a : Parse α) ts) :=
  nothing rfl (one_mul K) h

theorem bind {p : Parse α} {f : α → Parse β} (hp : Outcome A (B * K) Q ts (p ts))
    (hf : ∀ a us rest, ts = us ++ rest → kinds us ∈ A → Q a us rest →
      Outcome B K (fun b vs rest => R b (us ++ vs) rest) rest (f a rest)) :
    Outcome (A * B) K R ts ((p >>= f) ts) := by
  rw [Parse.bind_eq]
  generalize p ts = r at hp
  cases hp with
  | failed hts hbegun hnone =>
    rw [← mul_assoc] at hbegun hnone
    exact .failed hts hbegun hnone
  | @read a us rest hts hq hword hiff =>
    have hnext := hf a us rest hts hword hq
    change Outcome (A * B) K R ts (f a rest)
    generalize f a rest = r at hnext
    cases hnext with
    | @read b vs rest' hrest hr hword' hiff' =>
      subst hts hrest
      refine .read (List.append_assoc us vs rest').symm hr ?_ fun x hx => ?_
      · rw [kinds_append]
        exact Language.append_mem_mul hword hword'
      · rw [kinds_append, List.append_assoc, mul_assoc, hiff _ (hx.append vs), hiff' x hx]
    | @failed e vs hrest hbegun hnone =>
      subst hts
      rw [hrest] at hiff
      have hts : us ++ rest = (us ++ vs) ++ e.rest := by rw [hrest, List.append_assoc]
      refine .failed hts ?_ fun x hx => ?_
      · rw [mul_assoc]
        intro z hz
        obtain ⟨_, -, z', hz', -⟩ := Language.mem_mul.1 hz
        obtain ⟨x, hx⟩ := hbegun z' hz'
        refine ⟨x, ?_⟩
        rw [kinds_append, List.append_assoc]
        exact Language.append_mem_mul hword hx
      · rw [kinds_append, List.append_assoc, mul_assoc, hiff _ (hx.append vs)]
        exact hnone x hx

theorem map {p : Parse α} {f : α → Parse β} (hp : Outcome A K Q ts (p ts))
    (hf : ∀ a us rest, ts = us ++ rest → Q a us rest → ∃ b, f a rest = .ok (b, rest) ∧ R b us rest) :
    Outcome A K R ts ((p >>= f) ts) := by
  rw [← one_mul K] at hp
  have hbind : Outcome (A * 1) K R ts ((p >>= f) ts) := by
    refine hp.bind fun a us rest hts _ hq => ?_
    obtain ⟨b, hb, hr⟩ := hf a us rest hts hq
    rw [hb]
    exact .pure (by rwa [List.append_nil])
  rwa [mul_one] at hbind

variable {t : Token} {k : Kind}

theorem cons {r : Except Failure (α × List Token)} (hne : ∃ w, w ∈ B)
    (hsub : ∀ w ∈ B, t.kind :: w ∈ L) (hchoice : ∀ x, t.kind :: x ∈ L * K → x ∈ B * K)
    (h : Outcome B K (fun a us rest => Q a (t :: us) rest) ts r) : Outcome L K Q (t :: ts) r := by
  have hmem (x : List Kind) : t.kind :: x ∈ L * K ↔ x ∈ B * K := by
    refine ⟨hchoice x, ?_⟩
    rintro ⟨w, hw, y, hy, rfl⟩
    exact Language.append_mem_mul (hsub w hw) hy
  cases h with
  | @read a us rest hts hq hword hiff =>
    refine .read (congrArg (t :: ·) hts) hq (hsub _ hword) fun x hx => ?_
    rw [kinds_cons, List.cons_append, hmem, hiff x hx]
  | @failed f us hts hbegun hnone =>
    have hts' : t :: ts = (t :: us) ++ f.rest := congrArg (t :: ·) hts
    refine .failed hts' ?_ fun x hx => ?_
    · intro z hz
      obtain ⟨_, -, y, hy, -⟩ := Language.mem_mul.1 hz
      obtain ⟨w, hw⟩ := hne
      obtain ⟨x, hx⟩ := hbegun _ (Language.append_mem_mul hw hy)
      exact ⟨x, (hmem _).2 hx⟩
    · rw [kinds_cons, List.cons_append, hmem]
      exact hnone x hx

theorem fail {w : Wanted} (h : ∀ x, Fits ts x → x ∉ L * K) : Outcome L K Q ts (.error ⟨ts, w⟩) := by
  have hts : ts = [] ++ (Failure.mk ts w).rest := rfl
  exact .failed hts (fun z hz => ⟨z, hz⟩) h

theorem skip {a : α} (h : ∀ x, Fits ts x → x ∉ L * K) (hq : Q a [] ts) :
    Outcome (1 + L) K Q ts (.ok (a, ts)) := by
  refine .read rfl hq (.inl rfl) fun x hx => ?_
  rw [add_mul, one_mul, kinds_nil, List.nil_append, Language.mem_add]
  exact or_iff_left (h x hx)

/-- An optional part that the next token begins is read, if the token cannot follow it. -/
theorem optional {r : Except Failure (α × List Token)} (hnil : [] ∉ L)
    (hK : ∀ x, t.kind :: x ∉ K) (hbegins : ∃ x, t.kind :: x ∈ L) (h : Outcome L K Q (t :: ts) r) :
    Outcome (1 + L) K Q (t :: ts) r := by
  have hmem (x : List Kind) : t.kind :: x ∈ (1 + L) * K ↔ t.kind :: x ∈ L * K := by
    rw [add_mul, one_mul, Language.mem_add]
    exact or_iff_right (hK x)
  cases h with
  | @read a us rest hts hq hword hiff =>
    refine .read hts hq (.inr hword) fun x hx => ?_
    cases us with
    | nil => exact absurd hword hnil
    | cons t' us =>
      cases hts
      rw [← hiff x hx]
      exact hmem _
  | @failed f us hts hbegun hnone =>
    by_cases hne : ∃ z, z ∈ K
    · -- Some word begins with the token, so it is not the one that does not fit.
      obtain ⟨y, hy⟩ := hbegins
      obtain ⟨z, hz⟩ := hne
      have hword : t.kind :: (y ++ z) ∈ L * K := Language.append_mem_mul hy hz
      cases us with
      | nil =>
        have hfits : Fits f.rest (t.kind :: (y ++ z)) := by
          rw [List.nil_append] at hts
          rw [← hts]
          exact fits_cons.2 rfl
        exact absurd hword (hnone _ hfits)
      | cons t' us =>
        cases hts
        have hts : t :: (us ++ f.rest) = (t :: us) ++ f.rest := rfl
        refine .failed hts (fun _ _ => ?_) fun x hx hmore => hnone x hx ((hmem _).1 hmore)
        obtain ⟨x, hx⟩ := hbegun _ hword
        exact ⟨x, (hmem _).2 hx⟩
    · have hnever (A : Language Kind) (x : List Kind) : x ∉ A * K := by
        rintro ⟨_, -, z, hz, -⟩
        exact hne ⟨z, hz⟩
      exact .failed hts (fun z hz => absurd hz (hnever _ z)) fun x _ => hnever _ _

theorem expect (k : Kind) :
    Outcome {[k]} K (fun s us _ => ∃ t, us = [t] ∧ t.kind = k ∧ t.text = s) ts (Parse.expect k ts) := by
  have hword (x : List Kind) : [k] ++ x ∈ {[k]} * K ↔ x ∈ K := by
    rw [List.singleton_append, cons_mem_singleton_mul]
    exact and_iff_right rfl
  cases ts with
  | nil =>
    refine fail fun x hx => ?_
    rcases hx.cases with rfl | ⟨t, ts, x, hts, -⟩
    · exact nil_notMem_singleton_mul k K
    · exact nomatch hts
  | cons t ts =>
    rw [Parse.expect]
    split
    · next hkind =>
      have hts : t :: ts = [t] ++ ts := rfl
      refine .read hts ⟨t, rfl, hkind, rfl⟩ (congrArg (fun k => [k]) hkind) fun x _ => ?_
      rw [kinds_cons, kinds_nil, hkind]
      exact hword x
    · next hkind =>
      refine fail fun x hx => ?_
      rcases hx.cases with rfl | ⟨t', ts', x, hts, rfl⟩
      · exact nil_notMem_singleton_mul k K
      · cases hts
        exact fun hmem => hkind (cons_mem_singleton_mul.1 hmem).1

theorem expect_bind {f : String → Parse β}
    (h : ∀ t rest, ts = t :: rest → t.kind = k →
      Outcome B K (fun b us rest => R b (t :: us) rest) rest (f t.text rest)) :
    Outcome ({[k]} * B) K R ts ((Parse.expect k >>= f) ts) := by
  refine (Outcome.expect k).bind fun s us rest hts _ hread => ?_
  obtain ⟨t, rfl, hkind, rfl⟩ := hread
  exact h t rest hts hkind

theorem expect_map {g : String → β}
    (h : ∀ t rest, ts = t :: rest → t.kind = k → R (g t.text) [t] rest) :
    Outcome {[k]} K R ts ((Parse.expect k >>= fun s => Pure.pure (g s)) ts) := by
  refine (Outcome.expect k).map fun s us rest hts hread => ⟨g s, rfl, ?_⟩
  obtain ⟨t, rfl, hkind, rfl⟩ := hread
  exact h t rest hts hkind

theorem first {rest : Kind → Language Kind} {r : Except Failure (α × List Token)}
    (hk : t.kind = k) (hne : ∃ w, w ∈ rest k) (h : Outcome (rest k) K (fun a us rest => Q a (t :: us) rest) ts r) :
    Outcome (byFirst rest) K Q (t :: ts) r := by
  subst hk
  refine cons hne (fun w hw => cons_mem_byFirst.2 hw) (fun x hx => ?_) h
  rwa [byFirst_mul, cons_mem_byFirst] at hx

/-- Where a word of the language and what may follow it stand, the word is read. -/
theorem reads_word {us rest : List Token} {r : Except Failure (α × List Token)}
    (h : Outcome A {kinds rest} Q (us ++ rest) r) (hus : kinds us ∈ A) : ∃ a, r = .ok (a, rest) ∧ Q a us rest := by
  have hword : kinds (us ++ rest) ∈ A * {kinds rest} := by
    rw [kinds_append]
    exact Language.append_mem_mul hus rfl
  generalize hts : us ++ rest = ts at h hword
  cases h with
  | @read a us' rest' hts' hq _ hiff =>
    rw [hts', kinds_append, hiff _ (fits_kinds rest')] at hword
    have hlength : rest'.length = rest.length := by simpa [kinds] using congrArg List.length hword
    obtain ⟨rfl, rfl⟩ := List.append_inj' (hts.trans hts') hlength.symm
    exact ⟨a, rfl, hq⟩
  | @failed f us' hts' _ hnone =>
    rw [hts', kinds_append] at hword
    exact absurd hword (hnone _ (fits_kinds f.rest))

end Outcome

/-- No word of a language by first tokens fits where it goes on with nothing. -/
theorem notMem_byFirst_mul
    (h : ∀ t ∈ ts.head?, rest t.kind = 0) (hx : Fits ts x) : x ∉ byFirst rest * K := by
  rw [byFirst_mul]
  rcases hx.cases with rfl | ⟨t, ts, x, rfl, rfl⟩
  · exact nil_notMem_byFirst _
  · rw [cons_mem_byFirst, h t rfl, zero_mul]
    exact id

/-- No word begins with a token that something else could go on with instead. -/
def Avoids (rest : Kind → Language Kind) (K : Language Kind) : Prop :=
  ∀ k x, k :: x ∈ K → rest k = 0

theorem avoids_singleton_mul (h : rest k = 0) (B : Language Kind) :
    Avoids rest ({[k]} * B) := by
  intro k' x hx
  rwa [(cons_mem_singleton_mul.1 hx).1]

theorem Avoids.notMem (h : Avoids rest K)
    (hne : ∃ w, w ∈ rest k) (x : List Kind) : k :: x ∉ K := by
  intro hx
  obtain ⟨w, hw⟩ := hne
  rw [h k x hx] at hw
  exact hw

/-- An optional part that the next token begins, if the token cannot follow it. -/
theorem Outcome.option {α : Type}
    {Q : α → List Token → List Token → Prop} {t : Token}
    {r : Except Failure (α × List Token)} (hK : Avoids rest K) (hk : t.kind = k) (hne : ∃ w, w ∈ rest k)
    (h : Outcome (rest k) K (fun a us rest => Q a (t :: us) rest) ts r) :
    Outcome (1 + byFirst rest) K Q (t :: ts) r := by
  subst hk
  refine .cons hne (fun w hw => .inr (cons_mem_byFirst.2 hw)) (fun x hx => ?_) h
  rw [add_mul, one_mul, Language.mem_add, byFirst_mul, cons_mem_byFirst] at hx
  exact hx.resolve_left (hK.notMem hne x)

end SwitchSynth.Alu
