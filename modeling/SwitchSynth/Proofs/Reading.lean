/-!
# Reading expressions with the usual precedence

The text of an expression is read from left to right. Operators that wait for their right operand are kept
on a stack, and one that binds less tightly than those on the stack makes them compute first. Values may
stand among the characters, so that a text in which some parts are already evaluated can be read too.

`Reads` says what a text does to any stack that binds less tightly than it. Texts that are put together out
of others are then read by putting the statements together.
-/

namespace SwitchSynth.Reading

/-- What a text is made of: characters, and values of parts that are already evaluated. -/
inductive Symbol where
  | char (c : Char)
  | value (v : Int)
  deriving DecidableEq, Repr

def chars (s : String) : List Symbol :=
  s.toList.map .char

@[simp] theorem chars_append (a b : String) : chars (a ++ b) = chars a ++ chars b := by
  simp [chars]

/-- Operators between two operands. -/
inductive Operator where
  | or | and | eq | ne | lt | gt | add | sub | mul | div
  deriving DecidableEq, Repr

/-- One for a truth, zero for a falsehood. -/
def bit (p : Prop) [Decidable p] : Int :=
  if p then 1 else 0

@[simp] theorem bit_eq_zero {p : Prop} [Decidable p] : bit p = 0 ↔ ¬ p := by
  by_cases h : p <;> simp [bit, h]

namespace Operator

/-- How tightly an operator binds. Negation stands between `and` and the comparisons, and a sign binds as tightly
as a product. -/
def level : Operator → Nat
  | or => 1 | and => 2 | eq | ne | lt | gt => 4 | add | sub => 5 | mul | div => 6

/-- The value of an operator. Every value but zero counts as true. -/
def apply : Operator → Int → Int → Int
  | or, a, b => bit (a ≠ 0 ∨ b ≠ 0)
  | and, a, b => bit (a ≠ 0 ∧ b ≠ 0)
  | eq, a, b => bit (a = b)
  | ne, a, b => bit (a ≠ b)
  | lt, a, b => bit (a < b)
  | gt, a, b => bit (a > b)
  | add, a, b => a + b
  | sub, a, b => a - b
  | mul, a, b => a * b
  | div, a, b => a.tdiv b

end Operator

/-- What waits for a value. -/
inductive Pending where
  | opened
  | not
  | minus
  | binary (o : Operator) (left : Int)
  deriving DecidableEq, Repr

namespace Pending

/-- How tightly it binds. A parenthesis holds back everything before it. -/
def level : Pending → Nat
  | opened => 0 | not => 3 | minus => 6 | binary o _ => o.level

/-- What becomes of the value it waits for. -/
def apply : Pending → Int → Int
  | opened, v => v
  | not, v => bit (v = 0)
  | minus, v => -v
  | binary o left, v => o.apply left v

end Pending

/-- The level of what needs no parentheses anywhere. -/
def atomLevel : Nat := 7

theorem Operator.level_lt_atomLevel (o : Operator) : o.level < atomLevel := by
  cases o <;> decide

theorem Operator.one_le_level (o : Operator) : 1 ≤ o.level := by
  cases o <;> decide

/-- What has been read so far: what waits, and a value that no operator has taken yet. -/
structure State where
  pending : List Pending
  current : Option Int
  deriving DecidableEq, Repr

/-- The words of an expression. -/
inductive Token where
  | value (v : Int)
  | opened
  | closed
  | not
  | operator (o : Operator)
  deriving DecidableEq, Repr

/-- Let all compute that binds at least as tightly as a level. -/
def reduce (level : Nat) : List Pending → Int → List Pending × Int
  | [], v => ([], v)
  | t :: rest, v => if level ≤ t.level then reduce level rest (t.apply v) else (t :: rest, v)

/-- Read a word. A minus without a value before it is a sign. -/
def step (s : State) : Token → Option State
  | .value v => if s.current.isNone then some ⟨s.pending, some v⟩ else none
  | .opened => if s.current.isNone then some ⟨.opened :: s.pending, none⟩ else none
  | .not => if s.current.isNone then some ⟨.not :: s.pending, none⟩ else none
  | .operator o =>
    match s.current with
    | some v => some ⟨.binary o (reduce o.level s.pending v).2 :: (reduce o.level s.pending v).1, none⟩
    | none => if o = .sub then some ⟨.minus :: s.pending, none⟩ else none
  | .closed =>
    match s.current with
    | none => none
    | some v =>
      match reduce 1 s.pending v with
      | (.opened :: rest, w) => some ⟨rest, some w⟩
      | _ => none

/-- The value of all that has been read. -/
def finish (s : State) : Option Int :=
  match s.current with
  | none => none
  | some v =>
    match reduce 1 s.pending v with
    | ([], w) => some w
    | _ => none

/-! ### Words -/

/-- The kinds of characters. Characters of one kind that follow each other make up a word, except for
parentheses. -/
inductive Kind where
  | blank | word | sign | opening | closing
  deriving DecidableEq, Repr

def kind (c : Char) : Kind :=
  if c = ' ' ∨ c = '\n' ∨ c = '\t' then .blank
  else if c = '(' then .opening
  else if c = ')' then .closing
  else if c.isAlphanum ∨ c = '_' ∨ c = '.' then .word
  else .sign

variable {k : Kind} {word : List Char} {waiting : List Pending} {level' : Nat} {s : String} {t : Pending}
  {l : List Symbol}

theorem kind_eq_of_all (h : word.all (fun c => kind c == k) = true) :
    ∀ c ∈ word, kind c = k :=
  fun c hc => beq_iff_eq.1 (List.all_eq_true.1 h c hc)

theorem head_kind (hne : word ≠ []) (h : ∀ c ∈ word, kind c = k) :
    word.head?.map kind = some k := by
  rw [List.head?_eq_some_head hne, Option.map_some, h _ (List.head_mem hne)]

def numeral (digits : String) : Int :=
  Nat.ofDigitChars 10 digits.toList 0

/-- Words with a meaning of their own. -/
def keyword : String → Option Token
  | "or" => some (.operator .or)
  | "and" => some (.operator .and)
  | "not" => some .not
  | "true" => some (.value 1)
  | "false" => some (.value 0)
  | _ => none

def signWord : String → Option Token
  | "||" => some (.operator .or)
  | "&&" => some (.operator .and)
  | "!" => some .not
  | "==" => some (.operator .eq)
  | "!=" => some (.operator .ne)
  | "<" => some (.operator .lt)
  | ">" => some (.operator .gt)
  | "+" => some (.operator .add)
  | "-" => some (.operator .sub)
  | "*" => some (.operator .mul)
  | "/" => some (.operator .div)
  | _ => none

/-- The word of some characters of one kind. Numerals and names have values. -/
def token (σ : String → Int) (word : List Char) : Option Token :=
  if word.head?.map kind = some .sign then signWord (String.ofList word)
  else if word.all Char.isDigit then some (.value (numeral (String.ofList word)))
  else (keyword (String.ofList word)).or (some (.value (σ (String.ofList word))))

/-- A reader in the middle of a word. -/
structure Reader where
  word : List Char
  state : State
  deriving DecidableEq, Repr

variable (σ : String → Int)

/-- Read the word that has come to its end. -/
def flush (r : Reader) : Option State :=
  if r.word = [] then some r.state else (token σ r.word).bind (step r.state)

def feed (r : Reader) : Symbol → Option Reader
  | .value v => ((flush σ r).bind (step · (.value v))).map (⟨[], ·⟩)
  | .char c =>
    match kind c with
    | .blank => (flush σ r).map (⟨[], ·⟩)
    | .opening => ((flush σ r).bind (step · .opened)).map (⟨[], ·⟩)
    | .closing => ((flush σ r).bind (step · .closed)).map (⟨[], ·⟩)
    | k =>
      if r.word.head?.map kind = some k then some ⟨r.word ++ [c], r.state⟩
      else (flush σ r).map (⟨[c], ·⟩)

def feedAll (r : Reader) (symbols : List Symbol) : Option Reader :=
  symbols.foldlM (feed σ) r

def value? (symbols : List Symbol) : Option Int :=
  ((feedAll σ ⟨[], ⟨[], none⟩⟩ symbols).bind (flush σ)).bind finish

/-! ### Putting texts together -/

/-- What waits last binds less tightly than a level. -/
def Looser (level : Nat) (pending : List Pending) : Prop :=
  ∀ t ∈ pending.head?, t.level < level

/-- Let one thing after the other compute that waits. -/
def collapse (waiting : List Pending) (v : Int) : Int :=
  waiting.foldl (fun v t => t.apply v) v

theorem reduce_waiting {level : Nat} {rest : List Pending} {v : Int}
    (hwaiting : ∀ t ∈ waiting, level ≤ t.level) :
    reduce level (waiting ++ rest) v = reduce level rest (collapse waiting v) := by
  induction waiting generalizing v with
  | nil => rfl
  | cons t waiting ih =>
    rw [List.cons_append, reduce, if_pos (hwaiting t List.mem_cons_self)]
    exact ih fun t' ht' => hwaiting t' (List.mem_cons_of_mem t ht')

theorem reduce_append {level : Nat} {rest : List Pending} {v : Int}
    (hwaiting : ∀ t ∈ waiting, level ≤ t.level) (hrest : Looser level rest) :
    reduce level (waiting ++ rest) v = (rest, collapse waiting v) := by
  rw [reduce_waiting hwaiting]
  cases rest with
  | nil => rfl
  | cons t rest =>
    have ht : t.level < level := hrest t rfl
    exact if_neg (by omega)

/-- From a stack that binds less tightly than a level, a text leaves operators that bind at least as tightly
and a value; together they make up the value of the text. -/
def Reads (level : Nat) (symbols : List Symbol) (v : Int) : Prop :=
  ∀ pending, Looser level pending → ∃ r waiting w,
    feedAll σ ⟨[], ⟨pending, none⟩⟩ symbols = some r ∧
    flush σ r = some ⟨waiting ++ pending, some w⟩ ∧
    (∀ t ∈ waiting, level ≤ t.level) ∧ collapse waiting w = v

variable {σ} {level : Nat} {symbols : List Symbol} {v : Int}

theorem Reads.mono (h : Reads σ level symbols v) (hle : level' ≤ level) :
    Reads σ level' symbols v := by
  intro pending hpending
  obtain ⟨r, waiting, w, hfeed, hflush, hwaiting, hv⟩ := h pending fun t ht =>
    Nat.lt_of_lt_of_le (hpending t ht) hle
  exact ⟨r, waiting, w, hfeed, hflush, fun t ht => Nat.le_trans hle (hwaiting t ht), hv⟩

theorem Reads.value?_eq (h : Reads σ level symbols v) (hlevel : 1 ≤ level) :
    value? σ symbols = some v := by
  obtain ⟨r, waiting, w, hfeed, hflush, hwaiting, rfl⟩ := h [] (by simp [Looser])
  have hreduce : reduce 1 (waiting ++ []) w = ([], collapse waiting w) :=
    reduce_append (fun t ht => Nat.le_trans hlevel (hwaiting t ht)) fun t ht => nomatch ht
  rw [List.append_nil] at hreduce hflush
  simp [value?, hfeed, hflush, finish, hreduce]

theorem Reads.unique {w : Int} (h : Reads σ level symbols v) (hlevel : 1 ≤ level)
    (h' : Reads σ level' symbols w) (hlevel' : 1 ≤ level') : v = w := by
  have heq := (h.value?_eq hlevel).symm.trans (h'.value?_eq hlevel')
  exact Option.some.inj heq

theorem feedAll_append (r : Reader) (a b : List Symbol) :
    feedAll σ r (a ++ b) = (feedAll σ r a).bind (feedAll σ · b) := by
  unfold feedAll
  rw [List.foldlM_append]
  rfl

theorem feedAll_cons (r : Reader) (a : Symbol) (rest : List Symbol) :
    feedAll σ r (a :: rest) = (feed σ r a).bind (feedAll σ · rest) := by
  unfold feedAll
  rw [List.foldlM_cons]
  rfl

@[simp] theorem feedAll_nil (r : Reader) : feedAll σ r [] = some r := rfl

@[simp] theorem flush_nil (s : State) : flush σ ⟨[], s⟩ = some s := rfl

theorem feed_blank (r : Reader) : feed σ r (.char ' ') = (flush σ r).map (⟨[], ·⟩) := rfl

theorem feed_opening (r : Reader) :
    feed σ r (.char '(') = ((flush σ r).bind (step · .opened)).map (⟨[], ·⟩) := rfl

theorem feed_closing (r : Reader) :
    feed σ r (.char ')') = ((flush σ r).bind (step · .closed)).map (⟨[], ·⟩) := rfl

theorem feedAll_same (hk : k = .word ∨ k = .sign) {cs : List Char} {s : State}
    (hword : word.head?.map kind = some k) (hcs : ∀ c ∈ cs, kind c = k) :
    feedAll σ ⟨word, s⟩ (cs.map .char) = some ⟨word ++ cs, s⟩ := by
  induction cs generalizing word with
  | nil => simp
  | cons c cs ih =>
    have hc : kind c = k := hcs c List.mem_cons_self
    have hfeed : feed σ ⟨word, s⟩ (.char c) = some ⟨word ++ [c], s⟩ := by
      rcases hk with rfl | rfl <;> simp [feed, hc, hword]
    have hhead : (word ++ [c]).head?.map kind = some k := by
      cases word with
      | nil => exact nomatch hword
      | cons c' word => exact hword
    rw [List.map_cons, feedAll_cons, hfeed, Option.bind_some,
      ih hhead fun c' hc' => hcs c' (List.mem_cons_of_mem c hc')]
    simp

/-- A word begins where none of its kind is being read, and is kept until it ends. -/
theorem feedAll_begins (hk : k = .word ∨ k = .sign) {r : Reader} {s : State}
    (hne : word ≠ []) (hword : ∀ c ∈ word, kind c = k) (hr : ¬ r.word.head?.map kind = some k)
    (hflush : flush σ r = some s) : feedAll σ r (word.map .char) = some ⟨word, s⟩ := by
  cases word with
  | nil => exact absurd rfl hne
  | cons c cs =>
    have hc : kind c = k := hword c List.mem_cons_self
    have hfeed : feed σ r (.char c) = some ⟨[c], s⟩ := by
      rcases hk with rfl | rfl <;> simp [feed, hc, hr, hflush]
    rw [List.map_cons, feedAll_cons, hfeed, Option.bind_some]
    exact feedAll_same hk (by simp [hc]) fun c' hc' => hword c' (List.mem_cons_of_mem c hc')

theorem feedAll_word (hk : k = .word ∨ k = .sign) {s : State}
    (hne : word ≠ []) (hword : ∀ c ∈ word, kind c = k) :
    feedAll σ ⟨[], s⟩ (word.map .char) = some ⟨word, s⟩ :=
  feedAll_begins hk hne hword nofun rfl

/-- What leaves nothing but a value binds more tightly than everything. -/
theorem reads_atom (h : ∀ pending, ∃ r, feedAll σ ⟨[], ⟨pending, none⟩⟩ symbols = some r ∧
    flush σ r = some ⟨pending, some v⟩) : Reads σ atomLevel symbols v := by
  intro pending _
  obtain ⟨r, hfeed, hflush⟩ := h pending
  exact ⟨r, [], v, hfeed, hflush, fun t ht => absurd ht List.not_mem_nil, rfl⟩

theorem reads_value (v : Int) : Reads σ atomLevel [.value v] v :=
  reads_atom fun pending => ⟨⟨[], ⟨pending, some v⟩⟩, rfl, rfl⟩

/-- Characters that make up a word. -/
structure IsWord (word : List Char) : Prop where
  ne_nil : word ≠ []
  kind_eq : ∀ c ∈ word, kind c = .word

theorem IsWord.not_sign (h : IsWord word) :
    ¬ word.head?.map kind = some .sign := by
  simp [head_kind h.ne_nil h.kind_eq]

theorem reads_word (hword : IsWord word)
    (hv : token σ word = some (.value v)) : Reads σ atomLevel (word.map .char) v := by
  refine reads_atom fun pending =>
    ⟨⟨word, ⟨pending, none⟩⟩, feedAll_word (.inl rfl) hword.ne_nil hword.kind_eq, ?_⟩
  simp [flush, hword.ne_nil, hv, step]

theorem reads_group (h : Reads σ level symbols v) (hlevel : 1 ≤ level) :
    Reads σ atomLevel (.char '(' :: symbols ++ [.char ')']) v := by
  refine reads_atom fun pending => ?_
  obtain ⟨r, waiting, w, hfeed, hflush, hwaiting, rfl⟩ := h (.opened :: pending) fun t ht => by
    cases ht
    exact hlevel
  -- The parenthesis on the stack stops what the closing one makes compute.
  have hreduce : reduce 1 (waiting ++ .opened :: pending) w =
      (.opened :: pending, collapse waiting w) :=
    reduce_append (fun t ht => Nat.le_trans hlevel (hwaiting t ht)) fun t ht => by
      cases ht
      exact Nat.zero_lt_one
  refine ⟨⟨[], ⟨pending, some (collapse waiting w)⟩⟩, ?_, rfl⟩
  rw [List.cons_append, feedAll_cons, feed_opening]
  simp only [flush_nil, Option.bind_some, step, Option.isNone_none, if_true, Option.map_some]
  rw [feedAll_append, hfeed, Option.bind_some, feedAll_cons, feed_closing, hflush]
  simp [step, hreduce]

/-- Operators compute what binds more tightly and wait for their right operand. -/
theorem step_operator {o : Operator} {pending : List Pending} {w : Int}
    (hwaiting : ∀ t ∈ waiting, o.level ≤ t.level) (hpending : Looser o.level pending) :
    step ⟨waiting ++ pending, some w⟩ (.operator o) =
      some ⟨.binary o (collapse waiting w) :: pending, none⟩ := by
  simp [step, reduce_append hwaiting hpending]

/-- What is left behind something that waits and the text it waits for. -/
theorem Reads.behind {pending : List Pending} (h : Reads σ (t.level + 1) symbols v) :
    ∃ r waiting w,
      feedAll σ ⟨[], ⟨t :: pending, none⟩⟩ symbols = some r ∧
      flush σ r = some ⟨waiting ++ pending, some w⟩ ∧
      (∀ t' ∈ waiting, t.level ≤ t'.level) ∧ collapse waiting w = t.apply v := by
  obtain ⟨r, waiting, w, hfeed, hflush, hwaiting, rfl⟩ := h (t :: pending) fun t' ht' => by
    cases ht'
    exact Nat.lt_succ_self _
  refine ⟨r, waiting ++ [t], w, hfeed, by simpa using hflush, fun t' ht' => ?_, ?_⟩
  · rcases List.mem_append.1 ht' with ht' | ht'
    · exact Nat.le_of_succ_le (hwaiting t' ht')
    · exact Nat.le_of_eq (congrArg Pending.level (List.mem_singleton.1 ht').symm)
  · simp [collapse]

/-- Characters that spell an operator. -/
structure Spells (word : List Char) (o : Operator) : Prop where
  ne_nil : word ≠ []
  kind_eq : ∃ k, (k = .word ∨ k = .sign) ∧ ∀ c ∈ word, kind c = k
  token_eq : ∀ σ, token σ word = some (.operator o)

theorem Spells.flush_eq {o : Operator} (h : Spells word o) (s : State) :
    flush σ ⟨word, s⟩ = step s (.operator o) := by
  simp [flush, h.ne_nil, h.token_eq]

variable (σ) in
/-- Behind a value, a text goes on with an operator. -/
def Introduces (o : Operator) (symbols rest : List Symbol) : Prop :=
  ∀ (r : Reader) (pending : List Pending) (w : Int), flush σ r = some ⟨pending, some w⟩ →
    feedAll σ r symbols =
      (step ⟨pending, some w⟩ (.operator o)).bind fun s => feedAll σ ⟨[], s⟩ rest

theorem Introduces.reads {o : Operator} {r : List Symbol} {a b : Int} (h : Introduces σ o symbols r)
    (hl : Reads σ o.level l a) (hr : Reads σ (o.level + 1) r b) :
    Reads σ o.level (l ++ symbols) (o.apply a b) := by
  intro pending hpending
  obtain ⟨r₁, waiting, w, hfeed, hflush, hwaiting, rfl⟩ := hl pending hpending
  rw [feedAll_append, hfeed, Option.bind_some, h r₁ _ w hflush, step_operator hwaiting hpending, Option.bind_some]
  exact Reads.behind (t := .binary o (collapse waiting w)) hr

theorem introduces_spaced {o : Operator} {r : List Symbol} (hword : Spells word o) :
    Introduces σ o (.char ' ' :: (word.map .char ++ .char ' ' :: r)) r := by
  intro r₁ pending w hflush
  obtain ⟨k, hk, hkind⟩ := hword.kind_eq
  rw [feedAll_cons, feed_blank, hflush, Option.map_some, Option.bind_some, feedAll_append,
    feedAll_word hk hword.ne_nil hkind, Option.bind_some, feedAll_cons, feed_blank, hword.flush_eq]
  rfl

theorem reads_spaced {o : Operator} {r : List Symbol} {a b : Int}
    (hword : Spells word o) (hl : Reads σ o.level l a) (hr : Reads σ (o.level + 1) r b) :
    Reads σ o.level (l ++ (.char ' ' :: (word.map .char ++ .char ' ' :: r))) (o.apply a b) :=
  (introduces_spaced hword).reads hl hr

/-- A text does not go on with a word of a kind. -/
def Apart (k : Kind) (symbols : List Symbol) : Prop :=
  ∃ x rest, symbols = x :: rest ∧ ∀ c, x = .char c → kind c ≠ k

theorem feedAll_apart {s : State}
    (hword : word.head?.map kind = some k) (h : Apart k symbols) :
    feedAll σ ⟨word, s⟩ symbols = (flush σ ⟨word, s⟩).bind fun s' => feedAll σ ⟨[], s'⟩ symbols := by
  obtain ⟨x, rest, rfl, hx⟩ := h
  have hfeed : feed σ ⟨word, s⟩ x = (flush σ ⟨word, s⟩).bind fun s' => feed σ ⟨[], s'⟩ x := by
    cases x with
    | value v => cases hf : flush σ ⟨word, s⟩ <;> simp [feed, hf]
    | char c =>
      have hc := hx c rfl
      cases hkind : kind c with
      | blank => cases hf : flush σ ⟨word, s⟩ <;> simp [feed, hkind, hf]
      | opening => cases hf : flush σ ⟨word, s⟩ <;> simp [feed, hkind, hf]
      | closing => cases hf : flush σ ⟨word, s⟩ <;> simp [feed, hkind, hf]
      | word =>
        have hne : k ≠ .word := fun h => hc (h ▸ hkind)
        cases hf : flush σ ⟨word, s⟩ <;> simp [feed, hkind, hf, hword, hne]
      | sign =>
        have hne : k ≠ .sign := fun h => hc (h ▸ hkind)
        cases hf : flush σ ⟨word, s⟩ <;> simp [feed, hkind, hf, hword, hne]
  rw [feedAll_cons, hfeed]
  cases flush σ ⟨word, s⟩ with
  | none => rfl
  | some s' => simp [feedAll_cons]

theorem current_of_signWord {word : String} {t : Token} {s s' : State} (hword : signWord word = some t)
    (hstep : step s t = some s') : s'.current = none := by
  -- All signs are operators or negations, and both wait for a value.
  have hkinds : t = .not ∨ ∃ o, t = .operator o := by
    unfold signWord at hword
    split at hword <;> cases hword <;> simp
  rcases hkinds with rfl | ⟨o, rfl⟩
  · simp only [step] at hstep
    split at hstep <;> cases hstep
    rfl
  · simp only [step] at hstep
    split at hstep
    · cases hstep
      rfl
    · split at hstep <;> cases hstep
      rfl

theorem not_sign_of_flush {r : Reader} {pending : List Pending} {w : Int}
    (h : flush σ r = some ⟨pending, some w⟩) : ¬ r.word.head?.map kind = some .sign := by
  intro hsign
  have hne : r.word ≠ [] := by
    intro hnil
    rw [hnil] at hsign
    exact nomatch hsign
  rw [flush, if_neg hne, token, if_pos hsign, Option.bind_eq_some_iff] at h
  obtain ⟨t, ht, hstep⟩ := h
  exact nomatch current_of_signWord ht hstep

theorem spells_sign {o : Operator} (h : signWord s = some (.operator o)) : Spells s.toList o := by
  unfold signWord at h
  split at h <;> cases h <;> exact ⟨by decide, ⟨.sign, .inr rfl, kind_eq_of_all rfl⟩, fun _ => rfl⟩

theorem kind_of_signWord {t : Token} (h : signWord s = some t) : ∀ c ∈ s.toList, kind c = .sign := by
  unfold signWord at h
  split at h <;> cases h <;> exact kind_eq_of_all rfl

theorem introduces_joined {o : Operator} {r : List Symbol}
    (hs : signWord s = some (.operator o)) (hapart : Apart .sign r) : Introduces σ o (chars s ++ r) r := by
  intro r₁ pending w hflush
  have hne := (spells_sign hs).ne_nil
  have hkind := kind_of_signWord hs
  rw [feedAll_append, chars, feedAll_begins (.inr rfl) hne hkind (not_sign_of_flush hflush) hflush,
    Option.bind_some, feedAll_apart (head_kind hne hkind) hapart, (spells_sign hs).flush_eq]

theorem reads_prefixed (hk : k = .word ∨ k = .sign) (hne : word ≠ [])
    (hkind : ∀ c ∈ word, kind c = k) (ht : t.level < atomLevel)
    (hflush : ∀ pending, flush σ ⟨word, ⟨pending, none⟩⟩ = some ⟨t :: pending, none⟩)
    (h : Reads σ level symbols v) (hlevel : 1 ≤ level) :
    Reads σ t.level (word.map .char ++ (.char '(' :: symbols ++ [.char ')'])) (t.apply v) := by
  intro pending _
  have hapart : Apart k (.char '(' :: symbols ++ [.char ')']) :=
    ⟨.char '(', symbols ++ [.char ')'], rfl, by rintro c hc; cases hc; rcases hk with rfl | rfl <;> decide⟩
  rw [feedAll_append, feedAll_word hk hne hkind, Option.bind_some, feedAll_apart (head_kind hne hkind) hapart,
    hflush, Option.bind_some]
  exact Reads.behind ((reads_group h hlevel).mono ht)

theorem reads_minus (h : Reads σ level symbols v) (hlevel : 1 ≤ level) :
    Reads σ 6 (.char '-' :: (.char '(' :: symbols ++ [.char ')'])) (-v) :=
  reads_prefixed (t := .minus) (.inr rfl) (List.cons_ne_nil '-' []) (kind_eq_of_all rfl) (by decide)
    (fun _ => rfl) h hlevel

theorem reads_not (h : Reads σ level symbols v) (hlevel : 1 ≤ level) :
    Reads σ 3 (chars "not" ++ (.char '(' :: symbols ++ [.char ')'])) (bit (v = 0)) :=
  reads_prefixed (t := .not) (.inl rfl) (by decide) (kind_eq_of_all rfl) (by decide) (fun _ => rfl) h hlevel

theorem reads_bang (h : Reads σ level symbols v) (hlevel : 1 ≤ level) :
    Reads σ 3 (.char '!' :: (.char '(' :: symbols ++ [.char ')'])) (bit (v = 0)) :=
  reads_prefixed (t := .not) (.inr rfl) (List.cons_ne_nil '!' []) (kind_eq_of_all rfl) (by decide)
    (fun _ => rfl) h hlevel

/-! ### Texts that read by themselves -/

/-- A state on top of something that waited before. -/
def State.onto (base : List Pending) (s : State) : State :=
  ⟨s.pending ++ base, s.current⟩

/-- What has been read on top of something that waited before. -/
def Reader.onto (base : List Pending) (r : Reader) : Reader :=
  ⟨r.word, r.state.onto base⟩

section Frame

variable {base : List Pending} (hbase : Looser 1 base)
include hbase

theorem reduce_onto (hlevel : 1 ≤ level) (pending : List Pending) (v : Int) :
    reduce level (pending ++ base) v =
      ((reduce level pending v).1 ++ base, (reduce level pending v).2) := by
  induction pending generalizing v with
  | nil =>
    have hloose : Looser level base := fun t ht => Nat.lt_of_lt_of_le (hbase t ht) hlevel
    exact reduce_append (fun t ht => absurd ht List.not_mem_nil) hloose
  | cons t rest ih =>
    by_cases ht : level ≤ t.level
    · rw [List.cons_append, reduce, if_pos ht, ih, reduce, if_pos ht]
    · rw [List.cons_append, reduce, if_neg ht, reduce, if_neg ht]
      rfl

theorem step_onto {s s' : State} {t : Token} (h : step s t = some s') :
    step (s.onto base) t = some (s'.onto base) := by
  obtain ⟨pending, current⟩ := s
  cases t with
  | operator o =>
    cases current with
    | none =>
      by_cases ho : o = .sub <;> simp [step, ho] at h
      subst h
      simp [step, State.onto, ho]
    | some v =>
      simp only [step, Option.some.injEq] at h
      subst h
      simp [step, State.onto, reduce_onto hbase o.one_le_level]
  | closed =>
    cases current with
    | none => exact nomatch h
    | some v =>
      have honto := reduce_onto hbase (Nat.le_refl 1) pending v
      simp only [step] at h
      split at h
      · next rest w hreduce =>
        cases h
        simp [step, State.onto, honto, hreduce]
      · exact nomatch h
  | _ =>
    cases current with
    | none =>
      cases h
      rfl
    | some v => exact nomatch h

theorem flush_onto {r : Reader} {s : State} (h : flush σ r = some s) :
    flush σ (r.onto base) = some (s.onto base) := by
  by_cases hword : r.word = []
  · rw [flush, if_pos hword] at h
    cases h
    exact if_pos hword
  · rw [flush, if_neg hword, Option.bind_eq_some_iff] at h
    obtain ⟨t, ht, hstep⟩ := h
    have hne : (r.onto base).word ≠ [] := hword
    rw [flush, if_neg hne, Option.bind_eq_some_iff]
    exact ⟨t, ht, step_onto hbase hstep⟩

theorem feed_onto {r r' : Reader} {x : Symbol} (h : feed σ r x = some r') :
    feed σ (r.onto base) x = some (r'.onto base) := by
  -- What ends a word reads it, and then a word of its own or nothing.
  have hread {t : Token} (h : ((flush σ r).bind (step · t)).map (Reader.mk []) = some r') :
      ((flush σ (r.onto base)).bind (step · t)).map (Reader.mk []) = some (r'.onto base) := by
    simp only [Option.map_eq_some_iff, Option.bind_eq_some_iff] at h ⊢
    obtain ⟨s', ⟨s, hs, hstep⟩, rfl⟩ := h
    exact ⟨_, ⟨_, flush_onto hbase hs, step_onto hbase hstep⟩, rfl⟩
  have hend {word : List Char} (h : (flush σ r).map (Reader.mk word) = some r') :
      (flush σ (r.onto base)).map (Reader.mk word) = some (r'.onto base) := by
    simp only [Option.map_eq_some_iff] at h ⊢
    obtain ⟨s, hs, rfl⟩ := h
    exact ⟨_, flush_onto hbase hs, rfl⟩
  -- A character that goes on with the word does not touch the stack.
  have hgo {k : Kind} {c : Char} (h : (if r.word.head?.map kind = some k then
      some ⟨r.word ++ [c], r.state⟩ else (flush σ r).map (Reader.mk [c])) = some r') :
      (if (r.onto base).word.head?.map kind = some k then
        some ⟨(r.onto base).word ++ [c], (r.onto base).state⟩
        else (flush σ (r.onto base)).map (Reader.mk [c])) = some (r'.onto base) := by
    by_cases hk : r.word.head?.map kind = some k
    · rw [if_pos hk] at h
      cases h
      exact if_pos hk
    · rw [if_neg hk] at h
      exact (if_neg hk).trans (hend h)
  cases x with
  | value v => exact hread h
  | char c =>
    unfold feed at h ⊢
    cases hkind : kind c <;> simp only [hkind] at h ⊢
    · exact hend h
    · exact hgo h
    · exact hgo h
    · exact hread h
    · exact hread h

theorem feedAll_onto {r r' : Reader} (h : feedAll σ r symbols = some r') :
    feedAll σ (r.onto base) symbols = some (r'.onto base) := by
  induction symbols generalizing r with
  | nil =>
    cases h
    rfl
  | cons x rest ih =>
    rw [feedAll_cons, Option.bind_eq_some_iff] at h
    obtain ⟨r₁, hfeed, hrest⟩ := h
    rw [feedAll_cons, feed_onto hbase hfeed, Option.bind_some]
    exact ih hrest

end Frame

/-- What computes down to the bottom of the stack binds at least as tightly as the level. -/
theorem reduce_eq_nil {pending : List Pending} {w : Int} (h : reduce level pending w = ([], v)) :
    (∀ t ∈ pending, level ≤ t.level) ∧ collapse pending w = v := by
  induction pending generalizing w with
  | nil =>
    cases h
    exact ⟨fun t ht => absurd ht List.not_mem_nil, rfl⟩
  | cons t rest ih =>
    by_cases ht : level ≤ t.level
    · rw [reduce, if_pos ht] at h
      obtain ⟨hrest, hv⟩ := ih h
      refine ⟨fun t' ht' => ?_, hv⟩
      rcases List.mem_cons.1 ht' with rfl | ht'
      · exact ht
      · exact hrest t' ht'
    · rw [reduce, if_neg ht] at h
      exact nomatch (Prod.mk.inj h).1

/-- A text that has a value by itself reads as that value wherever nothing binds it. -/
theorem reads_of_value? (h : value? σ symbols = some v) : Reads σ 1 symbols v := by
  intro base hbase
  unfold value? at h
  rw [Option.bind_assoc, Option.bind_eq_some_iff] at h
  obtain ⟨r, hfeed, h⟩ := h
  rw [Option.bind_eq_some_iff] at h
  obtain ⟨⟨waiting, current⟩, hflush, hfinish⟩ := h
  cases current with
  | none => exact nomatch hfinish
  | some w =>
    simp only [finish] at hfinish
    split at hfinish
    · next w' hreduce =>
      cases hfinish
      obtain ⟨hwaiting, hv⟩ := reduce_eq_nil hreduce
      exact ⟨r.onto base, waiting, w, feedAll_onto hbase hfeed, flush_onto hbase hflush, hwaiting, hv⟩
    · exact nomatch hfinish

/-! ### The words of expressions -/

theorem spells_or : Spells "or".toList .or :=
  ⟨by decide, ⟨.word, .inl rfl, kind_eq_of_all rfl⟩, fun _ => rfl⟩

theorem spells_and : Spells "and".toList .and :=
  ⟨by decide, ⟨.word, .inl rfl, kind_eq_of_all rfl⟩, fun _ => rfl⟩

theorem spells_and_sign : Spells "&&".toList .and := spells_sign rfl

theorem spells_eq : Spells "==".toList .eq := spells_sign rfl

theorem spells_ne : Spells "!=".toList .ne := spells_sign rfl

theorem spells_lt : Spells "<".toList .lt := spells_sign rfl

theorem spells_gt : Spells ">".toList .gt := spells_sign rfl

theorem spells_add : Spells "+".toList .add := spells_sign rfl

theorem spells_sub : Spells "-".toList .sub := spells_sign rfl

/-- A text of decimal digits. -/
structure IsNumeral (s : String) : Prop where
  ne_nil : s.toList ≠ []
  digits : s.toList.all Char.isDigit = true

/-- A text that a value can be given to. -/
structure IsName (s : String) : Prop where
  isWord : IsWord s.toList
  notNumeral : s.toList.all Char.isDigit = false
  notKeyword : keyword s = none

instance (s : String) : Decidable (IsNumeral s) :=
  decidable_of_iff (s.toList ≠ [] ∧ s.toList.all Char.isDigit = true) ⟨fun h => ⟨h.1, h.2⟩, fun h => ⟨h.1, h.2⟩⟩

instance (s : String) : Decidable (IsName s) :=
  decidable_of_iff (s.toList ≠ [] ∧ s.toList.all (fun c => kind c == .word) = true ∧
      s.toList.all Char.isDigit = false ∧ keyword s = none)
    ⟨fun ⟨hne, hword, hdigits, hkeyword⟩ => ⟨⟨hne, kind_eq_of_all hword⟩, hdigits, hkeyword⟩,
      fun h => ⟨h.isWord.ne_nil, List.all_eq_true.2 fun c hc => beq_iff_eq.2 (h.isWord.kind_eq c hc), h.notNumeral,
        h.notKeyword⟩⟩

theorem kind_of_alphanum {c : Char} (h : c.isAlphanum = true) : kind c = .word := by
  have hne (d : Char) (hd : d.isAlphanum = false) : c ≠ d := by
    rintro rfl
    rw [h] at hd
    exact nomatch hd
  unfold kind
  rw [if_neg (by simp [hne ' ' rfl, hne '\n' rfl, hne '\t' rfl]), if_neg (hne '(' rfl),
    if_neg (hne ')' rfl), if_pos (.inl h)]

theorem kind_of_digit {c : Char} (h : c.isDigit = true) : kind c = .word :=
  kind_of_alphanum (by simp [Char.isAlphanum, h])

theorem IsNumeral.isWord (h : IsNumeral s) : IsWord s.toList :=
  ⟨h.ne_nil, fun c hc => kind_of_digit (List.all_eq_true.1 h.digits c hc)⟩

theorem reads_numeral (h : IsNumeral s) : Reads σ atomLevel (chars s) (numeral s) := by
  refine reads_word h.isWord ?_
  rw [token, if_neg h.isWord.not_sign, if_pos h.digits, String.ofList_toList]

theorem reads_name (h : IsName s) : Reads σ atomLevel (chars s) (σ s) := by
  refine reads_word h.isWord ?_
  rw [token, if_neg h.isWord.not_sign, if_neg (by simp [h.notNumeral]), String.ofList_toList,
    h.notKeyword]
  rfl

theorem reads_true : Reads σ atomLevel (chars "true") 1 :=
  reads_word ⟨by decide, kind_eq_of_all rfl⟩ rfl

theorem reads_false : Reads σ atomLevel (chars "false") 0 :=
  reads_word ⟨by decide, kind_eq_of_all rfl⟩ rfl

theorem IsWord.apart (h : IsWord s.toList) : Apart .sign (chars s) := by
  cases hs : s.toList with
  | nil => exact absurd hs h.ne_nil
  | cons c cs =>
    refine ⟨.char c, cs.map .char, by simp [chars, hs], fun c' hc' => ?_⟩
    cases hc'
    rw [h.kind_eq c (by simp [hs])]
    decide

end SwitchSynth.Reading
