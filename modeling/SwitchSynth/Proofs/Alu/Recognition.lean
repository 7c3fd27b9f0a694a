import SwitchSynth.Proofs.Alu.Expressions
import SwitchSynth.Proofs.Alu.Tokens

/-!
# Descriptions are read by the grammar

The parser reads a description exactly where the grammar has one. It stops at the first token with which no description
goes on; if the tokens in front of it are a description, then that description was read, and if they are not, then this
token is the one that is blamed.
-/

namespace SwitchSynth.Alu

/-! ### Statements -/

theorem exists_mem_statements : ∃ w, w ∈ statements := by
  refine ⟨[.assertFalse], ?_⟩
  rw [language_statement, cons_mem_byFirst]
  rfl

theorem exists_mem_bodies : ∃ w, w ∈ bodies := by
  rw [language_aluBody]
  exact exists_mem_mul exists_mem_statements ⟨[], .inl rfl⟩

theorem exists_mem_arms : ∃ w, w ∈ arms := by
  rw [language_conditionBlock]
  exact exists_mem_mul (exists_mem_singleton _) (exists_mem_mul exists_mem_exprs (exists_mem_mul
    (exists_mem_singleton _) (exists_mem_mul (exists_mem_singleton _) (exists_mem_mul exists_mem_bodies
    (exists_mem_singleton _)))))

theorem exists_mem_elses : ∃ w, w ∈ elses := by
  rw [language_elses]
  exact ⟨[], .inl rfl⟩

/-- Statements by their first token: the same with more statements behind them. -/
theorem bodies_eq_byFirst : bodies = byFirst fun k => stmtRest k * (1 + bodies) := by
  rw [← byFirst_mul, ← language_statement, ← language_aluBody]

variable {k : Kind} {K : Language Kind} {s : Section} {x : List Kind} {ts : List Token}

theorem exists_mem_stmtRest (h : k ∈ Parse.stmtStarts) : ∃ w, w ∈ stmtRest k := by
  have hvalue : ∃ w, w ∈ exprs * {[.semicolon]} := exists_mem_mul exists_mem_exprs (exists_mem_singleton _)
  have hupdate : ∃ w, w ∈ {[.assign]} * (exprs * {[.semicolon]}) := exists_mem_mul (exists_mem_singleton _) hvalue
  have htemp : ∃ w, w ∈ {[.ident]} * ({[.assign]} * (exprs * {[.semicolon]})) :=
    exists_mem_mul (exists_mem_singleton _) hupdate
  simp only [Parse.stmtStarts, List.mem_cons, List.not_mem_nil, or_false] at h
  rcases h with rfl | rfl | rfl | rfl | rfl | rfl
  · exact hupdate
  · exact htemp
  · exact htemp
  · exact hvalue
  · exact exists_mem_mul exists_mem_arms exists_mem_elses
  · exact ⟨[], rfl⟩

theorem elseRest_eq_zero (h : k ∈ Parse.stmtStarts) : elseRest k = 0 := by
  unfold elseRest
  split <;> first | rfl | exact absurd h (by decide)

theorem stmtRest_eq_zero (h : k ∉ Parse.stmtStarts) : stmtRest k = 0 := by
  unfold stmtRest
  split <;> first | rfl | exact absurd (by decide) h

theorem avoids_elseRest_bodies (h : Avoids elseRest K) : Avoids elseRest ((1 + bodies) * K) := by
  intro k x hx
  rw [add_mul, one_mul, Language.mem_add] at hx
  rcases hx with hx | hx
  · exact h k x hx
  · rw [bodies_eq_byFirst, byFirst_mul, cons_mem_byFirst] at hx
    by_cases hk : k ∈ Parse.stmtStarts
    · exact elseRest_eq_zero hk
    · rw [stmtRest_eq_zero hk, zero_mul, zero_mul] at hx
      exact hx.elim

namespace Parse

/-- Statements are read from up to `n` tokens. What follows them may not be mistaken for more of them. -/
structure StmtFuel (n fuel : Nat) : Prop where
  arm : ∀ ts K, ts.length ≤ n →
    Outcome arms K (fun r us _ => Spells (armTree r.1 r.2.tree).tips us) ts (arm fuel ts)
  orElse : ∀ ts K, ts.length ≤ n → Avoids elseRest K →
    Outcome elses K (fun e us _ => Spells (Tree.tipsAll e.trees) us) ts (orElse fuel ts)
  body : ∀ ts K, ts.length ≤ n → Avoids elseRest K → Avoids stmtRest K →
    Outcome bodies K (fun b us _ => Spells b.tree.tips us) ts (body fuel ts)

variable {fuel : Nat} {ts : List Token} {K : Language Kind}

theorem value_outcome {β : Type} {n : Nat} {g : Expr → String → β}
    {R : β → List Token → List Token → Prop} (h : ExprFuel n fuel) (hts : ts.length ≤ n)
    (hR : ∀ e us terminator rest, Spells e.tree.tips us → terminator.kind = .semicolon →
      R (g e terminator.text) (us ++ [terminator]) rest) :
    Outcome (exprs * {[.semicolon]}) K R ts ((do
      let e ← exprAt fuel 0
      return g e (← expect .semicolon) : Parse β) ts) :=
  (h.reads ts _ hts (avoids_singleton_mul rfl _)).bind fun e us _ _ _ he =>
    .expect_map fun terminator rest _ hterminator => hR e us terminator rest he.spells hterminator

theorem temp_outcome {t : Token} {sort : TempSort}
    (ht : t.kind = sort.kind) (hfuel : 2 * ts.length ≤ fuel) :
    Outcome ({[.ident]} * ({[.assign]} * (exprs * {[.semicolon]}))) K (fun s us _ => Spells s.tree.tips (t :: us)) ts
      (temp (fuel + 1) sort (t :: ts)) := by
  rw [temp, expect_bind ht]
  refine .expect_bind fun name rest hrest hname => .expect_bind fun assign rest' hrest' hassign => ?_
  subst hrest hrest'
  simp only [List.length_cons] at hfuel
  refine value_outcome (exprFuel rest'.length fuel (by omega)) le_rfl fun e us terminator _ he hterminator => ?_
  have hmark : sort.kind.spelling.isSome := by cases sort <;> rfl
  exact (spells_mark ht hmark).before ((spells_leaf hname).before ((spells_mark hassign rfl).before
    (he.before (spells_leaf hterminator).last)))

theorem ret_outcome {t : Token} (ht : t.kind = .returnWord)
    (hfuel : 2 * ts.length + 2 ≤ fuel) :
    Outcome (exprs * {[.semicolon]}) K (fun s us _ => Spells s.tree.tips (t :: us)) ts (ret (fuel + 1) (t :: ts)) := by
  rw [ret, expect_bind ht]
  refine value_outcome (exprFuel ts.length fuel hfuel) le_rfl fun e us terminator _ he hterminator => ?_
  exact Spells.last ((spells_mark ht rfl).before (he.before (spells_leaf hterminator).last))

theorem stmt_outcome (h : ∀ n < ts.length, StmtFuel n fuel)
    (hfuel : 2 * ts.length + 2 ≤ fuel) (hK : Avoids elseRest K) :
    Outcome statements K (fun s us _ => Spells s.tree.tips us) ts (stmt (fuel + 1) ts) := by
  rw [language_statement]
  cases ts with
  | nil => exact .fail fun x hx => notMem_byFirst_mul (by simp) hx
  | cons t ts =>
    replace h : StmtFuel ts.length fuel := h _ (Nat.lt_succ_self _)
    have hne {k : Kind} (hk : k ∈ stmtStarts) : ∃ w, w ∈ stmtRest k := exists_mem_stmtRest hk
    rw [List.length_cons] at hfuel
    rw [stmt, peek?_bind, List.head?_cons, Option.map_some]
    cases hk : t.kind
    case ident =>
      simp only [expect_bind hk]
      refine .first hk (hne (by decide)) (.expect_bind fun assign rest hrest hassign => ?_)
      subst hrest
      rw [List.length_cons] at hfuel
      refine value_outcome (exprFuel rest.length fuel (by omega)) le_rfl fun e us terminator _ he hterminator => ?_
      exact (spells_leaf hk).before ((spells_mark hassign rfl).before (he.before (spells_leaf hterminator).last))
    case intWord | bitWord =>
      obtain _ | fuel := fuel
      · omega
      exact .first hk (hne (by decide)) (temp_outcome hk (by omega))
    case returnWord =>
      obtain _ | fuel := fuel
      · omega
      exact .first hk (hne (by decide)) (ret_outcome hk (by omega))
    case ifWord =>
      simp only [expect_bind hk]
      refine .first hk (hne (by decide)) ((h.arm ts _ le_rfl).bind fun r us rest hrest _ hr => ?_)
      subst hrest
      have hlength : rest.length ≤ (us ++ rest).length := by simp
      refine (h.orElse rest K hlength hK).map fun e vs rest _ he => ⟨_, rfl, ?_⟩
      exact (spells_mark hk rfl).before (hr.before he)
    case assertFalse =>
      simp only [expect_bind hk]
      exact .first hk (hne (by decide)) (.pure (spells_mark hk rfl))
    -- No statement starts with any other token.
    all_goals exact .fail fun x hx => notMem_byFirst_mul (by simp [hk, stmtRest]) hx

theorem braced_outcome {β : Type} {n : Nat} {g : Body → β}
    {R : β → List Token → List Token → Prop} (h : StmtFuel n fuel) (hts : ts.length ≤ n)
    (hR : ∀ opening b us close rest, opening.kind = .lbrace → Spells b.tree.tips us → close.kind = .rbrace →
      R (g b) (opening :: (us ++ [close])) rest) :
    Outcome ({[.lbrace]} * (bodies * {[.rbrace]})) K R ts ((do
      let _ ← expect .lbrace
      let inner ← body fuel
      let _ ← expect .rbrace
      return g inner : Parse β) ts) := by
  refine .expect_bind fun opening rest hrest hopening => ?_
  subst hrest
  refine (h.body rest _ (Nat.le_of_succ_le hts) (avoids_singleton_mul rfl _) (avoids_singleton_mul rfl _)).bind
    fun b us _ _ _ hb => .expect_map fun close rest' _ hclose => ?_
  exact hR opening b us close rest' hopening hb hclose

theorem arm_outcome (h : ∀ n < ts.length, StmtFuel n fuel)
    (hfuel : 2 * ts.length ≤ fuel) :
    Outcome arms K (fun r us _ => Spells (armTree r.1 r.2.tree).tips us) ts (arm (fuel + 1) ts) := by
  rw [language_conditionBlock]
  refine .expect_bind fun opening rest hrest hopening => ?_
  subst hrest
  replace h : StmtFuel rest.length fuel := h _ (Nat.lt_succ_self _)
  rw [List.length_cons] at hfuel
  have hcondition := (exprFuel rest.length fuel (by omega)).reads rest
    (({[.rparen]} * ({[.lbrace]} * (bodies * {[.rbrace]}))) * K) le_rfl
    (by rw [mul_assoc]; exact avoids_singleton_mul rfl _)
  refine hcondition.bind fun e us rest' hrest' _ he => .expect_bind fun close rest'' hrest'' hclose => ?_
  subst hrest' hrest''
  refine braced_outcome h (by simp; omega) fun lbrace b vs rbrace _ hlbrace hb hrbrace => ?_
  exact (spells_mark hopening rfl).before (he.spells.before ((spells_mark hclose rfl).before
    ((spells_mark hlbrace rfl).before (hb.before (spells_mark hrbrace rfl).last))))

theorem orElse_outcome (h : ∀ n < ts.length, StmtFuel n fuel)
    (hK : Avoids elseRest K) :
    Outcome elses K (fun e us _ => Spells (Tree.tipsAll e.trees) us) ts (orElse (fuel + 1) ts) := by
  have hskip (hnext : ∀ t ∈ ts.head?, elseRest t.kind = 0) :
      Outcome elses K (fun (e : Else) us _ => Spells (Tree.tipsAll e.trees) us) ts (.ok (.none, ts)) := by
    rw [language_elses]
    exact .skip (fun x hx => notMem_byFirst_mul hnext hx) .nil
  cases ts with
  | nil => exact hskip (by simp)
  | cons t ts =>
    replace h : StmtFuel ts.length fuel := h _ (Nat.lt_succ_self _)
    rw [orElse, peek?_bind, List.head?_cons, Option.map_some]
    cases hk : t.kind
    case elifWord =>
      simp only [expect_bind hk]
      rw [language_elses]
      refine .option hK hk (exists_mem_mul exists_mem_arms exists_mem_elses) ?_
      refine (h.arm ts _ le_rfl).bind fun r us rest hrest _ hr => ?_
      subst hrest
      have hlength : rest.length ≤ (us ++ rest).length := by simp
      refine (h.orElse rest K hlength hK).map fun e vs rest _ he => ⟨_, rfl, ?_⟩
      exact (spells_mark hk rfl).before (hr.before he)
    case elseWord =>
      simp only [expect_bind hk]
      rw [language_elses]
      refine .option hK hk (exists_mem_mul (exists_mem_singleton _) (exists_mem_mul exists_mem_bodies
        (exists_mem_singleton _))) ?_
      refine braced_outcome h le_rfl fun lbrace b vs rbrace _ hlbrace hb hrbrace => ?_
      exact (spells_mark hk rfl).before ((spells_mark hlbrace rfl).before (hb.before (spells_mark hrbrace rfl).last))
    all_goals exact hskip (by simp [hk, elseRest])

theorem body_outcome (h : ∀ n < ts.length, StmtFuel n fuel)
    (hstmt : ∀ K, Avoids elseRest K → Outcome statements K (fun s us _ => Spells s.tree.tips us) ts (stmt fuel ts))
    (helse : Avoids elseRest K) (hmore : Avoids stmtRest K) :
    Outcome bodies K (fun b us _ => Spells b.tree.tips us) ts (body (fuel + 1) ts) := by
  rw [language_aluBody, body]
  refine (hstmt _ (avoids_elseRest_bodies helse)).bind fun s us rest hrest hword hs => ?_
  subst hrest
  rw [peek?_bind]
  have hlast (hnext : ∀ t ∈ rest.head?, t.kind ∉ stmtStarts) :
      Outcome (1 + bodies) K (fun (b : Body) vs _ => Spells b.tree.tips (us ++ vs)) rest (.ok (.last s, rest)) := by
    refine .skip (fun x hx => ?_) ?_
    · rw [bodies_eq_byFirst]
      exact notMem_byFirst_mul (fun t ht => by rw [stmtRest_eq_zero (hnext t ht), zero_mul]) hx
    · rw [List.append_nil]
      exact hs.last
  cases rest with
  | nil => exact hlast (by simp)
  | cons t rest =>
    simp only [List.head?_cons, Option.map_some]
    by_cases hk : t.kind ∈ stmtStarts
    · rw [if_pos hk]
      have hpos : us ≠ [] := by
        rintro rfl
        rw [language_statement] at hword
        exact nil_notMem_byFirst _ hword
      have hne := exists_mem_stmtRest hk
      have hlength : (t :: rest).length < (us ++ t :: rest).length := by
        have := List.length_pos_iff.2 hpos
        simp only [List.length_append]
        omega
      refine .optional ?_ (hmore.notMem hne) ?_ ?_
      · rw [bodies_eq_byFirst]
        exact nil_notMem_byFirst _
      · obtain ⟨w, hw⟩ := exists_mem_mul hne ⟨[], show [] ∈ 1 + bodies from .inl rfl⟩
        rw [bodies_eq_byFirst]
        exact ⟨w, cons_mem_byFirst.2 hw⟩
      · exact ((h _ hlength).body _ K le_rfl helse hmore).map fun b vs rest _ hb => ⟨_, rfl, hs.before hb⟩
    · rw [if_neg hk]
      exact hlast (by simpa using hk)

theorem stmtFuel (n fuel : Nat) (h : 2 * n + 4 ≤ fuel) : StmtFuel n fuel := by
  induction n using Nat.strong_induction_on generalizing fuel with
  | _ n ih =>
    obtain _ | _ | fuel := fuel
    · omega
    · omega
    have hless {ts : List Token} (hts : ts.length ≤ n) (m : Nat) (hm : m < ts.length) : StmtFuel m (fuel + 1) :=
      ih m (by omega) (fuel + 1) (by omega)
    refine ⟨fun ts K hts => ?_, fun ts K hts hK => ?_, fun ts K hts helse hmore => ?_⟩
    · exact arm_outcome (hless hts) (by omega)
    · exact orElse_outcome (hless hts) hK
    · refine body_outcome (hless hts) (fun K hK => ?_) helse hmore
      exact stmt_outcome (fun m hm => ih m (by omega) fuel (by omega)) (by omega) hK

end Parse

/-! ### Headers -/

/-- The two words that an indicator may end with. -/
def indicatorRest : Kind → Language Kind
  | .stateless | .stateful => 1
  | _ => 0

theorem language_stateIndicator :
    Rule.stateIndicator.language = {[.typeWord]} * ({[.colon]} * byFirst indicatorRest) := by
  have hstateless : Rule.stateless.language = {[.stateless]} := by
    rw [Rule.language_eq rfl, Label.form, Form.words_terminal]
  have hstateful : Rule.stateful.language = {[.stateful]} := by
    rw [Rule.language_eq rfl, Label.form, Form.words_terminal]
  have hword : byFirst indicatorRest = {[.stateless]} + {[.stateful]} := by
    apply le_antisymm
    · refine iSup_le fun k => ?_
      unfold indicatorRest
      split <;> simp
    · have hfirst := singleton_mul_le_byFirst indicatorRest
      exact add_le (by simpa [indicatorRest] using hfirst .stateless) (by simpa [indicatorRest] using hfirst .stateful)
  rw [Rule.language_eq rfl, hword, mul_add, mul_add]
  simp [Label.form, hstateless, hstateful]

theorem mem_names_mul :
    k :: x ∈ s.namesRule.language * K ↔ k = .ident ∧ x ∈ (1 + {[.comma]} * s.namesRule.language) * K := by
  rw [language_names, mul_assoc, cons_mem_singleton_mul, ← language_names]

theorem nil_notMem_names_mul (s : Section) (K : Language Kind) : [] ∉ s.namesRule.language * K := by
  rw [language_names, mul_assoc]
  exact nil_notMem_singleton_mul _ _

theorem ident_mem_names (s : Section) : [.ident] ∈ s.namesRule.language := by
  rw [language_names]
  exact cons_mem_singleton_mul.2 ⟨rfl, .inl rfl⟩

theorem notMem_names_mul
    (h : ∀ t ∈ ts.head?, t.kind ≠ .ident) (hx : Fits ts x) : x ∉ s.namesRule.language * K := by
  rcases hx.cases with rfl | ⟨t, ts, x, rfl, rfl⟩
  · exact nil_notMem_names_mul s K
  · exact fun hmem => h t rfl (mem_names_mul.1 hmem).1

namespace Parse

theorem accept_bind_pos {β : Type} {t : Token} {k : Kind} (h : t.kind = k) (f : Bool → Parse β) (ts : List Token) :
    (accept k >>= f) (t :: ts) = f true ts := by
  rw [bind_eq, accept, if_pos h]
  rfl

variable {ts : List Token} {fuel : Nat} {K : Language Kind}

theorem accept_bind_neg {β : Type} {k : Kind} (h : ∀ t ∈ ts.head?, t.kind ≠ k)
    (f : Bool → Parse β) : (accept k >>= f) ts = f false ts := by
  cases ts with
  | nil => rfl
  | cons t ts =>
    rw [bind_eq, accept, if_neg (h t rfl)]
    rfl

theorem names_cons {t : Token} (h : t.kind = .ident) (fuel : Nat) (ts : List Token) :
    names (fuel + 1) (t :: ts) = (accept .comma >>= fun more =>
      if more = true then names fuel >>= fun ns => pure (t.text :: ns) else pure [t.text] : Parse _) ts := by
  rw [names, peek?_bind]
  simp only [List.head?_cons, Option.map_some, h, expect_bind h]

theorem names_cases (fuel : Nat) (ts : List Token) :
    (∃ t ts', ts = t :: ts' ∧ t.kind = .ident) ∨ names (fuel + 1) ts = .error ⟨ts, .oneOf [.ident]⟩ := by
  cases ts with
  | nil => exact .inr rfl
  | cons t ts =>
    by_cases hkind : t.kind = .ident
    · exact .inl ⟨t, ts, rfl, hkind⟩
    · right
      rw [names, peek?_bind, List.head?_cons, Option.map_some]
      generalize t.kind = k at hkind
      cases k <;> first | exact absurd rfl hkind | rfl

theorem names_outcome (s : Section) (hfuel : ts.length < fuel)
    (hK : ∀ x, .comma :: x ∉ K) :
    Outcome s.namesRule.language K (fun ns us _ => ns ≠ [] ∧ Spells (s.namesTree ns).tips us) ts (names fuel ts) := by
  induction fuel generalizing ts with
  | zero => exact absurd hfuel (Nat.not_lt_zero _)
  | succ fuel ih =>
    by_cases hident : ∃ t ts', ts = t :: ts' ∧ t.kind = .ident
    · obtain ⟨t, ts, rfl, ht⟩ := hident
      rw [names_cons ht]
      refine .cons ⟨[], .inl rfl⟩ ?_ (fun x hx => (mem_names_mul.1 hx).2) ?_
      · intro w hw
        rw [language_names]
        exact cons_mem_singleton_mul.2 ⟨ht, hw⟩
      · by_cases hcomma : ∃ comma ts', ts = comma :: ts' ∧ comma.kind = .comma
        · obtain ⟨comma, ts, rfl, hcomma⟩ := hcomma
          rw [accept_bind_pos hcomma]
          have hmore : Outcome s.namesRule.language K (fun ns us _ => ns ≠ [] ∧ Spells (s.namesTree ns).tips us) ts
              (names fuel ts) := ih (by simp only [List.length_cons] at hfuel; omega)
          refine .cons ⟨_, ident_mem_names s⟩ (fun w hw => .inr (cons_mem_singleton_mul.2 ⟨hcomma, hw⟩))
            (fun x hx => ?_) (hmore.map fun ns us _ _ hns => ⟨t.text :: ns, rfl, List.cons_ne_nil _ _, ?_⟩)
          · rw [hcomma, add_mul, one_mul, Language.mem_add, mul_assoc, cons_mem_singleton_mul] at hx
            exact (hx.resolve_left (hK x)).2
          · obtain ⟨name, rest, rfl⟩ := List.exists_cons_of_ne_nil hns.1
            exact (spells_leaf ht).before ((spells_mark hcomma rfl).before hns.2.last)
        · have hnext : ∀ c ∈ ts.head?, c.kind ≠ .comma := by
            rintro c hc hkind
            obtain ⟨ts', rfl⟩ := List.head?_eq_some_iff.1 hc
            exact hcomma ⟨c, ts', rfl, hkind⟩
          rw [accept_bind_neg hnext]
          refine .skip (fun x hx => ?_) ⟨List.cons_ne_nil _ _, spells_leaf ht⟩
          rw [mul_assoc]
          rcases hx.cases with rfl | ⟨c, ts', x, rfl, rfl⟩
          · exact nil_notMem_singleton_mul _ _
          · exact fun hmem => hnext c rfl (cons_mem_singleton_mul.1 hmem).1
    · rw [(names_cases fuel ts).resolve_left hident]
      refine .fail fun x hx => notMem_names_mul (fun t ht hkind => ?_) hx
      obtain ⟨ts', rfl⟩ := List.head?_eq_some_iff.1 ht
      exact hident ⟨t, ts', rfl, hkind⟩

theorem nameSeq_outcome (s : Section) (hfuel : ts.length < fuel) :
    Outcome s.seqRule.language ({[.rbrace]} * K) (fun ns us _ => Spells (s.seqTree ns).tips us) ts
      (nameSeq fuel ts) := by
  rw [language_nameSeq, nameSeq, peek?_bind]
  have hfail (hident : ∀ t ∈ ts.head?, t.kind ≠ .ident) (hbrace : ∀ t ∈ ts.head?, t.kind ≠ .rbrace) (wanted : Wanted) :
      Outcome (1 + s.namesRule.language) ({[.rbrace]} * K) (fun ns us _ => Spells (s.seqTree ns).tips us) ts
        (.error ⟨ts, wanted⟩) := by
    refine .fail fun x hx => ?_
    rw [add_mul, one_mul, Language.mem_add]
    rintro (hmem | hmem)
    · rcases hx.cases with rfl | ⟨t, ts, x, rfl, rfl⟩
      · exact nil_notMem_singleton_mul _ _ hmem
      · exact hbrace t rfl (cons_mem_singleton_mul.1 hmem).1
    · exact notMem_names_mul hident hx hmem
  cases ts with
  | nil => exact hfail (by simp) (by simp) _
  | cons t ts =>
    rw [List.head?_cons, Option.map_some]
    cases hk : t.kind
    case rbrace =>
      refine .skip (fun x hx => notMem_names_mul (by simp [hk]) hx) ?_
      exact .nil
    case ident =>
      have hnames := names_outcome s hfuel (show ∀ x, .comma :: x ∉ {[.rbrace]} * K from
        fun x hx => absurd (cons_mem_singleton_mul.1 hx).1 (by decide))
      refine (Outcome.optional ?_ ?_ ?_ hnames).imp fun ns us _ _ hns => ?_
      · simpa using nil_notMem_names_mul s 1
      · rw [hk]
        exact fun x hx => absurd (cons_mem_singleton_mul.1 hx).1 (by decide)
      · exact ⟨[], by rw [hk]; exact ident_mem_names s⟩
      · obtain ⟨name, rest, rfl⟩ := List.exists_cons_of_ne_nil hns.1
        simpa [Section.seqTree, Tree.tips, Tree.tipsAll] using hns.2
    all_goals exact hfail (by simp [hk]) (by simp [hk]) _

theorem nameSection_outcome (s : Section)
    (hfuel : ts.length < fuel) :
    Outcome s.defRule.language K (fun ns us _ => Spells (s.defTree ns).tips us) ts (nameSection fuel s ts) := by
  rw [language_section]
  refine .expect_bind fun word rest₁ hrest₁ hword => .expect_bind fun word' rest₂ hrest₂ hword' =>
    .expect_bind fun colon rest₃ hrest₃ hcolon => .expect_bind fun opening rest₄ hrest₄ hopening => ?_
  subst hrest₁ hrest₂ hrest₃ hrest₄
  simp only [List.length_cons] at hfuel
  refine (nameSeq_outcome s (by omega)).bind fun ns us _ _ _ hns => .expect_map fun close _ _ hclose => ?_
  have hmarks : (sectionWords s).1.spelling.isSome ∧ (sectionWords s).2.spelling.isSome := by
    cases s <;> exact ⟨rfl, rfl⟩
  have hspells := (spells_mark hword hmarks.1).before ((spells_mark hword' hmarks.2).before
    ((spells_mark hcolon rfl).before ((spells_mark hopening rfl).before (hns.before (spells_mark hclose rfl).last))))
  cases s <;> exact hspells

theorem indicator_outcome :
    Outcome Rule.stateIndicator.language K
      (fun i us _ => Spells i.tree.tips us ∧ (i = .stateless ∨ i = .stateful)) ts (indicator ts) := by
  rw [language_stateIndicator]
  refine .expect_bind fun word rest hrest hword => .expect_bind fun colon rest' hrest' hcolon => ?_
  rw [peek?_bind]
  cases rest' with
  | nil => exact .fail fun x hx => notMem_byFirst_mul (by simp) hx
  | cons t ts =>
    rw [List.head?_cons, Option.map_some]
    cases hk : t.kind
    case stateless | stateful =>
      simp only [expect_bind hk]
      refine .first hk ⟨[], rfl⟩ (.pure ⟨?_, by decide⟩)
      exact (spells_mark hword rfl).before ((spells_mark hcolon rfl).before (spells_mark hk rfl).last)
    all_goals exact .fail fun x hx => notMem_byFirst_mul (by simp [hk, indicatorRest]) hx

/-- The names of a header: state variables, holes and packet fields. -/
abbrev HeaderNames := List String × List String × List String

/-- The part of a description between its indicator and its statements. -/
def header (fuel : Nat) : Parse HeaderNames := do
  let stateVars ← nameSection fuel .stateVars
  let holeVars ← nameSection fuel .holeVars
  let packetFields ← nameSection fuel .packetFields
  return (stateVars, holeVars, packetFields)

theorem declared_eq (fuel : Nat) (i : Indicator) : declared fuel i = do
    let names ← header fuel
    let statements ← body fuel
    return ⟨i, names.1, names.2.1, names.2.2, statements⟩ := by
  simp only [declared, header, bind_assoc, pure_bind]

def headers : Language Kind :=
  Section.stateVars.defRule.language * (Section.holeVars.defRule.language * Section.packetFields.defRule.language)

def HeaderNames.trees (names : HeaderNames) : List Tree :=
  [Section.stateVars.defTree names.1, Section.holeVars.defTree names.2.1, Section.packetFields.defTree names.2.2]

theorem header_outcome (hfuel : ts.length < fuel) :
    Outcome headers K (fun names us _ => Spells (Tree.tipsAll names.trees) us) ts (header fuel ts) := by
  refine (nameSection_outcome .stateVars hfuel).bind fun states us rest hrest _ hstates => ?_
  subst hrest
  rw [List.length_append] at hfuel
  refine (nameSection_outcome .holeVars (by omega)).bind fun holes vs rest hrest _ hholes => ?_
  subst hrest
  rw [List.length_append] at hfuel
  exact (nameSection_outcome .packetFields (by omega)).map fun fields ws _ _ hfields =>
    ⟨_, rfl, hstates.before (hholes.before hfields.last)⟩

theorem description_outcome (ts : List Token) :
    Outcome Rule.alu.language 1
      (fun d us _ => Spells d.tree.tips us ∧ (d.indicator = .stateless ∨ d.indicator = .stateful))
      ts (description (fuelFor ts) ts) := by
  have hfuel : 2 * ts.length + 4 ≤ fuelFor ts := by unfold fuelFor; omega
  generalize fuelFor ts = fuel at hfuel
  have hlanguage : Rule.alu.language = Rule.stateIndicator.language * (headers * bodies) := by
    rw [language_alu, headers, mul_assoc, mul_assoc]
  rw [hlanguage]
  refine indicator_outcome.bind fun i us rest hrest _ hi => ?_
  subst hrest
  rw [List.length_append] at hfuel
  rw [declared_eq]
  refine (header_outcome (by omega)).bind fun names vs rest hrest _ hnames => ?_
  subst hrest
  rw [List.length_append] at hfuel
  refine ((stmtFuel _ fuel (by omega)).body rest 1 le_rfl nofun nofun).map fun b ws _ _ hb => ⟨_, rfl, ?_, hi.2⟩
  have hspells := hi.1.append (hnames.append hb)
  simpa only [HeaderNames.trees, Description.tree, Tree.tips, Tree.tipsAll, List.append_nil, List.append_assoc]
    using hspells

end Parse

/-! ### Tokens of a text -/

theorem lex_spelled {text : String} {t : Token} (h : t ∈ (lex text).tokens) : t.Spelled := by
  intro s hs
  exact String.toList_inj.1 ((mem_texts_of_spelling hs).1 (lex_mem_texts h))

/-! ### Descriptions -/

def Rule.Begins (r : Rule) (ts : List Token) : Prop :=
  ∃ x, kinds ts ++ x ∈ r.language

/-- The place of the first token that makes the tokens up to it the beginning of no description. The end of the
tokens is such a place if there is none before it. -/
structure FirstUnsuitable (ts : List Token) (k : Nat) : Prop where
  within : k ≤ ts.length
  before : ∀ j < k, Rule.alu.Begins (ts.take (j + 1))
  here : k < ts.length → ¬ Rule.alu.Begins (ts.take (k + 1))

theorem Rule.Begins.take {r : Rule} (h : r.Begins ts) (n : Nat) : r.Begins (ts.take n) := by
  obtain ⟨x, hx⟩ := h
  refine ⟨kinds (ts.drop n) ++ x, ?_⟩
  rwa [← List.append_assoc, ← kinds_append, List.take_append_drop]

theorem FirstUnsuitable.unique {k k' : Nat} (h : FirstUnsuitable ts k) (h' : FirstUnsuitable ts k') :
    k = k' := by
  rcases Nat.lt_trichotomy k k' with hlt | rfl | hlt
  · exact absurd (h'.before k hlt) (h.here (Nat.lt_of_lt_of_le hlt h'.within))
  · rfl
  · exact absurd (h.before k' hlt) (h'.here (Nat.lt_of_lt_of_le hlt h.within))

theorem firstUnsuitable_append {us rest : List Token} (hbegins : Rule.alu.Begins us)
    (hnext : ∀ t rest', rest = t :: rest' → ¬ Rule.alu.Begins (us ++ [t])) :
    FirstUnsuitable (us ++ rest) us.length := by
  refine ⟨by simp, fun j hj => ?_, fun hlength => ?_⟩
  · rw [List.take_append_of_le_length hj]
    exact hbegins.take (j + 1)
  · cases rest with
    | nil => simp at hlength
    | cons t rest =>
      rw [List.take_length_add_append]
      exact hnext t rest rfl

theorem exists_mem_alu : ∃ w, w ∈ Rule.alu.language := by
  have hsection (s : Section) : ∃ w, w ∈ s.defRule.language := by
    rw [language_section, language_nameSeq]
    exact exists_mem_mul (exists_mem_singleton _) (exists_mem_mul (exists_mem_singleton _) (exists_mem_mul
      (exists_mem_singleton _) (exists_mem_mul (exists_mem_singleton _) (exists_mem_mul ⟨[], .inl rfl⟩
      (exists_mem_singleton _)))))
  have hindicator : ∃ w, w ∈ Rule.stateIndicator.language := by
    rw [language_stateIndicator]
    exact exists_mem_mul (exists_mem_singleton _) (exists_mem_mul (exists_mem_singleton _)
      ⟨[.stateless], cons_mem_byFirst.2 rfl⟩)
  rw [language_alu]
  exact exists_mem_mul hindicator (exists_mem_mul (hsection _) (exists_mem_mul (hsection _) (exists_mem_mul (hsection _)
    exists_mem_bodies)))

theorem FirstUnsuitable.of_sentence (h : kinds ts ∈ Rule.alu.language) :
    FirstUnsuitable ts ts.length := by
  simpa using @firstUnsuitable_append ts [] ⟨[], by rwa [List.append_nil]⟩ nofun

/-- A description is read from the tokens in front of the first one that does not suit, if they are a whole
description, and as a derivation of just these tokens; otherwise that token is the one to blame. -/
theorem Description.read_exact (lexed : Lexed) :
    (∃ k, FirstUnsuitable lexed.visible k) ∧ ∀ k, FirstUnsuitable lexed.visible k →
      (kinds (lexed.visible.take k) ∈ Rule.alu.language → ∃ d, Description.read lexed = .ok d ∧
        d.tree.Derivation ∧ d.tree.symbol = .nonterminal .alu ∧
        d.tree.tips.map Prod.fst = kinds (lexed.visible.take k) ∧
        ((∀ t ∈ lexed.visible.take k, t.Spelled) → d.tree.tips = (lexed.visible.take k).map Token.tip ∧
          d.tree.leaves = (lexed.visible.take k).map Token.text)) ∧
      (kinds (lexed.visible.take k) ∉ Rule.alu.language →
        Description.read lexed = .error ((lexed.visible[k]?.map Token.position).getD lexed.finish)) := by
  have houtcome := Parse.description_outcome lexed.visible
  generalize hts : lexed.visible = ts at houtcome ⊢
  generalize hresult : Parse.description (fuelFor ts) ts = result at houtcome
  cases houtcome with
  | @read d us rest hread hd hword hiff =>
    subst hread
    rw [mul_one] at hiff
    have hfirst : FirstUnsuitable (us ++ rest) us.length := by
      refine firstUnsuitable_append ⟨[], by rwa [List.append_nil]⟩ ?_
      rintro t rest rfl ⟨x, hx⟩
      rw [kinds_append, List.append_assoc] at hx
      exact nomatch (hiff _ (fits_cons.2 rfl)).1 hx
    refine ⟨⟨_, hfirst⟩, fun k hk => ?_⟩
    obtain rfl := hk.unique hfirst
    rw [List.take_left]
    refine ⟨fun _ => ⟨d, ?_, Description.derivation hd.2, rfl, hd.1.map_fst, fun hspelled => ?_⟩,
      fun h => absurd hword h⟩
    · rw [Description.read, hts, hresult]
    · have htips := hd.1.eq_map hspelled
      refine ⟨htips, ?_⟩
      rw [← Tree.map_snd_tips, htips, List.map_map]
      rfl
  | @failed f us hread hbegun hnone =>
    rw [mul_one] at hbegun hnone
    obtain ⟨z, hz⟩ := exists_mem_alu
    have hfirst : FirstUnsuitable ts us.length := by
      rw [hread]
      refine firstUnsuitable_append (hbegun z hz) ?_
      rintro t rest hrest ⟨x, hx⟩
      rw [kinds_append, List.append_assoc] at hx
      exact hnone _ (by rw [hrest]; exact fits_cons.2 rfl) hx
    refine ⟨⟨_, hfirst⟩, fun k hk => ?_⟩
    obtain rfl := hk.unique hfirst
    have htake : ts.take us.length = us := by rw [hread, List.take_left]
    rw [htake]
    refine ⟨fun hword => absurd hword ?_, fun _ => ?_⟩
    · simpa using hnone [] (fits_nil _)
    · have hposition : f.position lexed.finish = (ts[us.length]?.map Token.position).getD lexed.finish := by
        rw [hread, List.getElem?_append_right le_rfl, Nat.sub_self, Failure.position]
        cases f.rest <;> rfl
      rw [Description.read, hts, hresult, ← hposition]

theorem Description.mem_language {d : Description} (h : d.indicator = .stateless ∨ d.indicator = .stateful) :
    d.tree.tips.map Prod.fst ∈ Rule.alu.language :=
  ⟨d.tree, Description.derivation h, rfl, rfl⟩

/-- A description without any names that returns a constant. -/
def returnsConstant : Lexed :=
  lex ("type : stateless state variables : \x7b\x7d hole variables : \x7b\x7d packet fields : \x7b\x7d " ++
    "return C();")

theorem read_exact_returnsConstant :
    FirstUnsuitable returnsConstant.visible 21 ∧ kinds (returnsConstant.visible.take 21) ∈ Rule.alu.language ∧
      ∃ d, Description.read returnsConstant = .ok d ∧ d.tree.Derivation ∧ d.tree.symbol = .nonterminal .alu ∧
        d.tree.leaves = (returnsConstant.visible.take 21).map Token.text := by
  have hkinds : kinds returnsConstant.visible =
      (Description.tree ⟨.stateless, [], [], [], .last (.ret .const ";")⟩).tips.map Prod.fst := by
    decide +kernel
  have hlength : returnsConstant.visible.length = 21 := by decide +kernel
  have hsentence : kinds returnsConstant.visible ∈ Rule.alu.language := by
    rw [hkinds]
    exact Description.mem_language (.inl rfl)
  have hfirst : FirstUnsuitable returnsConstant.visible 21 := hlength ▸ .of_sentence hsentence
  rw [← List.take_of_length_le hlength.le] at hsentence
  have hspelled : ∀ t ∈ returnsConstant.visible.take 21, t.Spelled :=
    fun t ht => lex_spelled (List.mem_of_mem_filter (List.mem_of_mem_take ht))
  obtain ⟨d, hread, hderivation, hsymbol, -, hleaves⟩ :=
    ((Description.read_exact returnsConstant).2 21 hfirst).1 hsentence
  exact ⟨hfirst, hsentence, d, hread, hderivation, hsymbol, (hleaves hspelled).2⟩

end SwitchSynth.Alu
