import SwitchSynth.Proofs.Ends
import SwitchSynth.Proofs.Sketch.Helpers

/-!
# Walking through a stateful ALU

The primitives of an ALU are met in one order: statement by statement, and in an expression the operands of a
primitive before itself. A `Walk` is the list of those that are met in a part of an ALU, with the error at which
the walk stops. Writing an ALU goes along its walk: every primitive that is met gets a helper, which is numbered
by the helpers of its family before it.
-/

namespace SwitchSynth

namespace Alu

def Expr.parts : Expr → List Expr
  | .var name => [.var name]
  | .num digits => [.num digits]
  | .truth => [.truth]
  | .const => [.const]
  | .paren inner close => .paren inner close :: inner.parts
  | .binary op left right => .binary op left right :: (left.parts ++ right.parts)
  | .not operand => .not operand :: operand.parts
  | .ternary condition yes no => .ternary condition yes no :: (condition.parts ++ yes.parts ++ no.parts)
  | .mux2 a b => .mux2 a b :: (a.parts ++ b.parts)
  | .mux3 a b c => .mux3 a b c :: (a.parts ++ b.parts ++ c.parts)
  | .mux3Num a b digits => .mux3Num a b digits :: (a.parts ++ b.parts)
  | .mux4 a b c d => .mux4 a b c d :: (a.parts ++ b.parts ++ c.parts ++ d.parts)
  | .mux5 a b c d e => .mux5 a b c d e :: (a.parts ++ b.parts ++ c.parts ++ d.parts ++ e.parts)
  | .opt operand => .opt operand :: operand.parts
  | .arith a b => .arith a b :: (a.parts ++ b.parts)
  | .compute a b => .compute a b :: (a.parts ++ b.parts)
  | .rel a b => .rel a b :: (a.parts ++ b.parts)
  | .bool a b => .bool a b :: (a.parts ++ b.parts)

mutual
/-- The expressions of a statement, with all that they are made of. -/
def Stmt.parts : Stmt → List Expr
  | .update _ value _ | .temp _ _ value _ | .ret value _ => value.parts
  | .branch condition inner rest => condition.parts ++ (inner.parts ++ rest.parts)
  | .assertFalse => []
def Body.parts : Body → List Expr
  | .last s => s.parts
  | .cons s rest => s.parts ++ rest.parts
/-- The expressions of the later arms of a branch, with all that they are made of. -/
def Else.parts : Else → List Expr
  | .none => []
  | .elif condition inner rest => condition.parts ++ (inner.parts ++ rest.parts)
  | .otherwise inner => inner.parts
end

end Alu

open Alu (Expr Stmt Body Else)

namespace Sketch

/-- The primitives of an expression, in the order in which they are met. -/
def primitives : Expr → List Primitive
  | .var _ | .num _ | .truth => []
  | .const => [.constant]
  | .paren inner _ => primitives inner
  | .binary _ left right => primitives left ++ primitives right
  | .not operand => primitives operand
  | .ternary condition yes no => primitives condition ++ primitives yes ++ primitives no
  | .mux2 a b => primitives a ++ primitives b ++ [.mux2]
  | .mux3 a b c => primitives a ++ primitives b ++ primitives c ++ [.mux3]
  | .mux3Num a b digits => primitives a ++ primitives b ++ [.mux3Num digits]
  | .mux4 a b c d => primitives a ++ primitives b ++ primitives c ++ primitives d ++ [.mux4]
  | .mux5 a b c d e =>
    primitives a ++ primitives b ++ primitives c ++ primitives d ++ primitives e ++ [.mux5]
  | .opt operand => primitives operand ++ [.opt]
  | .arith a b => primitives a ++ primitives b ++ [.arithOp]
  | .compute a b => primitives a ++ primitives b ++ [.computeAlu]
  | .rel a b => primitives a ++ primitives b ++ [.relOp]
  | .bool a b => primitives a ++ primitives b ++ [.boolOp]

variable {p : Primitive} {es : List Expr} {alu : String} {before fs : List Family}

theorem primitives_of_primitive {e : Expr}
    (h : primitive? e = some (p, es)) : primitives e = es.flatMap primitives ++ [p] := by
  cases e <;> cases h <;> simp [primitives]

theorem parts_of_primitive {e : Expr} (h : primitive? e = some (p, es)) :
    e.parts = e :: es.flatMap Expr.parts := by
  cases e <;> cases h <;> simp [Expr.parts]

@[elab_as_elim]
theorem primitive_induction {P : Expr → Prop} (var : ∀ name, P (.var name))
    (num : ∀ digits, P (.num digits)) (truth : P .truth)
    (paren : ∀ inner close, P inner → P (.paren inner close))
    (binary : ∀ op left right, P left → P right → P (.binary op left right))
    (not : ∀ operand, P operand → P (.not operand))
    (ternary : ∀ condition yes no, P condition → P yes → P no → P (.ternary condition yes no))
    (primitive : ∀ e p es, primitive? e = some (p, es) → (∀ x ∈ es, P x) → P e) (e : Expr) : P e := by
  induction e with
  | var name => exact var name
  | num digits => exact num digits
  | truth => exact truth
  | paren inner close ih => exact paren inner close ih
  | binary op left right ihl ihr => exact binary op left right ihl ihr
  | not operand ih => exact not operand ih
  | ternary condition yes no ihc ihy ihn => exact ternary condition yes no ihc ihy ihn
  | const => exact primitive _ _ _ rfl (by simp)
  | opt a iha => exact primitive _ _ _ rfl (by simpa using iha)
  | mux3 a b c iha ihb ihc => exact primitive _ _ _ rfl (by simpa using ⟨iha, ihb, ihc⟩)
  | mux4 a b c d iha ihb ihc ihd => exact primitive _ _ _ rfl (by simpa using ⟨iha, ihb, ihc, ihd⟩)
  | mux5 a b c d e iha ihb ihc ihd ihe =>
    exact primitive _ _ _ rfl (by simpa using ⟨iha, ihb, ihc, ihd, ihe⟩)
  | mux2 a b iha ihb | mux3Num a b _ iha ihb | arith a b iha ihb | compute a b iha ihb
  | rel a b iha ihb | bool a b iha ihb => exact primitive _ _ _ rfl (by simpa using ⟨iha, ihb⟩)

def numbered (hs : List Helper) (ps : List Primitive) : List Helper :=
  ps.foldl (fun hs p => hs ++ [⟨p, familyCount p.family hs⟩]) hs

@[simp] theorem numbered_nil (hs : List Helper) : numbered hs [] = hs := rfl

@[simp] theorem numbered_append (hs : List Helper) (ps qs : List Primitive) :
    numbered hs (ps ++ qs) = numbered (numbered hs ps) qs :=
  List.foldl_append

theorem primitives_numbered (hs : List Helper) (ps : List Primitive) :
    (numbered hs ps).map Helper.primitive = hs.map Helper.primitive ++ ps := by
  induction ps generalizing hs with
  | nil => simp
  | cons p ps ih =>
    have hcons : numbered hs (p :: ps) = numbered (hs ++ [⟨p, familyCount p.family hs⟩]) ps := rfl
    rw [hcons, ih]
    simp

theorem helpersAfterAll_eq_numbered
    (hes : ∀ e ∈ es, ∀ hs, helpersAfter e hs = numbered hs (primitives e)) (hs : List Helper) :
    helpersAfterAll es hs = numbered hs (es.flatMap primitives) := by
  induction es generalizing hs with
  | nil => rfl
  | cons e es ih =>
    rw [List.flatMap_cons, numbered_append, ← hes e List.mem_cons_self]
    exact ih (fun e' he' => hes e' (List.mem_cons_of_mem e he')) _

theorem helpersAfter_eq_numbered (e : Expr) (hs : List Helper) :
    helpersAfter e hs = numbered hs (primitives e) := by
  induction e using primitive_induction generalizing hs with
  | var name => rfl
  | num digits => rfl
  | truth => rfl
  | paren inner _ ih => exact ih hs
  | binary _ left right ihl ihr =>
    show helpersAfter right (helpersAfter left hs) = numbered hs (primitives left ++ primitives right)
    rw [ihl, ihr, numbered_append]
  | not operand ih => exact ih hs
  | ternary condition yes no ihc ihy ihn =>
    show helpersAfter no (helpersAfter yes (helpersAfter condition hs)) =
      numbered hs (primitives condition ++ primitives yes ++ primitives no)
    rw [ihc, ihy, ihn, numbered_append, numbered_append]
  | primitive e p es hp ih =>
    have hafter : helpersAfter e hs = _ := congrArg Prod.snd (run_exprCode_of_primitive hp hs)
    rw [hafter, helpersAfterAll_eq_numbered ih, primitives_of_primitive hp, numbered_append]
    rfl

/-! ### The holes of a list of primitives -/

/-- The holes of primitives of some families, numbered one way or another by the families before them. -/
def holeKeys (alu : String) (number : List Family → Family → Nat) :
    List Family → List Family → List String
  | _, [] => []
  | before, f :: fs => f.globalHole alu (number before f) :: holeKeys alu number (before ++ [f]) fs

theorem holeKeys_append (alu : String) (number : List Family → Family → Nat)
    (before fs gs : List Family) :
    holeKeys alu number before (fs ++ gs) =
      holeKeys alu number before fs ++ holeKeys alu number (before ++ fs) gs := by
  induction fs generalizing before with
  | nil => simp [holeKeys]
  | cons f fs ih => simp [holeKeys, ih]

/-- Two ways to number give the same holes if they give the same numbers. -/
theorem holeKeys_eq_iff {number number' : List Family → Family → Nat} :
    holeKeys alu number before fs = holeKeys alu number' before fs ↔
      ∀ done f rest, fs = done ++ f :: rest → number (before ++ done) f = number' (before ++ done) f := by
  induction fs generalizing before with
  | nil => simp [holeKeys]
  | cons f fs ih =>
    rw [holeKeys, holeKeys, List.cons.injEq, ih]
    constructor
    · rintro ⟨hhead, htail⟩ done g rest hsplit
      cases done with
      | nil =>
        obtain ⟨rfl, -⟩ := List.cons.inj hsplit
        simpa using (Family.globalHole_inj hhead).2
      | cons f' done =>
        obtain ⟨rfl, hrest⟩ := List.cons.inj hsplit
        simpa using htail done g rest hrest
    · intro h
      refine ⟨?_, fun done g rest hsplit => ?_⟩
      · have hnumber := h [] f fs rfl
        rw [List.append_nil] at hnumber
        rw [hnumber]
      · simpa using h (f :: done) g rest (by rw [hsplit]; rfl)

/-- Primitives are numbered by those of their family before them. -/
def ownNumber (before : List Family) (f : Family) : Nat :=
  before.count f

theorem number_of_mem_ownKeys {f : Family} {n : Nat}
    (h : f.globalHole alu n ∈ holeKeys alu ownNumber before fs) :
    before.count f ≤ n ∧ n < before.count f + fs.count f := by
  induction fs generalizing before with
  | nil => exact nomatch h
  | cons g fs ih =>
    rw [holeKeys] at h
    have hcount : (before ++ [g]).count f + fs.count f = before.count f + (g :: fs).count f := by
      rw [List.count_append, List.count_cons, List.count_cons, List.count_nil]
      omega
    rcases List.mem_cons.1 h with h | h
    · obtain ⟨rfl, rfl⟩ := Family.globalHole_inj h
      rw [List.count_cons_self, ownNumber]
      omega
    · have hbounds := ih h
      rw [hcount, List.count_append] at hbounds
      omega

theorem ownKeys_nodup (alu : String) (before fs : List Family) : (holeKeys alu ownNumber before fs).Nodup := by
  induction fs generalizing before with
  | nil => exact List.nodup_nil
  | cons f fs ih =>
    rw [holeKeys]
    refine List.nodup_cons.2 ⟨fun hmem => ?_, ih _⟩
    have hle := (number_of_mem_ownKeys hmem).1
    rw [ownNumber, List.count_append, List.count_singleton_self] at hle
    omega

theorem globalHoles_numbered (alu : String) (hs : List Helper) (ps : List Primitive) :
    (numbered hs ps).map (Helper.globalHole alu) = hs.map (Helper.globalHole alu) ++
      holeKeys alu ownNumber (hs.map fun h => h.primitive.family) (ps.map Primitive.family) := by
  induction ps generalizing hs with
  | nil => simp [holeKeys]
  | cons p ps ih =>
    have hcount : familyCount p.family hs = ownNumber (hs.map fun h => h.primitive.family) p.family := by
      rw [ownNumber, List.count_eq_countP, List.countP_map]
      rfl
    have hcons : numbered hs (p :: ps) = numbered (hs ++ [⟨p, familyCount p.family hs⟩]) ps := rfl
    rw [hcons, ih]
    simp [holeKeys, ← hcount, Helper.globalHole]

/-! ### Walks -/

/-- The primitives that are met, in order, and how it comes to an end. -/
structure Walk where
  primitives : List Primitive
  outcome : Except Error Unit

namespace Walk

def meets (ps : List Primitive) : Walk := ⟨ps, .ok ()⟩

def stops (e : Error) : Walk := ⟨[], .error e⟩

def andThen (a b : Walk) : Walk :=
  match a.outcome with
  | .ok () => ⟨a.primitives ++ b.primitives, b.outcome⟩
  | .error e => ⟨a.primitives, .error e⟩

/-- A walk that stops unless a condition holds. -/
def requires (holds : Bool) (c : Check) (w : Walk) : Walk :=
  if holds then w else stops (.check c)

end Walk

mutual
def stmtWalk : Stmt → Walk
  | .update _ value terminator | .temp _ _ value terminator =>
    .requires (terminator == ";") .unterminatedUpdate (.meets (primitives value))
  | .ret value _ => .meets (primitives value)
  | .branch condition inner rest =>
    (Walk.meets (primitives condition)).andThen ((bodyWalk inner).andThen (elseWalk rest))
  | .assertFalse => .meets []
def bodyWalk : Body → Walk
  | .last s => stmtWalk s
  | .cons s rest => (stmtWalk s).andThen (bodyWalk rest)
/-- The walk through the later arms of a branch. -/
def elseWalk : Else → Walk
  | .none => .meets []
  | .elif condition inner rest =>
    (Walk.meets (primitives condition)).andThen ((bodyWalk inner).andThen (elseWalk rest))
  | .otherwise inner => bodyWalk inner
end

/-- The walk through whatever can be made of a text. -/
def sourceWalk : Alu.Source → Walk
  | .whole d => .requires (!d.stateVars.isEmpty) .noStateVariable (bodyWalk d.body)
  | .headerOnly _ => .stops .absentPart

/-- A property that passes from walks to walks that are made of them. -/
structure Walk.Inherited (Q : Walk → Prop) : Prop where
  nil : Q (.meets [])
  andThen : ∀ {a b}, Q a → Q b → Q (a.andThen b)
  requires : ∀ {holds c a}, Q a → Q (a.requires holds c)

section Inherited

variable {Q : Walk → Prop} {all : List Expr} (hQ : Walk.Inherited Q)
  (hexpr : ∀ e, e.parts ⊆ all → Q (.meets (Sketch.primitives e)))
include hQ hexpr

set_option linter.unusedSectionVars false in
mutual
theorem Walk.Inherited.stmt : ∀ s : Stmt, s.parts ⊆ all → Q (stmtWalk s)
  | .update _ value _, h | .temp _ _ value _, h => hQ.requires (hexpr value h)
  | .ret value _, h => hexpr value h
  | .branch condition inner rest, h => by
    obtain ⟨hcondition, hinner, hrest⟩ := List.append_subset.1 h |>.imp_right List.append_subset.1
    exact hQ.andThen (hexpr condition hcondition) (hQ.andThen (body inner hinner) (orElse rest hrest))
  | .assertFalse, _ => hQ.nil
theorem Walk.Inherited.body : ∀ b : Body, b.parts ⊆ all → Q (bodyWalk b)
  | .last s, h => stmt s h
  | .cons s rest, h => hQ.andThen (stmt s (List.append_subset.1 h).1) (body rest (List.append_subset.1 h).2)
theorem Walk.Inherited.orElse : ∀ e : Else, e.parts ⊆ all → Q (elseWalk e)
  | .none, _ => hQ.nil
  | .elif condition inner rest, h => by
    obtain ⟨hcondition, hinner, hrest⟩ := List.append_subset.1 h |>.imp_right List.append_subset.1
    exact hQ.andThen (hexpr condition hcondition) (hQ.andThen (body inner hinner) (orElse rest hrest))
  | .otherwise inner, h => body inner h
end

end Inherited

/-! ### Writing along a walk -/

/-- Code that other code begins with. -/
inductive Code.Begins (a : Code) : Code → Prop where
  | refl : Begins a a
  | append {b c : Code} : Begins a b → Begins a (b ++ c)

theorem Code.Begins.trans {a b c : Code} (hab : a.Begins b) (hbc : b.Begins c) : a.Begins c := by
  induction hbc with
  | refl => exact hab
  | append _ ih => exact .append ih

mutual
/-- The calls in some code, each before those of its operands. -/
def Code.calls : Code → List Code
  | .text _ | .aluName | .parameters => []
  | .append a b => a.calls ++ b.calls
  | .call p helper operands hole => .call p helper operands hole :: Code.callsAll operands
def Code.callsAll : List Code → List Code
  | [] => []
  | c :: cs => c.calls ++ Code.callsAll cs
end

@[simp] theorem Code.calls_text (s : String) : (Code.text s).calls = [] := by
  rw [Code.calls]

@[simp] theorem Code.calls_append (a b : Code) : (a ++ b).calls = a.calls ++ b.calls := by
  show (Code.append a b).calls = _
  rw [Code.calls]

/-- Code goes on with text, and with the code of expressions that are made of some parts and add helpers. -/
inductive Grows (main : Code) (hs : List Helper) : List Expr → Code → List Helper → Prop where
  | refl : Grows main hs [] main hs
  | text {parts : List Expr} {main' c : Code} {hs' : List Helper} : Grows main hs parts main' hs' →
      c.calls = [] → Grows main hs parts (main' ++ c) hs'
  | expr {parts : List Expr} {main' : Code} {hs' : List Helper} (e : Expr) : Grows main hs parts main' hs' →
      Grows main hs (parts ++ e.parts) (main' ++ codeOf e hs') (helpersAfter e hs')

theorem Grows.begins {main main' : Code} {hs hs' : List Helper} {parts : List Expr}
    (h : Grows main hs parts main' hs') : main.Begins main' := by
  induction h with
  | refl => exact .refl
  | text _ _ ih => exact .append ih
  | expr e _ ih => exact .append ih

theorem Grows.trans {main main₁ main₂ : Code} {hs hs₁ hs₂ : List Helper} {parts parts' : List Expr}
    (h : Grows main hs parts main₁ hs₁) (h' : Grows main₁ hs₁ parts' main₂ hs₂) :
    Grows main hs (parts ++ parts') main₂ hs₂ := by
  induction h' with
  | refl => rwa [List.append_nil]
  | text _ hc ih => exact ih.text hc
  | expr e _ ih =>
    rw [← List.append_assoc]
    exact ih.expr e

namespace StatefulAlu

/-- Writing goes on with the code, adds helpers for the primitives of a walk, leaves all else alone, and comes
to the end that the walk comes to. If that is no error, the expressions that are written are made of some parts. -/
def Writes (walk : Walk) (parts : List Expr) (w : Write Unit) : Prop :=
  ∀ d, ∃ main done, Grows d.main d.helpers done main (numbered d.helpers walk.primitives) ∧
    (walk.outcome = .ok () → done = parts) ∧
    w.run.run d = (walk.outcome, { d with main := main, helpers := numbered d.helpers walk.primitives })

section Writes

variable {a b : Walk} {parts parts' : List Expr} {w w' : Write Unit} {c : Code}

theorem writes_pure : Writes (.meets []) [] (pure ()) :=
  fun d => ⟨d.main, [], .refl, fun _ => rfl, rfl⟩

theorem writes_put (hc : c.calls = []) : Writes (.meets []) [] (put c) :=
  fun _ => ⟨_, [], .text .refl hc, fun _ => rfl, rfl⟩

theorem writes_putExpr (e : Expr) : Writes (.meets (primitives e)) e.parts (putExpr e) := by
  intro d
  have hhelpers : numbered d.helpers (primitives e) = helpersAfter e d.helpers :=
    (helpersAfter_eq_numbered e d.helpers).symm
  refine ⟨d.main ++ codeOf e d.helpers, e.parts, ?_, fun _ => rfl, ?_⟩
  · rw [Walk.meets, hhelpers]
    exact .expr e .refl
  · rw [Walk.meets, hhelpers]
    rfl

/-- What is written one after the other goes along one walk after the other. -/
theorem Writes.bind (h : Writes a parts w) (h' : Writes b parts' w') :
    Writes (a.andThen b) (parts ++ parts') (w >>= fun _ => w') := by
  intro d
  obtain ⟨main, done, hgrows, hdone, hrun⟩ := h d
  obtain ⟨ps, outcome⟩ := a
  cases outcome with
  | error e =>
    refine ⟨main, done, hgrows, nofun, ?_⟩
    rw [ExceptT.run_bind, StateT.run_bind, hrun]
    rfl
  | ok u =>
    obtain ⟨main', done', hgrows', hdone', hrun'⟩ := h' { d with main := main, helpers := numbered d.helpers ps }
    refine ⟨main', done ++ done', ?_, fun hok => by rw [hdone rfl, hdone' hok], ?_⟩
    · simpa [Walk.andThen] using hgrows.trans hgrows'
    · rw [ExceptT.run_bind, StateT.run_bind, hrun]
      show w'.run.run _ = _
      rw [hrun']
      simp [Walk.andThen]

theorem Writes.put (hc : c.calls = []) (h : Writes a parts w) : Writes a parts (put c >>= fun _ => w) :=
  (writes_put hc).bind h

theorem Writes.closed (hc : c.calls = []) (h : Writes a parts w) :
    Writes a parts (w >>= fun _ => StatefulAlu.put c) := by
  have hbind := h.bind (writes_put hc)
  rw [List.append_nil] at hbind
  obtain ⟨ps, outcome⟩ := a
  cases outcome with
  | error e => exact hbind
  | ok u =>
    simp only [Walk.andThen, Walk.meets, List.append_nil] at hbind
    exact hbind

theorem Writes.require {holds : Bool} {check : Check} (h : Writes a parts w) :
    Writes (a.requires holds check) parts (require holds check >>= fun _ => w) := by
  cases holds with
  | true => exact h
  | false => exact fun d => ⟨d.main, [], .refl, nofun, rfl⟩

theorem writes_get {f : Draft → Write Unit} (h : ∀ d, Writes a parts (f d)) : Writes a parts (get >>= f) :=
  fun d => h d d

theorem Writes.loop {α : Type} (xs : List α) {code : α → Code} {f : α → PUnit → Write (ForInStep PUnit)}
    (hf : ∀ x u, f x u = StatefulAlu.put (code x) >>= fun _ => pure (.yield ⟨⟩))
    (hcode : ∀ x, (code x).calls = []) (h : Writes a parts w) : Writes a parts (forIn xs ⟨⟩ f >>= fun _ => w) := by
  induction xs with
  | nil => exact h
  | cons x xs ih =>
    rw [List.forIn_cons, hf]
    simp only [bind_assoc, pure_bind]
    exact ih.put (hcode x)

end Writes

theorem writes_putReturn (value : Expr) : Writes (.meets (primitives value)) value.parts (putReturn value) :=
  writes_get fun _ => .loop _ (fun _ _ => rfl) (fun _ => rfl) (.put rfl ((writes_putExpr value).closed rfl))

mutual
theorem writes_putStmt : ∀ s : Stmt, Writes (stmtWalk s) s.parts (putStmt s)
  | .update target value terminator => by
    unfold putStmt
    exact .require (.put rfl (.put rfl ((writes_putExpr value).closed rfl)))
  | .temp sort name value terminator => by
    unfold putStmt
    exact .require (.put rfl (.put rfl (.put rfl ((writes_putExpr value).closed rfl))))
  | .ret value _ => by
    unfold putStmt
    exact writes_putReturn value
  | .branch condition inner rest => by
    unfold putStmt
    exact .put rfl (.put rfl ((writes_putExpr condition).bind
      (.put rfl ((writes_putBody inner).bind (.put rfl (writes_putElse rest))))))
  | .assertFalse => by
    unfold putStmt
    exact writes_put rfl
theorem writes_putBody : ∀ b : Body, Writes (bodyWalk b) b.parts (putBody b)
  | .last s => by
    unfold putBody
    exact writes_putStmt s
  | .cons s rest => by
    unfold putBody
    exact (writes_putStmt s).bind (writes_putBody rest)
theorem writes_putElse : ∀ e : Else, Writes (elseWalk e) e.parts (putElse e)
  | .none => by
    unfold putElse
    exact writes_pure
  | .elif condition inner rest => by
    unfold putElse
    exact .put rfl (.put rfl (.put rfl ((writes_putExpr condition).bind
      (.put rfl ((writes_putBody inner).bind (.put rfl (writes_putElse rest)))))))
  | .otherwise inner => by
    unfold putElse
    exact .put rfl ((writes_putBody inner).closed rfl)
end

def headCode (packetFields : List String) : Code :=
  "" ++ "int " ++ .aluName ++ "(ref | StateGroup | state_group, " ++
    Code.text (String.intercalate ", " (packetFields.map ("int " ++ ·))) ++ ", " ++ .parameters ++ ") \x7b\n"

/-- A description is written along its walk, behind the head of its function. -/
theorem run_putDescription (d : Alu.Description) :
    ∃ main parts, Grows (headCode d.packetFields) [] parts main (numbered [] (sourceWalk (.whole d)).primitives) ∧
      ((sourceWalk (.whole d)).outcome = .ok () → parts = d.body.parts) ∧
      (putDescription d).run.run {} = ((sourceWalk (.whole d)).outcome,
        ⟨main, numbered [] (sourceWalk (.whole d)).primitives, d.packetFields, d.stateVars⟩) := by
  have hrest : Writes (sourceWalk (.whole d)) d.body.parts (do
      require (!d.stateVars.isEmpty) .noStateVariable
      for x in d.stateVars.zipIdx do
        put ("\nint " ++ x.1 ++ " = state_group.state_" ++ toString x.2 ++ ";")
      putBody d.body
      put "\n\n\x7d") :=
    .require (.loop _ (fun _ _ => rfl) (fun _ => rfl) ((writes_putBody d.body).closed rfl))
  exact hrest ⟨headCode d.packetFields, [], d.packetFields, d.stateVars⟩

theorem run_putSource (source : Alu.Source) :
    ∃ draft, (putSource source).run.run {} = ((sourceWalk source).outcome, draft) ∧
      draft.helpers = numbered [] (sourceWalk source).primitives := by
  cases source with
  | whole d =>
    obtain ⟨main, _, -, -, hrun⟩ := run_putDescription d
    exact ⟨_, hrun, rfl⟩
  | headerOnly i => exact ⟨_, rfl, rfl⟩

end StatefulAlu

end Sketch

end SwitchSynth
