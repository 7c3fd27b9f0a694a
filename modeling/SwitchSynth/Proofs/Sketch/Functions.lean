import Mathlib.Data.List.Forall2
import SwitchSynth.Proofs.Listing
import SwitchSynth.Proofs.Sketch.Walk
import SwitchSynth.Sketch.Mux
import SwitchSynth.Sketch.StatelessAlu

/-!
# Functions in texts

A text defines functions if it is made of their definitions, one after the other, with nothing but blank space and
comments between them. What the function of a multiplexer, of a stateless and of a stateful ALU takes is read off its
definition.
-/

namespace SwitchSynth.Sketch

open Text (Blank Lists pieces)

/-- A text that is headed as the definition of a function of a name is: by a type, the name and a parenthesis. -/
def Headed (name text : String) : Prop :=
  ∃ type gap, (type = "int" ∨ type = "bit") ∧ Blank gap ∧
    (type ++ " " ++ name ++ gap ++ "(").toList <+: text.toList

/-- A text is the definition of a function of a name, whose head lists its parameters, up to the end of its
body. -/
def Spells (name text : String) (parameters : List String) (body : String) : Prop :=
  ∃ list gap, Lists list parameters ∧ Blank gap ∧
    text = "int " ++ name ++ "(" ++ list ++ ")" ++ gap ++ "\x7b\n" ++ body

theorem Spells.headed {name text body : String} {parameters : List String}
    (h : Spells name text parameters body) : Headed name text := by
  obtain ⟨list, gap, -, -, rfl⟩ := h
  exact ⟨"int", "", .inl rfl, rfl, by simp⟩

/-- The definition of a function. -/
structure Function where
  name : String
  text : String
  headed : Headed name text

def Function.Takes (f : Function) (parameters : List String) : Prop :=
  ∃ body, Spells f.name f.text parameters body

/-- A text defines functions. -/
inductive Defines : String → List Function → Prop where
  | nil : Defines "" []
  | gap {s t : String} {fs : List Function} : Blank s → Defines t fs → Defines (s ++ t) fs
  | comment (line : String) {t : String} {fs : List Function} : '\n' ∉ line.toList → Defines t fs →
      Defines ("//" ++ line ++ "\n" ++ t) fs
  | cons {t : String} {fs : List Function} (f : Function) : Defines t fs → Defines (f.text ++ t) (f :: fs)

namespace Defines

variable {s t : String} {fs gs : List Function}

theorem append (hs : Defines s fs) (ht : Defines t gs) : Defines (s ++ t) (fs ++ gs) := by
  induction hs with
  | nil => simpa using ht
  | gap hblank _ ih =>
    rw [String.append_assoc]
    exact .gap hblank ih
  | comment line hline _ ih =>
    rw [String.append_assoc]
    exact .comment line hline ih
  | cons f _ ih =>
    rw [String.append_assoc]
    exact .cons f ih

theorem contains (hs : Defines s fs) {f : Function} (hf : f ∈ fs) : Text.Contains s f.text := by
  induction hs with
  | nil => exact nomatch hf
  | gap _ _ ih => exact .append_right (ih hf)
  | comment _ _ _ ih => exact .append_right (ih hf)
  | cons f' _ ih =>
    rcases List.mem_cons.1 hf with rfl | hf
    · exact .append_left (.refl _)
    · exact .append_right (ih hf)

theorem blank (hs : Blank s) : Defines s [] := by
  have hgap : Defines (s ++ "") [] := .gap hs .nil
  simpa using hgap

theorem one (f : Function) : Defines f.text [f] := by
  have hcons : Defines (f.text ++ "") [f] := .cons f .nil
  simpa using hcons

theorem gapBehind (hs : Defines s fs) (ht : Blank t) : Defines (s ++ t) fs := by
  simpa using hs.append (.blank ht)

theorem join {texts : List String} {fss : List (List Function)} (h : List.Forall₂ Defines texts fss) :
    Defines (String.join texts) fss.flatten := by
  induction h with
  | nil => exact .nil
  | cons hfirst _ ih =>
    rw [String.join_cons, List.flatten_cons]
    exact hfirst.append ih

theorem functions (fs : List Function) (hs : Blank s) :
    Defines (String.join (fs.map fun f => f.text ++ s)) fs := by
  induction fs with
  | nil => exact .nil
  | cons f fs ih =>
    rw [List.map_cons, String.join_cons, String.append_assoc]
    exact .cons f (.gap hs ih)

end Defines

/-! ### Multiplexers and helpers -/

namespace Mux

def parameters (m : Mux) : List String :=
  (List.range m.inputs).map (fun i => "int " ++ input i) ++ ["int " ++ m.name ++ "_ctrl_local"]

def function (m : Mux) : Function where
  name := m.name
  text := m.text
  headed := ⟨"int", "", .inl rfl, rfl, by simp [text]⟩

theorem spells {m : Mux} (h : 1 ≤ m.inputs) : Spells m.name m.text m.parameters (m.bodyText ++ "\x7d") := by
  have hinputs : (List.range m.inputs).map (fun i => "int " ++ input i) ≠ [] := by
    rw [ne_eq, List.map_eq_nil_iff, List.range_eq_nil]
    omega
  have hlist := Lists.intercalate (a := "") ((List.range m.inputs).map fun i => "int " ++ input i) rfl
  rw [Text.pieces_of_ne_nil hinputs] at hlist
  refine ⟨_, " ", hlist.append ((Lists.word _).padLeft (a := " ") rfl), rfl, ?_⟩
  refine String.toList_inj.1 ?_
  simp [text]

theorem takes {m : Mux} (h : 1 ≤ m.inputs) : m.function.Takes m.parameters :=
  ⟨_, spells h⟩

end Mux

/-- The parameters of the helper of a primitive: the operands and the hole. -/
def Primitive.parameters : Primitive → List String
  | mux5 => ["int op1", "int op2", "int op3", "int op4", "int op5", "int opcode"]
  | mux4 => ["int op1", "int op2", "int op3", "int op4", "int opcode"]
  | mux3 => ["int op1", "int op2", "int op3", "int choice"]
  | mux3Num _ | mux2 => ["int op1", "int op2", "int choice"]
  | relOp | arithOp => ["int operand1", "int operand2", "int opcode"]
  | opt => ["int op1", "int enable"]
  | constant => ["int const"]
  | computeAlu => ["int op1", "int op2", "int opcode"]
  | boolOp => ["bit op1", "bit op2", "int opcode"]

theorem Primitive.length_parameters (p : Primitive) : p.parameters.length = p.arity + 1 := by
  cases p <;> rfl

/-- A text begins as the definition of a function does: with a type, the name and a list of parameters. -/
def Opens (name text : String) (parameters : List String) : Prop :=
  ∃ type gap list body, (type = "int" ∨ type = "bit") ∧ Blank gap ∧ Lists list parameters ∧
    text = type ++ " " ++ name ++ (gap ++ "(" ++ list ++ ") \x7b\n") ++ body

theorem Opens.append {name text more : String} {parameters : List String} (h : Opens name text parameters) :
    Opens name (text ++ more) parameters := by
  obtain ⟨type, gap, list, body, htype, hgap, hlist, rfl⟩ := h
  exact ⟨type, gap, list, body ++ more, htype, hgap, hlist, String.append_assoc ..⟩

theorem Opens.headed {name text : String} {parameters : List String} (h : Opens name text parameters) :
    Headed name text := by
  obtain ⟨type, gap, list, body, htype, hgap, -, rfl⟩ := h
  exact ⟨type, gap, htype, hgap, by simp⟩

theorem opens_of_eq (type gap name start : String) {list opening : String} {parameters : List String}
    (htype : type = "int" ∨ type = "bit") (hgap : Blank gap) (hlist : Lists list parameters)
    (hopening : opening = gap ++ "(" ++ list ++ ") \x7b\n" ++ start) :
    Opens name (type ++ " " ++ name ++ opening) parameters :=
  ⟨type, gap, list, start, htype, hgap, hlist, by rw [hopening, ← String.append_assoc]⟩

theorem lists_commas (w v : String) (ws : List String) :
    Lists (String.intercalate ", " (w :: v :: ws)) (w :: v :: ws) :=
  Lists.intercalate (a := " ") _ rfl

theorem Helper.opens (alu : String) (h : Helper) : Opens (h.name alu) (h.text alu) h.primitive.parameters := by
  have hint {list opening : String} {parameters : List String} (start : String) (hlist : Lists list parameters)
      (hopening : opening = "" ++ "(" ++ list ++ ") \x7b\n" ++ start) :
      Opens (h.name alu) ("int " ++ h.name alu ++ opening) parameters :=
    opens_of_eq "int" "" (h.name alu) start (.inl rfl) rfl hlist hopening
  unfold Helper.text
  cases h.primitive with
  | mux5 =>
    have hlist := (lists_commas "int op1" "int op2" ["int op3", "int op4", "int op5"]).append
      ((Lists.word "int opcode").padLeft (a := "\n                                 ") rfl)
    refine .append (.append ?_)
    rw [String.append_assoc]
    exact hint "" hlist (by decide)
  | mux4 =>
    have hlist := (lists_commas "int op1" "int op2" ["int op3", "int op4"]).append
      ((Lists.word "int opcode").padLeft (a := "\n                                 ") rfl)
    refine .append (.append ?_)
    rw [String.append_assoc]
    exact hint "" hlist (by decide)
  | mux3 | mux3Num _ | mux2 | relOp | arithOp | computeAlu =>
    exact .append (.append (hint "" (lists_commas _ _ _) (by decide)))
  | boolOp =>
    exact .append (.append (opens_of_eq "bit" " " (h.name alu) "" (.inr rfl) rfl
      (lists_commas "bit op1" "bit op2" ["int opcode"]) (by decide)))
  | opt =>
    exact .append (.append (.append (.append
      (hint "    if (enable != 0) return " (lists_commas _ _ _) (by decide)))))
  | constant => exact .append (.append (hint "    return " (.word _) (by decide)))

def Helper.function (alu : String) (h : Helper) : Function where
  name := h.name alu
  text := h.text alu
  headed := (h.opens alu).headed

theorem singlePercents_of_not_mem {cs : List Char} (h : '%' ∉ cs) : singlePercents cs = some cs := by
  induction cs with
  | nil => rfl
  | cons c cs ih =>
    have hc : c ≠ '%' := fun heq => h (heq ▸ List.mem_cons_self)
    rw [singlePercents.eq_4 _ _ (fun _ heq _ => hc heq) hc, ih fun hmem => h (List.mem_cons_of_mem c hmem)]
    rfl

/-! ### Stateless ALUs -/

namespace Written

@[simp] theorem toExcept_coe (s : String) : (s : Written).toExcept = .ok s := rfl

/-- What is written one after the other is written to the end if each part is. -/
@[simp] theorem toExcept_append {a b : Written} {t : String} :
    (a ++ b).toExcept = .ok t ↔ ∃ s u, a.toExcept = .ok s ∧ b.toExcept = .ok u ∧ t = s ++ u := by
  obtain ⟨s, failure⟩ := a
  cases failure with
  | some e => exact ⟨nofun, fun ⟨_, _, h, _⟩ => nomatch h⟩
  | none =>
    obtain ⟨u, failure⟩ := b
    cases failure with
    | some e => exact ⟨nofun, fun ⟨_, _, _, h, _⟩ => nomatch h⟩
    | none =>
      constructor
      · rintro ⟨⟩
        exact ⟨s, u, rfl, rfl, rfl⟩
      · rintro ⟨_, _, ⟨⟩, ⟨⟩, rfl⟩
        rfl

end Written

namespace StatelessAlu

def holeWord (hole : String) : String :=
  "int " ++ hole ++ localSuffix

theorem mayAdd_ok {names : List String} {name : String} {u : Unit} (h : mayAdd names name = .ok u) :
    name ∉ names := by
  unfold mayAdd at h
  split at h
  · exact nomatch h
  · assumption

theorem holeParameters_ok {before names : List String} {s : String}
    (h : (holeParameters before names).toExcept = .ok s) :
    s = String.intercalate ", " (names.map holeWord) ∧ names.Nodup ∧ ∀ name ∈ names, name ∉ before := by
  induction names generalizing before s with
  | nil => cases h; exact ⟨rfl, List.nodup_nil, nofun⟩
  | cons name rest ih =>
    cases hadd : mayAdd before name with
    | error e => cases rest <;> simp [holeParameters, hadd, Written.stop, Written.toExcept] at h
    | ok u =>
      have hnew := mayAdd_ok hadd
      cases rest with
      | nil =>
        rw [holeParameters, hadd] at h
        simp only [Written.toExcept_append, Written.toExcept_coe, Except.ok.injEq] at h
        obtain ⟨_, _, ⟨_, _, rfl, rfl, rfl⟩, rfl, rfl⟩ := h
        exact ⟨rfl, by simp, fun n hn => List.mem_singleton.1 hn ▸ hnew⟩
      | cons next rest =>
        rw [holeParameters, hadd] at h
        · simp only [Written.toExcept_append, Written.toExcept_coe, Except.ok.injEq] at h
          obtain ⟨_, more, ⟨_, _, ⟨_, _, ⟨_, _, rfl, rfl, rfl⟩, rfl, rfl⟩, rfl, rfl⟩, hmore, rfl⟩ := h
          obtain ⟨rfl, hnodup, hbefore⟩ := ih hmore
          refine ⟨?_, List.nodup_cons.2 ⟨fun hmem => ?_, hnodup⟩, fun n hn => ?_⟩
          · simp only [List.map_cons, String.intercalate_cons_cons]
            rfl
          · exact hbefore name hmem (List.mem_append_right before (List.mem_singleton_self name))
          · rcases List.mem_cons.1 hn with rfl | hn
            · exact hnew
            · exact fun hmem => hbefore n hn (List.mem_append_left [name] hmem)
        · exact nofun

/-- The parameters at the end, for some hole variables. -/
def extraWords (holeVars : List String) : List String :=
  if 2 < holeVars.length then
    ((holeVars.map (· ++ localSuffix)).mergeSort fun x y => decide (x ≤ y)).map ("int " ++ ·)
  else []

/-- The parameters in the head of the function, for some operands, hole variables and packet fields. -/
def parameterWords (operands holeVars packetFields : List String) : List String :=
  operands.map ("int " ++ ·) ++ pieces (holeVars.map holeWord) ++
    (List.range packetFields.length).map (fun k => "int " ++ control k) ++ extraWords holeVars

theorem map_extraParameters (a : StatelessAlu) : a.extraParameters.map ("int " ++ ·) = extraWords a.holeVars := by
  unfold extraParameters extraWords
  split <;> rfl

/-- What the body begins with: the variables that are read from holes, each with the parameter it is read from. -/
def reads (holeVars : List String) : List (String × String) :=
  holeVars.map fun h =>
    (String.ofList (beforeFirst localSuffix.toList (h ++ localSuffix).toList), h ++ localSuffix)

def readLine (r : String × String) : String :=
  if isImmediate r.1 then "\tint " ++ r.1 ++ " = constant_vector[" ++ r.2 ++ "];\n"
  else "\tint " ++ r.1 ++ " = " ++ r.2 ++ ";\n"

theorem map_holeLine (holeVars : List String) : holeVars.map holeLine = (reads holeVars).map readLine := by
  rw [reads, List.map_map]
  rfl

theorem lists_parameterWords (a : StatelessAlu) :
    Lists (String.join (a.operands.map fun p => "int " ++ p ++ ",") ++
      String.intercalate ", " (a.holeVars.map holeWord) ++
      String.join ((List.range a.packetFields.length).map fun k => ", int " ++ control k) ++ " " ++ a.extraText)
      (parameterWords a.operands a.holeVars a.packetFields) := by
  have hholes : Lists (String.intercalate ", " (a.holeVars.map holeWord)) (pieces (a.holeVars.map holeWord)) :=
    Lists.intercalate (a := " ") _ rfl
  have hoperands := Lists.commasBehind (a := "") (b := "") (a.operands.map ("int " ++ ·)) hholes rfl rfl
  simp only [List.map_map, Function.comp_def, String.empty_append, String.append_empty] at hoperands
  have hcontrols := (hoperands.commasBefore (a := " ")
    ((List.range a.packetFields.length).map fun k => "int " ++ control k) rfl).padRight (b := " ") rfl
  simp only [List.map_map] at hcontrols
  unfold parameterWords extraText
  rw [← a.map_extraParameters]
  split
  next hextra =>
    rw [List.isEmpty_iff.1 hextra, List.map_nil, List.append_nil, String.append_empty]
    exact hcontrols
  next hextra =>
    have hwords : a.extraParameters.map ("int " ++ ·) ≠ [] := by simpa using hextra
    have hlist := Lists.intercalate (a := "") (a.extraParameters.map ("int " ++ ·)) rfl
    rw [Text.pieces_of_ne_nil hwords] at hlist
    rw [← String.append_assoc]
    exact hcontrols.append hlist

/-- A function that is written to its end has its head in front, with each of the hole variables once. -/
theorem functionText_ok {a : StatelessAlu} {extra main : String} (h : (a.functionText extra).toExcept = .ok main) :
    a.holeVars.Nodup ∧ ∃ rest, main = "int " ++ a.name ++ "(" ++ (String.join (a.operands.map fun p => "int " ++ p ++ ",") ++
      String.intercalate ", " (a.holeVars.map holeWord) ++
      String.join ((List.range a.packetFields.length).map fun k => ", int " ++ control k) ++ " " ++ extra) ++
      ")\x7b\n" ++ (String.join ((reads a.holeVars).map readLine) ++ rest) := by
  simp only [functionText, headText, Written.toExcept_append, Written.toExcept_coe, Except.ok.injEq] at h
  obtain ⟨_, _, ⟨_, body, ⟨_, _, ⟨_, _, ⟨_, _, ⟨_, _, ⟨_, _, ⟨_, _, ⟨_, holes, rfl, hholes, rfl⟩, rfl, rfl⟩,
    rfl, rfl⟩, rfl, rfl⟩, rfl, rfl⟩, rfl, rfl⟩, rfl, rfl⟩, -, rfl⟩, rfl, rfl⟩ := h
  obtain ⟨rfl, hnodup, -⟩ := holeParameters_ok hholes
  rw [map_holeLine, openingText]
  refine ⟨hnodup, String.join (a.packetFields.zipIdx.map fun x => a.muxLine x.1 x.2) ++ body ++ "\n\x7d", ?_⟩
  simp only [String.append_assoc]

theorem mapM_singlePercents {operands : List String} (h : ∀ o ∈ operands, '%' ∉ o.toList) :
    operands.mapM (fun p => (singlePercents p.toList).map String.ofList) = some operands := by
  induction operands with
  | nil => rfl
  | cons o operands ih =>
    rw [List.mapM_cons, singlePercents_of_not_mem (h o List.mem_cons_self),
      ih fun o' ho' => h o' (List.mem_cons_of_mem o ho'), Option.map_some, String.ofList_toList]
    rfl

theorem plain_eq {a b : StatelessAlu} (h : a.plain = some b) (hoperands : ∀ o ∈ a.operands, '%' ∉ o.toList) :
    ∃ shown, singlePercents a.name.toList = some shown ∧ b = { a with name := String.ofList shown } := by
  unfold plain at h
  rw [mapM_singlePercents hoperands] at h
  simp only [Option.bind_eq_bind, Option.bind_eq_some_iff] at h
  obtain ⟨shown, hshown, _, ⟨⟩, hb⟩ := h
  cases hb
  exact ⟨shown, hshown, rfl⟩

theorem mainText_inv {a : StatelessAlu} {main : String} (h : a.mainText = .ok main) :
    ∃ b, a.plain = some b ∧ (functionText b a.extraText).toExcept = .ok main := by
  unfold mainText at h
  cases hbody : (bodyText a.body).toExcept with
  | error e => rw [hbody] at h; exact nomatch h
  | ok body =>
    rw [hbody] at h
    cases hplain : a.plain with
    | none => rw [hplain] at h; exact nomatch h
    | some b =>
      rw [hplain] at h
      exact ⟨b, rfl, h⟩

theorem nodup_of_mainText {a : StatelessAlu} {main : String} (h : a.mainText = .ok main) : a.holeVars.Nodup := by
  obtain ⟨b, hplain, hfunction⟩ := mainText_inv h
  unfold plain at hplain
  simp only [Option.bind_eq_bind, Option.bind_eq_some_iff] at hplain
  obtain ⟨_, -, _, -, hb⟩ := hplain
  cases hb
  exact (functionText_ok hfunction).1

/-- The function of a stateless ALU, under its name with single percent signs, takes its parameters, and its body
begins by reading the holes. -/
theorem mainText_ok {a : StatelessAlu} {main : String} (h : a.mainText = .ok main)
    (hoperands : ∀ o ∈ a.operands, '%' ∉ o.toList) :
    ∃ shown rest, singlePercents a.name.toList = some shown ∧
      Spells (String.ofList shown) main (parameterWords a.operands a.holeVars a.packetFields)
        (String.join ((reads a.holeVars).map readLine) ++ rest) := by
  obtain ⟨b, hplain, hfunction⟩ := mainText_inv h
  obtain ⟨shown, hshown, rfl⟩ := plain_eq hplain hoperands
  obtain ⟨-, rest, hmain⟩ := functionText_ok hfunction
  refine ⟨shown, rest, hshown, _, "", a.lists_parameterWords, rfl, ?_⟩
  rw [hmain]
  refine String.toList_inj.1 ?_
  simp

end StatelessAlu

/-! ### Stateful ALUs -/

theorem Code.render_append (a b : Code) (alu parameters : String) :
    (a ++ b).render alu parameters = a.render alu parameters ++ b.render alu parameters :=
  Code.render.eq_2 ..

theorem Code.Begins.render {a b : Code} (h : a.Begins b) (alu parameters : String) :
    ∃ rest, b.render alu parameters = a.render alu parameters ++ rest := by
  induction h with
  | refl => exact ⟨"", String.append_empty.symm⟩
  | @append b c _ ih =>
    obtain ⟨rest, hrest⟩ := ih
    refine ⟨rest ++ c.render alu parameters, ?_⟩
    rw [← String.append_assoc, ← hrest, Code.render_append]

namespace StatefulAlu

theorem render_headCode (fields : List String) (alu parameters : String) :
    (headCode fields).render alu parameters = "" ++ "int " ++ alu ++ "(ref | StateGroup | state_group, " ++
      String.intercalate ", " (fields.map ("int " ++ ·)) ++ ", " ++ parameters ++ ") \x7b\n" := by
  simp only [headCode, Code.render_append, Code.render]

def parameterWords (fields holes : List String) : List String :=
  "ref | StateGroup | state_group" :: pieces (fields.map ("int " ++ ·)) ++ pieces (holes.map ("int " ++ ·))

/-- The helpers are defined one after the other. -/
theorem helperText_defines (alu : StatefulAlu) :
    Defines alu.helperText (alu.helpers.map (Helper.function alu.name)) := by
  have hfunctions := Defines.functions (s := "") (alu.helpers.map (Helper.function alu.name)) rfl
  simp only [String.append_empty, List.map_map] at hfunctions
  exact .gap (s := "\n\n\n") rfl hfunctions

/-- An ALU that is made of a text has what the text declares, and its code has the head of its function in
front. -/
theorem ofSource_ok {name : String} {bits : Int} {source : Alu.Source} {alu : StatefulAlu}
    (h : ofSource name bits source = .ok alu) :
    ∃ d, source = .whole d ∧ alu.name = name ∧ alu.packetFields = d.packetFields ∧
      alu.stateVars = d.stateVars ∧ alu.helpers = numbered [] (sourceWalk source).primitives ∧
      Grows (headCode d.packetFields) [] d.body.parts alu.code alu.helpers := by
  unfold ofSource at h
  cases source with
  | headerOnly indicator => exact nomatch h
  | whole d =>
    obtain ⟨main, parts, hgrows, hparts, hrun⟩ := run_putDescription d
    rw [putSource, hrun] at h
    cases houtcome : (sourceWalk (.whole d)).outcome with
    | error e => rw [houtcome] at h; exact nomatch h
    | ok u =>
      rw [houtcome] at h
      cases h
      exact ⟨d, rfl, rfl, rfl, rfl, rfl, hparts houtcome ▸ hgrows⟩

/-- The function of a stateful ALU, under its name with single percent signs, takes the state, the packet fields and
the holes. -/
theorem mainText_ok {alu : StatefulAlu} {main : String} (h : alu.mainText = .ok main)
    (hcode : (headCode alu.packetFields).Begins alu.code) :
    ∃ shown body, singlePercents alu.name.toList = some shown ∧
      Spells (String.ofList shown) main (parameterWords alu.packetFields alu.sortedHoles) body := by
  unfold mainText at h
  split at h
  next shown hshown =>
    cases h
    obtain ⟨rest, hrest⟩ := hcode.render (String.ofList shown) alu.parameterText
    have hfields : Lists (String.intercalate ", " (alu.packetFields.map ("int " ++ ·)))
        (pieces (alu.packetFields.map ("int " ++ ·))) := Lists.intercalate (a := " ") _ rfl
    have hholes : Lists alu.parameterText (pieces (alu.sortedHoles.map ("int " ++ ·))) :=
      Lists.intercalate (a := "") _ rfl
    refine ⟨shown, rest, hshown, _, " ",
      ((Lists.word "ref | StateGroup | state_group").append (hfields.padLeft (a := " ") rfl)).append
        (hholes.padLeft (a := " ") rfl), rfl, ?_⟩
    rw [hrest, render_headCode]
    refine String.toList_inj.1 ?_
    simp
  next => exact nomatch h

end StatefulAlu

end SwitchSynth.Sketch
