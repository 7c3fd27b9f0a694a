import SwitchSynth.Proofs.Sketch.Functions
import SwitchSynth.Proofs.Sketch.Muxes
import SwitchSynth.Proofs.Sketch.Names

/-!
# What a sketch defines

All stateless ALUs of a sketch are made of one file, and so are all stateful ALUs. Writing them and the
multiplexers one after the other gives a text that defines a function for each multiplexer, each helper and each
ALU, and the sizes that are left behind for the data path are those of the files.
-/

namespace SwitchSynth

theorem map_flatten_of_forall₂ {α β γ : Type} {Q : α → List β → Prop} {xs : List α} {yss : List (List β)}
    (h : List.Forall₂ Q xs yss) {k : β → γ} {f : α → List γ} (hQ : ∀ {x ys}, Q x ys → ys.map k = f x) :
    yss.flatten.map k = xs.flatMap f := by
  induction h with
  | nil => rfl
  | cons hfirst _ ih => rw [List.flatten_cons, List.map_append, List.flatMap_cons, hQ hfirst, ih]

theorem mem_flatten_of_forall₂ {α β : Type} {Q : α → List β → Prop} {xs : List α} {yss : List (List β)}
    (h : List.Forall₂ Q xs yss) {P : β → Prop} (hQ : ∀ {x ys}, Q x ys → ∀ y ∈ ys, P y) :
    ∀ y ∈ yss.flatten, P y := by
  induction h with
  | nil => exact fun y hy => nomatch hy
  | cons hfirst _ ih =>
    rw [List.flatten_cons]
    exact List.forall_mem_append.2 ⟨hQ hfirst, ih⟩

theorem exists_of_forall₂ {α β : Type} {Q : α → β → Prop} {xs : List α} {ys : List β}
    (h : List.Forall₂ Q xs ys) {x : α} (hx : x ∈ xs) : ∃ y ∈ ys, Q x y := by
  obtain ⟨k, hk⟩ := List.mem_iff_getElem?.1 hx
  obtain ⟨y, hy, hQ⟩ := getElem?_of_forall₂ h hk
  exact ⟨y, List.mem_of_getElem? hy, hQ⟩

namespace Sketch

/-! ### The helpers of a description -/

def helpersOf (d : Alu.Description) : List Helper :=
  numbered [] (sourceWalk (.whole d)).primitives

/-- The holes of the stateful ALU of a description, in alphabetical order. -/
def holesOf (d : Alu.Description) : List String :=
  ((helpersOf d).map Helper.hole).mergeSort fun x y => decide (x ≤ y)

def helperKeys (d : Alu.Description) : List (Family × Nat) :=
  (helpersOf d).map fun h => (h.primitive.family, h.number)

theorem nodup_helperKeys (d : Alu.Description) : (helperKeys d).Nodup := by
  have hholes : ((helpersOf d).map (Helper.globalHole "")).Nodup := by
    rw [helpersOf, globalHoles_numbered]
    exact ownKeys_nodup "" [] _
  refine List.pairwise_map.2 ((List.pairwise_map.1 hholes).imp fun hne heq => hne ?_)
  obtain ⟨hfamily, hnumber⟩ := Prod.mk.inj heq
  rw [Helper.globalHole, Helper.globalHole, hfamily, hnumber]

def describedBy (text : Except Error String) : Option Alu.Description :=
  match text with
  | .error _ => none
  | .ok text =>
    match Alu.Source.read (Alu.lex text) with
    | .headerOnly _ => none
    | .whole d => some d

/-- What the holes of a sketch depend on. -/
structure Layout where
  shape : Shape
  synthesized : Bool
  /-- The number of bits of a hole that chooses a constant. -/
  constantBits : Nat
  /-- The text of the stateless ALU. -/
  stateless : Except Error String
  /-- The text of the stateful ALU. -/
  stateful : Except Error String

namespace Layout

/-- What the names of the ALUs depend on. -/
def plan (b : Layout) : Plan :=
  ⟨b.shape, b.synthesized, 0, [], 0, 0⟩

def widths (b : Layout) : StatelessAlu.Widths where
  opcode := ((b.stateless.bind StatelessAlu.opcodeBits).toOption.getD 0 : Nat)
  constant := b.constantBits

def statelessHoles (b : Layout) (name : String) : List Hole :=
  match describedBy b.stateless with
  | none => []
  | some d =>
    (List.range d.packetFields.length).map
      (fun k => controlHole (upTo b.shape.containers).length (name ++ "_operand_mux_" ++ toString k)) ++
    inOrder (d.holeVars.map fun v => (name ++ "_" ++ v, b.widths.of v))

def statefulHoles (b : Layout) (name : String) : List Hole :=
  match describedBy b.stateful with
  | none => []
  | some d => inOrder ((helpersOf d).map fun h => (h.globalHole name, h.primitive.width b.constantBits))

def stageHoles (b : Layout) (i : Nat) : List Hole :=
  (upTo b.shape.alus).flatMap (fun j => b.statelessHoles (b.plan.statelessName i j)) ++
    b.plan.units.flatMap fun l => b.statefulHoles (b.plan.statefulName i l)

/-- The holes that choose the operands of stateful ALUs. -/
def operandHoles (b : Layout) : List Hole :=
  (upTo b.shape.stages).flatMap fun i => b.plan.units.flatMap fun l =>
    (List.range ((describedBy b.stateful).elim 0 fun d => d.packetFields.length)).map fun k =>
      controlHole b.shape.containers (b.plan.operandMux i l k)

/-- The holes that choose the containers behind the stages. -/
def outputHoles (b : Layout) : List Hole :=
  if b.shape.tofino then
    ((upTo b.shape.stages).flatMap fun i => (upTo b.shape.containers).map fun k =>
      ⟨b.plan.statelessName i k ++ "_demux_ctrl", 1⟩) ++
    (upTo b.shape.stages).flatMap fun i => (upTo b.shape.groups).map fun k =>
      ⟨b.plan.statefulName i k ++ "_demux_ctrl", bitsOf b.shape.containers⟩
  else
    (upTo b.shape.stages).flatMap fun i => (upTo b.shape.containers).map fun k =>
      controlHole ((if b.synthesized then b.shape.containers else b.shape.groups) *
        ((describedBy b.stateful).elim 0 fun d => d.stateVars.length) + 1) (b.plan.outputMux i k)

/-- The holes that allocate fields and state groups. -/
def allocationHoles (b : Layout) : List Hole :=
  ((if b.synthesized then (Allocation.ofFields b.shape).bits ++ (Allocation.ofGroups b.shape).bits
    else (Allocation.canonical b.shape).bits)).map fun name => ⟨name, 1⟩

def holes (b : Layout) : List Hole :=
  (upTo b.shape.stages).flatMap b.stageHoles ++ b.operandHoles ++ b.outputHoles ++ b.allocationHoles

end Layout

namespace Generator

variable {files : Files} {g g' g₀ g₁ g₂ : Generator} {name text : String} {operands : List String} {fs : List Function}
  {hs hs' : List Hole} {i : Nat}

def layout (files : Files) (g : Generator) : Layout where
  shape := g.shape
  synthesized := g.synthesized
  constantBits := g.constantBits
  stateless := files.readAscii g.statelessFile
  stateful := files.readAscii g.statefulFile

theorem Alike.layout_eq (h : Alike g g') (files : Files) : g'.layout files = g.layout files := by
  rw [layout, h.shape, h.synthesized, h.constantBits, h.statelessFile, h.statefulFile]
  rfl

/-! ### What is left behind -/

/-- A generator has the sizes of the stateful ALU of a description. -/
structure SizedBy (d : Alu.Description) (g : Generator) : Prop where
  holes : g.statefulHoles = some (holesOf d)
  operands : g.operands = d.packetFields.length
  slots : g.slots = d.stateVars.length

/-- What writing ALUs does to the generator: holes are added, none of a negative width, and the sizes of an ALU are
those of its file once one has been written. -/
structure Writes (files : Files) (holes : List Hole) (g g' : Generator) : Prop extends Alike g g' where
  holes_eq : g'.holes = g.holes ++ holes
  width_nonneg : ∀ h ∈ holes, 0 ≤ h.width
  constraints_eq : g'.constraints = g.constraints
  muxes : g'.statelessMuxes = g.statelessMuxes ∨
    ∃ d, described files g.statelessFile = some d ∧ g'.statelessMuxes = some d.packetFields.length
  sizes : (g'.statefulHoles = g.statefulHoles ∧ g'.operands = g.operands ∧ g'.slots = g.slots) ∨
    ∃ d, described files g.statefulFile = some d ∧ SizedBy d g'

theorem Writes.refl (files : Files) (g : Generator) : Writes files [] g g :=
  ⟨alike.refl g, (List.append_nil _).symm, List.forall_mem_nil _, rfl, .inl rfl, .inl ⟨rfl, rfl, rfl⟩⟩

theorem Writes.trans (h : Writes files hs g g₁) (h' : Writes files hs' g₁ g₂) : Writes files (hs ++ hs') g g₂ := by
  refine ⟨alike.trans h.toAlike h'.toAlike, ?_, List.forall_mem_append.2 ⟨h.width_nonneg, h'.width_nonneg⟩,
    h'.constraints_eq.trans h.constraints_eq, ?_, ?_⟩
  · rw [h'.holes_eq, h.holes_eq, List.append_assoc]
  · -- If no ALU has been written since, the sizes are those of the first part.
    rw [← h.statelessFile]
    rcases h'.muxes with hsame | hfile
    · rw [hsame, h.statelessFile]
      exact h.muxes
    · exact .inr hfile
  · rcases h'.sizes with ⟨hholes, hoperands, hslots⟩ | hfile
    · rw [hholes, hoperands, hslots]
      refine h.sizes.imp_right fun ⟨d, hd, hsized⟩ => ⟨d, hd, ?_⟩
      exact ⟨hholes.trans hsized.holes, hoperands.trans hsized.operands, hslots.trans hsized.slots⟩
    · rw [h.statefulFile] at hfile
      exact .inr hfile

theorem Adds.muxes {d : Alu.Description} (h : Adds hs [] g g₁) (hd : described files g.statelessFile = some d) :
    Writes files hs g { g₁ with statelessMuxes := some d.packetFields.length } := by
  rw [h.eq]
  exact ⟨⟨rfl, rfl, rfl, rfl, rfl, rfl⟩, rfl, h.width_nonneg, List.append_nil _, .inr ⟨d, hd, rfl⟩,
    .inl ⟨rfl, rfl, rfl⟩⟩

theorem Adds.sizes {d : Alu.Description} {holes : List String} {operands slots : Nat} (h : Adds hs [] g g₁)
    (hd : described files g.statefulFile = some d)
    (hsized : SizedBy d { g₁ with statefulHoles := some holes, operands := operands, slots := slots }) :
    Writes files hs g { g₁ with statefulHoles := some holes, operands := operands, slots := slots } := by
  rw [h.eq] at hsized ⊢
  exact ⟨⟨rfl, rfl, rfl, rfl, rfl, rfl⟩, rfl, h.width_nonneg, List.append_nil _, .inl rfl, .inr ⟨d, hd, hsized⟩⟩

theorem SizedBy.writes {d : Alu.Description} (h : SizedBy d g) (hd : described files g.statefulFile = some d)
    (hwrites : Writes files hs g g') : SizedBy d g' := by
  rcases hwrites.sizes with ⟨hholes, hoperands, hslots⟩ | ⟨d', hd', hsized⟩
  · exact ⟨hholes.trans h.holes, hoperands.trans h.operands, hslots.trans h.slots⟩
  · cases hd.symm.trans hd'
    exact hsized

/-! ### ALUs -/

/-- A function has a name in which percent signs are doubled. -/
def IsNamed (f : Function) (name : String) : Prop :=
  ∃ shown, singlePercents name.toList = some shown ∧ f.name = String.ofList shown

/-- A function is what is written for the stateless ALU of a description. Its body begins by reading the holes. -/
structure IsStateless (d : Alu.Description) (operands : List String) (name : String) (f : Function) : Prop where
  named : IsNamed f name
  written : ∃ widths,
    StatelessAlu.mainText ⟨name, operands, widths, d.holeVars, d.packetFields, d.body⟩ = .ok f.text
  spells : ∃ rest, Spells f.name f.text (StatelessAlu.parameterWords operands d.holeVars d.packetFields)
    (String.join ((StatelessAlu.reads d.holeVars).map StatelessAlu.readLine) ++ rest)

/-- A function is what is written for the stateful ALU of a description. -/
structure IsStateful (d : Alu.Description) (name : String) (f : Function) : Prop where
  named : IsNamed f name
  written : ∃ bits alu, StatefulAlu.ofSource name bits (.whole d) = .ok alu ∧ alu.mainText = .ok f.text
  takes : f.Takes (StatefulAlu.parameterWords d.packetFields (holesOf d))

/-- The functions for a stateless ALU of a name, with the sizes that a generator has behind it. There is no
multiplexer without inputs. -/
def StatelessPart (files : Files) (g : Generator) (name : String) (operands : List String)
    (fs : List Function) : Prop :=
  ∃ d f, described files g.statelessFile = some d ∧ g.statelessMuxes = some d.packetFields.length ∧
    (d.packetFields ≠ [] → operands ≠ []) ∧ IsStateless d operands name f ∧
    fs = (List.range d.packetFields.length).map (fun k =>
      Mux.function ⟨name ++ "_operand_mux_" ++ toString k, operands.length⟩) ++ [f]

/-- The functions for a stateful ALU of a name, with the sizes that a generator has behind it. -/
def StatefulPart (files : Files) (g : Generator) (name : String) (fs : List Function) : Prop :=
  ∃ d f, described files g.statefulFile = some d ∧ SizedBy d g ∧ IsStateful d name f ∧
    fs = (helpersOf d).map (Helper.function name) ++ [f]

theorem StatelessPart.writes (h : StatelessPart files g name operands fs) (hwrites : Writes files hs g g') :
    StatelessPart files g' name operands fs := by
  obtain ⟨d, f, hd, hmuxes, hrest⟩ := h
  refine ⟨d, f, by rw [hwrites.statelessFile, hd], ?_, hrest⟩
  rcases hwrites.muxes with hsame | ⟨d', hd', hfile⟩
  · rw [hsame, hmuxes]
  · rw [hfile, Option.some.inj (hd'.symm.trans hd)]

theorem StatefulPart.writes (h : StatefulPart files g name fs) (hwrites : Writes files hs g g') :
    StatefulPart files g' name fs := by
  obtain ⟨d, f, hd, hsized, hrest⟩ := h
  exact ⟨d, f, by rw [hwrites.statefulFile, hd], hsized.writes hd hwrites, hrest⟩

/-- The containers before a stage, as the operands of a stateless ALU. -/
def aluOperands (g : Generator) : List String :=
  (upTo g.shape.containers).map Mux.input

theorem not_mem_aluOperands (g : Generator) : ∀ o ∈ g.aluOperands, '%' ∉ o.toList := by
  intro o ho hmem
  obtain ⟨c, -, rfl⟩ := List.mem_map.1 ho
  rw [Mux.input, String.toList_append, List.mem_append] at hmem
  rcases hmem with hmem | hmem
  · exact absurd hmem (by decide)
  · exact absurd (Text.isDigit_of_mem_toString hmem) (by decide)

theorem namingPlan_names {p : Plan} (h : p.shape = g.shape) (i j : Nat) :
    g.namingPlan.statelessName i j = p.statelessName i j ∧ g.namingPlan.statefulName i j = p.statefulName i j := by
  rw [Plan.statelessName, Plan.statelessName, Plan.statefulName, Plan.statefulName, h]
  exact ⟨rfl, rfl⟩

theorem statelessName_eq (g : Generator) (i j : Nat) : g.shape.sketchName ++ "_" ++
    ("stateless_alu_" ++ toString i ++ "_" ++ toString j) = g.namingPlan.statelessName i j := by
  rw [Plan.statelessName, show "_stateless_alu_" = "_" ++ "stateless_alu_" by decide]
  simp only [String.append_assoc]
  rfl

theorem statefulName_eq (g : Generator) (i l : Nat) : g.shape.sketchName ++ "_" ++
    ("stateful_alu_" ++ toString i ++ "_" ++ toString l) = g.namingPlan.statefulName i l := by
  rw [Plan.statefulName, show "_stateful_alu_" = "_" ++ "stateful_alu_" by decide]
  simp only [String.append_assoc]
  rfl

theorem statelessAlu_writes (hg : Alike g₀ g) (h : EndsIn (statelessAlu name g₀.aluOperands) files g text g') :
    Writes files ((g₀.layout files).statelessHoles (g₀.shape.sketchName ++ "_" ++ name)) g g' ∧
      ∃ fs, Defines text fs ∧ StatelessPart files g' (g₀.shape.sketchName ++ "_" ++ name) g₀.aluOperands fs := by
  unfold statelessAlu at h
  simp only [endsIn_bind, endsIn_get, endsIn_read, endsIn_lift, endsIn_modify, endsIn_pure] at h
  obtain ⟨_, g, ⟨rfl, rfl⟩, files, g, ⟨rfl, rfl⟩, content, g, ⟨hcontent, rfl⟩, bits, g, ⟨hbits, rfl⟩, alu,
    g, ⟨halu, rfl⟩, muxes, g₁, hmuxes, main, g₁, ⟨hmain, rfl⟩, _, g₂, hholes, _, g', rfl, rfl, rfl⟩ := h
  obtain ⟨d, hd, rfl⟩ := declare_eq halu
  obtain ⟨rfl, hinputs, hcontrols⟩ := mapM_mux hmuxes
  have hadds := hcontrols.trans (addHoles_adds hholes)
  have hdescribed := described_eq hcontent hd
  rw [StatelessAlu.muxNames, List.map_map] at hadds
  rw [← hg.shape]
  refine ⟨?_, ?_⟩
  · have hstateless : describedBy (g₀.layout files).stateless = some d :=
      (congrArg (described files) hg.statelessFile).symm.trans hdescribed
    have hwidths : (g₀.layout files).widths = ⟨bits, g.constantBits⟩ := by
      show StatelessAlu.Widths.mk
        (((files.readAscii g₀.statelessFile).bind StatelessAlu.opcodeBits).toOption.getD 0 : Nat) g₀.constantBits = _
      rw [← hg.statelessFile, hcontent, ← hg.constantBits, Except.bind, hbits]
      rfl
    have hlength : (upTo (g₀.layout files).shape.containers).length = g₀.aluOperands.length := (List.length_map _).symm
    rw [Layout.statelessHoles, hstateless]
    dsimp only
    rw [hwidths, hlength]
    exact hadds.muxes hdescribed
  · obtain ⟨shown, rest, hshown, hspells⟩ := StatelessAlu.mainText_ok hmain g₀.not_mem_aluOperands
    -- Where there is a packet field its multiplexer has been written, which needs an input.
    have hoperands : d.packetFields ≠ [] → g₀.aluOperands ≠ [] := by
      intro hfields hnil
      have hpos := hinputs _ (List.mem_map_of_mem (List.mem_range.2 (List.length_pos_iff.2 hfields)))
      rw [hnil] at hpos
      exact absurd hpos (by decide)
    have hfunctions := Defines.functions (s := "") ((List.range d.packetFields.length).map fun k =>
      Mux.function ⟨g.shape.sketchName ++ "_" ++ name ++ "_operand_mux_" ++ toString k, g₀.aluOperands.length⟩) rfl
    simp only [String.append_empty, List.map_map] at hfunctions
    rw [StatelessAlu.muxNames, List.map_map]
    exact ⟨_, (Defines.gap (s := "\n\n\n") rfl hfunctions).append (.one ⟨_, main, hspells.headed⟩), d,
      ⟨_, main, hspells.headed⟩, hadds.alike.statelessFile ▸ hdescribed, rfl, hoperands,
      ⟨⟨shown, hshown, rfl⟩, ⟨_, hmain⟩, rest, hspells⟩, rfl⟩

theorem constantBits_of_ofSource {bits : Int} {source : Alu.Source} {alu : StatefulAlu}
    (h : StatefulAlu.ofSource name bits source = .ok alu) : alu.constantBits = bits := by
  unfold StatefulAlu.ofSource at h
  split at h
  · exact nomatch h
  · cases h
    rfl

theorem statefulAlu_writes (hg : Alike g₀ g) (h : EndsIn (statefulAlu name) files g text g') :
    Writes files ((g₀.layout files).statefulHoles (g₀.shape.sketchName ++ "_" ++ name)) g g' ∧
      ∃ fs, Defines text fs ∧ StatefulPart files g' (g₀.shape.sketchName ++ "_" ++ name) fs := by
  unfold statefulAlu at h
  simp only [endsIn_bind, endsIn_get, endsIn_read, endsIn_lift, endsIn_modify, endsIn_pure] at h
  obtain ⟨_, g, ⟨rfl, rfl⟩, files, g, ⟨rfl, rfl⟩, content, g, ⟨hcontent, rfl⟩, alu, g, ⟨halu, rfl⟩, main, g,
    ⟨hmain, rfl⟩, _, g₁, hholes, _, g', rfl, rfl, rfl⟩ := h
  obtain ⟨d, hsource, hname, hfields, hvars, hhelpers, hcode⟩ := StatefulAlu.ofSource_ok halu
  have hadds := addHoles_adds hholes
  have hdescribed := described_eq hcontent hsource
  have hbits := constantBits_of_ofSource halu
  rw [hsource] at hhelpers halu
  rw [← hfields] at hcode
  have hsorted : alu.sortedHoles = holesOf d := by
    rw [StatefulAlu.sortedHoles, hhelpers]
    rfl
  have hsized : SizedBy d { g₁ with
      statefulHoles := some alu.sortedHoles
      operands := alu.packetFields.length
      slots := alu.stateVars.length } :=
    ⟨congrArg some hsorted, congrArg List.length hfields, congrArg List.length hvars⟩
  rw [← hg.shape]
  refine ⟨?_, ?_⟩
  · have hstateful : describedBy (g₀.layout files).stateful = some d :=
      (congrArg (described files) hg.statefulFile).symm.trans hdescribed
    have hwrites := hadds.sizes hdescribed hsized
    rw [StatefulAlu.globalHoles, hname, hhelpers, hbits, hg.constantBits] at hwrites
    rw [Layout.statefulHoles, hstateful]
    exact hwrites
  · obtain ⟨shown, body, hshown, hspells⟩ := StatefulAlu.mainText_ok hmain hcode.begins
    rw [hfields, hsorted] at hspells
    refine ⟨_, alu.helperText_defines.append (.one ⟨_, main, hspells.headed⟩), d, ⟨_, main, hspells.headed⟩,
      hadds.alike.statefulFile ▸ hdescribed, hsized,
      ⟨⟨shown, hname ▸ hshown, rfl⟩, ⟨_, alu, halu, hmain⟩, body, hspells⟩, ?_⟩
    rw [hname, hhelpers]
    rfl

section Jobs

variable {γ : Type} {jobs : List γ} {write : γ → Generate String} {F : γ → List Hole}
  {Q : Generator → γ → List Function → Prop}

/-- ALUs are written one after the other. What is said of one of them with the sizes behind it stays true. -/
theorem writes_mapM {texts : List String}
    (hone : ∀ x {s y s'}, Alike g₀ s → EndsIn (write x) files s y s' →
      Writes files (F x) s s' ∧ ∃ fs, Defines y fs ∧ Q s' x fs)
    (hQ : ∀ {x fs s s' hs}, Q s x fs → Writes files hs s s' → Q s' x fs) (hg : Alike g₀ g)
    (h : EndsIn (jobs.mapM write) files g texts g') :
    Writes files (jobs.flatMap F) g g' ∧ ∃ fss, List.Forall₂ Defines texts fss ∧ List.Forall₂ (Q g') jobs fss := by
  induction jobs generalizing g texts with
  | nil =>
    obtain ⟨rfl, rfl⟩ := endsIn_pure.1 h
    exact ⟨.refl files _, [], .nil, .nil⟩
  | cons x jobs ih =>
    rw [List.mapM_cons] at h
    simp only [endsIn_bind, endsIn_pure] at h
    obtain ⟨_, g₁, hfirst, _, _, hrest, rfl, rfl⟩ := h
    obtain ⟨hwrites, fs, hdefines, hfs⟩ := hone x hg hfirst
    obtain ⟨hwrites', fss, hdefines', hfss⟩ := ih (alike.trans hg hwrites.toAlike) hrest
    exact ⟨hwrites.trans hwrites', fs :: fss, .cons hdefines hdefines', .cons (hQ hfs hwrites') hfss⟩

theorem writes_writeAll
    (hone : ∀ x {s y s'}, Alike g₀ s → EndsIn (write x) files s y s' →
      Writes files (F x) s s' ∧ ∃ fs, Defines y fs ∧ Q s' x fs)
    (hQ : ∀ {x fs s s' hs}, Q s x fs → Writes files hs s s' → Q s' x fs) (hg : Alike g₀ g)
    (h : EndsIn (writeAll jobs write) files g text g') :
    Writes files (jobs.flatMap F) g g' ∧ ∃ fss, Defines text fss.flatten ∧ List.Forall₂ (Q g') jobs fss := by
  unfold writeAll at h
  simp only [endsIn_bind, endsIn_pure] at h
  obtain ⟨parts, _, hparts, rfl, rfl⟩ := h
  obtain ⟨hwrites, fss, hdefines, hfss⟩ := writes_mapM hone hQ hg hparts
  refine ⟨hwrites, fss, .join (List.forall₂_map_left_iff.2 (hdefines.imp fun part fs hpart => ?_)), hfss⟩
  exact hpart.gapBehind (t := "\n") rfl

end Jobs

/-- The functions for the ALUs of a stage: those for its stateless ALUs, one after the other, and those for its
stateful ALUs. -/
def StagePart (files : Files) (g₀ g : Generator) (i : Nat) (fs : List Function) : Prop :=
  ∃ stateless stateful : List (List Function), fs = stateless.flatten ++ stateful.flatten ∧
    List.Forall₂ (fun j => StatelessPart files g (g₀.namingPlan.statelessName i j) g₀.aluOperands)
      (upTo g₀.shape.alus) stateless ∧
    List.Forall₂ (fun l => StatefulPart files g (g₀.namingPlan.statefulName i l)) g₀.units stateful

theorem StagePart.writes (h : StagePart files g₀ g i fs) (hwrites : Writes files hs g g') :
    StagePart files g₀ g' i fs := by
  obtain ⟨stateless, stateful, hfs, hstateless, hstateful⟩ := h
  exact ⟨stateless, stateful, hfs, hstateless.imp fun _ _ hpart => hpart.writes hwrites,
    hstateful.imp fun _ _ hpart => hpart.writes hwrites⟩

theorem stageAlus_writes (hg : Alike g₀ g) (h : EndsIn (stageAlus g₀ i) files g text g') :
    Writes files ((g₀.layout files).stageHoles i) g g' ∧ ∃ fs, Defines text fs ∧ StagePart files g₀ g' i fs := by
  unfold stageAlus at h
  simp only [endsIn_bind, endsIn_pure] at h
  obtain ⟨stateless, g₁, hstateless, stateful, g₂, hstateful, rfl, rfl⟩ := h
  obtain ⟨hwrites₁, fss₁, hdefines₁, hparts₁⟩ := writes_writeAll (fun _ _ _ _ hs => statelessAlu_writes hs)
    StatelessPart.writes hg hstateless
  obtain ⟨hwrites₂, fss₂, hdefines₂, hparts₂⟩ := writes_writeAll (fun _ _ _ _ hs => statefulAlu_writes hs)
    StatefulPart.writes (alike.trans hg hwrites₁.toAlike) hstateful
  simp only [statelessName_eq, statefulName_eq] at hwrites₁ hparts₁ hwrites₂ hparts₂
  exact ⟨hwrites₁.trans hwrites₂, _, hdefines₁.append hdefines₂, fss₁, fss₂, rfl,
    hparts₁.imp fun _ _ hpart => hpart.writes hwrites₂, hparts₂⟩

theorem alus_define (h : EndsIn alus files g text g') :
    Writes files ((upTo g.shape.stages).flatMap (g.layout files).stageHoles) g g' ∧
      ∃ fss, Defines text fss.flatten ∧ List.Forall₂ (StagePart files g g') (upTo g.shape.stages) fss := by
  rw [alus_eq] at h
  simp only [endsIn_bind, endsIn_get, endsIn_pure] at h
  obtain ⟨_, g, ⟨rfl, rfl⟩, stages, g', hstages, rfl, rfl⟩ := h
  obtain ⟨hwrites, fss, hdefines, hparts⟩ := writes_mapM (fun _ _ _ _ hs => stageAlus_writes hs) StagePart.writes
    (alike.refl g) hstages
  exact ⟨hwrites, fss, .join hdefines, hparts⟩

/-! ### Multiplexers of stateful operands and behind the stages -/

theorem muxes_define {inputs : Int} {names : List String} (h : EndsIn (writeAll names (mux inputs)) files g text g') :
    Defines text (names.map fun n => Mux.function ⟨n, inputs.toNat⟩) ∧ (∀ n ∈ names, 1 ≤ inputs) ∧
      Adds (names.map (controlHole inputs)) [] g g' := by
  unfold writeAll at h
  simp only [endsIn_bind, endsIn_pure] at h
  obtain ⟨texts, _, htexts, rfl, rfl⟩ := h
  obtain ⟨rfl, hrest⟩ := mapM_mux htexts
  refine ⟨?_, hrest⟩
  have hfunctions := Defines.functions (s := "\n") (names.map fun n => Mux.function ⟨n, inputs.toNat⟩) rfl
  rw [List.map_map] at hfunctions ⊢
  exact hfunctions

/-- The multiplexers of the operands of stateful ALUs, by their names. -/
def operandMuxNames (g : Generator) : List String :=
  (upTo g.shape.stages).flatMap fun i => g.units.flatMap fun l =>
    (List.range g.operands).map fun k => g.namingPlan.operandMux i l k

theorem mem_operandMuxNames {l k : Nat} (hi : i ∈ upTo g.shape.stages) (hl : l ∈ g.units) (hk : k < g.operands) :
    g.namingPlan.operandMux i l k ∈ g.operandMuxNames := by
  simp only [operandMuxNames, List.mem_flatMap, List.mem_map, List.mem_range]
  exact ⟨i, hi, l, hl, k, hk, rfl⟩

/-- The multiplexers of stateful operands have the containers as their inputs. -/
theorem operandMuxes_define (h : EndsIn operandMuxes files g text g') :
    g.operands ≠ 0 ∧
    Defines text (g.operandMuxNames.map fun n => Mux.function ⟨n, g.shape.containers.toNat⟩) ∧
    (∀ n ∈ g.operandMuxNames, 1 ≤ g.shape.containers) ∧
    Adds (g.operandMuxNames.map (controlHole g.shape.containers)) [] g g' := by
  unfold operandMuxes at h
  simp only [endsIn_bind, endsIn_get] at h
  obtain ⟨_, g, ⟨rfl, rfl⟩, h⟩ := h
  split at h
  next => simp at h
  next hoperands => exact ⟨hoperands, muxes_define h⟩

/-- The inputs of a multiplexer behind a stage: the states of all units and the stateless ALU. -/
def outputInputs (g : Generator) : Int :=
  (if g.synthesized then g.shape.containers else g.shape.groups) * g.slots + 1

/-- The multiplexers behind the stages, by their names. -/
def outputMuxNames (g : Generator) : List String :=
  (upTo g.shape.stages).flatMap fun i => (upTo g.shape.containers).map fun k => g.namingPlan.outputMux i k

/-- Behind a stage there are no multiplexers if each container has one writer. -/
theorem outputMuxes_define (h : EndsIn outputMuxes files g text g') :
    (g.shape.tofino = true ∧ text = "" ∧ Adds g.demuxHoles ((upTo g.shape.stages).flatMap fun i =>
      (upTo g.shape.containers).map (g.namingPlan.writerConstraint i)) g g') ∨
    g.shape.tofino = false ∧ Defines text (g.outputMuxNames.map fun n => Mux.function ⟨n, g.outputInputs.toNat⟩) ∧
      (∀ n ∈ g.outputMuxNames, 1 ≤ g.outputInputs) ∧
      Adds (g.outputMuxNames.map (controlHole g.outputInputs)) [] g g' := by
  unfold outputMuxes at h
  simp only [endsIn_bind, endsIn_get] at h
  obtain ⟨_, g, ⟨rfl, rfl⟩, h⟩ := h
  split at h
  next htofino =>
    simp only [endsIn_bind, endsIn_pure] at h
    obtain ⟨_, _, hdemuxes, rfl, rfl⟩ := h
    exact .inl ⟨htofino, rfl, demuxes_adds hdemuxes⟩
  next htofino => exact .inr ⟨Bool.eq_false_iff.2 htofino, muxes_define h⟩

theorem outputMuxes_adds (h : EndsIn outputMuxes files g text g') : ∃ hs cs, Adds hs cs g g' := by
  rcases outputMuxes_define h with ⟨-, -, hadds⟩ | ⟨-, -, -, hadds⟩ <;> exact ⟨_, _, hadds⟩

/-- The plan of a sketch has the shape that the generator began with, and the sizes that it had behind the ALUs. -/
theorem program_plan {r : Request} {p : Program} (h : EndsIn (program r) files g p g') :
    ∃ g₁ g₂ g₃, EndsIn alus files g.emptied p.alus g₁ ∧
      EndsIn operandMuxes files g₁ p.operandMuxes g₂ ∧ EndsIn outputMuxes files g₂ p.outputMuxes g₃ ∧
      EndsIn allocate files g₃ () g' ∧ g₁.statelessMuxes = some p.plan.statelessMuxes ∧
      g₁.statefulHoles = some p.plan.statefulHoles ∧
      p.plan = ⟨g.shape, r.synthesized, p.plan.statelessMuxes, p.plan.statefulHoles, g₁.operands, g₁.slots⟩ := by
  obtain ⟨g₁, g₂, g₃, halus, hoperands, houtputs, hallocate, hmuxes, hholes, -, hp⟩ := program_inv h
  have hshape : g₁.shape = g.shape := (alus_define halus).1.shape
  obtain ⟨_, _, hthird⟩ := outputMuxes_adds houtputs
  have hadds := ((operandMuxes_define hoperands).2.2.2.trans hthird).trans (allocate_adds hallocate)
  have hplan := congrArg Program.plan hp
  rw [hadds.eq] at hmuxes hholes hplan
  exact ⟨g₁, g₂, g₃, halus, hoperands, houtputs, hallocate, hmuxes, hholes, hshape ▸ hplan⟩

theorem program_shape {r : Request} {p : Program} (h : EndsIn (program r) files g p g') :
    p.plan.shape = g.shape := by
  obtain ⟨_, _, _, -, -, -, -, -, -, hplan⟩ := program_plan h
  rw [hplan]

end Generator

theorem not_mem_toString_int (n : Int) : '\n' ∉ (toString n).toList := by
  cases n with
  | ofNat m => exact fun h => absurd (Text.isDigit_of_mem_toString h) (by decide)
  | negSucc m =>
    show '\n' ∉ ("-" ++ toString (m + 1)).toList
    rw [String.toList_append, List.mem_append]
    rintro (h | h)
    · exact absurd h (by decide)
    · exact absurd (Text.isDigit_of_mem_toString h) (by decide)

/-- The definitions of a sketch are those of its parts, with comments in front of each. -/
theorem Program.defines {p : Program} {fs₁ fs₂ fs₃ : List Function} (h₁ : Defines p.operandMuxes fs₁)
    (h₂ : Defines p.outputMuxes fs₂) (h₃ : Defines p.alus fs₃) :
    Defines p.definitionsText (fs₁ ++ fs₂ ++ fs₃) := by
  have hsizes : '\n' ∉ (" Total of " ++ toString p.plan.shape.stages ++ " * " ++ toString p.plan.shape.alus ++
      " * 3 " ++ toString p.plan.shape.containers ++ "-to-1 muxes").toList := by
    simp only [String.toList_append, List.mem_append, not_mem_toString_int, or_false]
    decide
  have hfirst := Defines.comment " Operand muxes for each ALU in each stage" (by decide)
    (.comment _ hsizes (.comment " The 3 is for two stateless operands and one stateful operand." (by decide)
      (.gap (s := "\n") rfl h₁)))
  have hsecond := Defines.gap (s := "\n\n") rfl (.comment " Output mux for each PHV container" (by decide)
    (.comment (" Allows the container to be written from either its own stateless ALU or any stateful " ++ "ALU")
      (by decide) (.gap (s := "\n") rfl h₂)))
  have hthird := Defines.gap (s := "\n\n") rfl (.comment " Definition for ALUs" (by decide) (.gap (s := "\n") rfl h₃))
  -- It is left to cut the literals where a comment begins and where its line ends.
  have hall := (hfirst.append hsecond).append hthird
  simp only [String.append_assoc] at hall
  unfold definitionsText
  simp only [
    show "// Operand muxes for each ALU in each stage\n// Total of " =
      "//" ++ (" Operand muxes for each ALU in each stage" ++ ("\n" ++ ("//" ++ " Total of "))) by decide,
    show "-to-1 muxes\n// The 3 is for two stateless operands and one stateful operand.\n\n" = "-to-1 muxes" ++
      ("\n" ++ ("//" ++ (" The 3 is for two stateless operands and one stateful operand." ++ ("\n" ++ "\n")))) by
        decide,
    show "\n\n// Output mux for each PHV container\n" =
      "\n\n" ++ ("//" ++ (" Output mux for each PHV container" ++ "\n")) by decide,
    show "// Allows the container to be written from either its own stateless ALU or any stateful " =
      "//" ++ " Allows the container to be written from either its own stateless ALU or any stateful " by decide,
    show "ALU\n\n" = "ALU" ++ ("\n" ++ "\n") by decide,
    show "\n\n// Definition for ALUs\n\n" = "\n\n" ++ ("//" ++ (" Definition for ALUs" ++ ("\n" ++ "\n"))) by decide,
    String.append_assoc]
  exact hall

end Sketch

end SwitchSynth
