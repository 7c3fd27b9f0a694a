import SwitchSynth.Proofs.Paths
import SwitchSynth.Proofs.Synthesis.Course
import SwitchSynth.Proofs.Text

/-!
# The files that synthesis writes

The sketches, their outputs and their checks are files whose names begin with the stems of the specification and
of the two ALUs, and go on. None of them is one of these three files, whose stems are shorter. So in a round a file
that synthesis reads changes only if the synthesiser writes it.
-/

namespace SwitchSynth

/-! ### Names of files -/

/-- A text in which there is neither a point nor a slash. -/
def IsStem (s : String) : Prop :=
  '.' ∉ s.toList ∧ '/' ∉ s.toList

theorem IsStem.append {a b : String} (ha : IsStem a) (hb : IsStem b) : IsStem (a ++ b) := by
  simp only [IsStem, String.toList_append, List.mem_append, not_or]
  exact ⟨⟨ha.1, hb.1⟩, ha.2, hb.2⟩

theorem isStem_nat (n : Nat) : IsStem (toString n) :=
  ⟨fun h => absurd (Text.isDigit_of_mem_toString h) (by decide),
    fun h => absurd (Text.isDigit_of_mem_toString h) (by decide)⟩

theorem isStem_int (n : Int) : IsStem (toString n) := by
  cases n with
  | ofNat m => exact isStem_nat m
  | negSucc m =>
    have hsign : IsStem "-" := by unfold IsStem; decide
    exact hsign.append (isStem_nat (m + 1))

namespace Arguments

theorem isStem_stem (file : String) : IsStem (stem file) := by
  have hfirst : stem file ∈ Text.split "." ((Text.split "/" file).getLastD "") := by
    unfold stem
    cases hpieces : Text.split "." ((Text.split "/" file).getLastD "") with
    | nil => exact absurd hpieces (Text.split_ne_nil _ _)
    | cons first rest => exact List.mem_cons_self
  have hlast : (Text.split "/" file).getLastD "" ∈ Text.split "/" file := by
    rw [List.getLastD_eq_getLast?, List.getLast?_eq_some_getLast (Text.split_ne_nil _ _)]
    exact List.getLast_mem _
  constructor
  · exact Text.not_mem_of_mem_split (by decide) hfirst
  · intro hslash
    exact Text.not_mem_of_mem_split (by decide) hlast (Text.mem_of_mem_split hfirst hslash)

variable (a : Arguments)

theorem isStem_sketchName : IsStem a.sketchName := by
  have hline : IsStem "_" := by unfold IsStem; decide
  unfold sketchName
  exact ((((((((isStem_stem _).append hline).append (isStem_stem _)).append hline).append
    (isStem_stem _)).append hline).append (isStem_int _)).append hline).append (isStem_int _)

/-- The files whose stems are in the name of the sketches. -/
def sources : List String :=
  [a.specFile, a.statefulFile, a.statelessFile]

theorem length_stem_le {file : String} (h : file ∈ a.sources) : (stem file).length ≤ a.sketchName.length := by
  simp only [sources, List.mem_cons, List.not_mem_nil, or_false] at h
  simp only [sketchName, String.length_append]
  rcases h with rfl | rfl | rfl <;> omega

/-- A file of synthesis: its name goes on behind the name of the sketches, up to an ending. -/
def ownFile (more ending : String) : String :=
  a.sketchName ++ "_" ++ more ++ "." ++ ending

variable {a} {more ending : String}

theorem isPlain_ownFile (hmore : IsStem more) (hending : '/' ∉ ending.toList) :
    '/' ∉ (a.ownFile more ending).toList := by
  simp only [ownFile, String.toList_append, List.mem_append, not_or]
  exact ⟨⟨⟨⟨a.isStem_sketchName.2, by decide⟩, hmore.2⟩, by decide⟩, hending⟩

/-- A file of synthesis has a name of its own: it is neither empty nor does it consist of points. -/
theorem ownFile_ne_of_not_mem {name : String} (h : '_' ∉ name.toList) : a.ownFile more ending ≠ name := by
  rintro rfl
  simp [ownFile] at h

theorem pathName_ownFile (hmore : IsStem more) (hending : '/' ∉ ending.toList) :
    pathName (a.ownFile more ending) = a.ownFile more ending :=
  pathName_of_plain (isPlain_ownFile hmore hending) (ownFile_ne_of_not_mem (by decide))
    (ownFile_ne_of_not_mem (by decide)) (ownFile_ne_of_not_mem (by decide))

theorem plainPath_ownFile (hmore : IsStem more) (hending : '/' ∉ ending.toList) :
    plainPath (a.ownFile more ending) = a.ownFile more ending :=
  plainPath_of_plain (isPlain_ownFile hmore hending) (ownFile_ne_of_not_mem (by decide))
    (ownFile_ne_of_not_mem (by decide))

/-- A file of synthesis is none of the files that it reads: their stems are shorter. -/
theorem ownFile_ne {files : Files} {file text : String} (hmore : IsStem more) (hending : '/' ∉ ending.toList)
    (hfile : file ∈ a.sources) (h : files.content file = .ok text) :
    pathName (a.ownFile more ending) ≠ pathName file := by
  rw [pathName_ownFile hmore hending]
  intro heq
  have hlast := Files.getLastD_split_of_pathName (isPlain_ownFile hmore hending)
    (ownFile_ne_of_not_mem (by decide)) h heq.symm
  -- So the two stems are the same, but the one of the file of synthesis is longer.
  have hstem : stem file = a.sketchName ++ "_" ++ more := by
    have hline : IsStem "_" := by unfold IsStem; decide
    rw [stem, hlast]
    exact Text.headD_split ending (show ".".toList = ['.'] by decide)
      ((a.isStem_sketchName.append hline).append hmore).1
  have hle := a.length_stem_le hfile
  rw [hstem, String.length_append, String.length_append] at hle
  have hline : "_".length = 1 := rfl
  omega

end Arguments

/-! ### The files of a round -/

namespace Arguments

variable (a : Arguments) (n : Nat)

theorem codegenFile_eq : a.sketchName ++ "_codegen_iteration_" ++ toString n ++ ".sk" =
    a.ownFile ("codegen_iteration_" ++ toString n) "sk" := by
  rw [ownFile, show "_codegen_iteration_" = "_" ++ "codegen_iteration_" by decide, show ".sk" = "." ++ "sk" by decide]
  simp only [String.append_assoc]

theorem checkFile_eq : a.sketchName ++ "_verify_iter_" ++ toString n ++ ".sk" =
    a.ownFile ("verify_iter_" ++ toString n) "sk" := by
  rw [ownFile, show "_verify_iter_" = "_" ++ "verify_iter_" by decide, show ".sk" = "." ++ "sk" by decide]
  simp only [String.append_assoc]

theorem isStem_codegen : IsStem ("codegen_iteration_" ++ toString n) := by
  have hwords : IsStem "codegen_iteration_" := by unfold IsStem; decide
  exact hwords.append (isStem_nat n)

theorem isStem_check : IsStem ("verify_iter_" ++ toString n) := by
  have hwords : IsStem "verify_iter_" := by unfold IsStem; decide
  exact hwords.append (isStem_nat n)

theorem isStem_output : IsStem ("codegen_iteration_" ++ toString n ++ "_output") := by
  have hwords : IsStem "_output" := by unfold IsStem; decide
  exact (isStem_codegen n).append hwords

theorem outputFile_eq : Compile.outputFile (a.ownFile ("codegen_iteration_" ++ toString n) "sk") =
    a.ownFile ("codegen_iteration_" ++ toString n ++ "_output") "txt" := by
  have hline : IsStem "_" := by unfold IsStem; decide
  have hstem : IsStem (a.sketchName ++ "_" ++ ("codegen_iteration_" ++ toString n)) :=
    (a.isStem_sketchName.append hline).append (isStem_codegen n)
  have hname : a.ownFile ("codegen_iteration_" ++ toString n) "sk" =
      a.sketchName ++ "_" ++ ("codegen_iteration_" ++ toString n) ++ ".sk" ++ "" := by
    rw [ownFile, show ".sk" = "." ++ "sk" by decide]
    simp only [String.append_assoc, String.append_empty]
  rw [Compile.outputFile, hname, Text.headD_split "" (show ".sk".toList = ['.', 's', 'k'] by decide) hstem.1, ownFile,
    show "_output.txt" = "_output" ++ ("." ++ "txt") by decide]
  simp only [String.append_assoc]

end Arguments

/-! ### Files that stay -/

/-- A file stays as it is unless a reply writes it, and no reply is added. -/
structure Workspace.Spares (name : String) (w w' : Workspace) : Prop where
  replies : w'.replies ⊆ w.replies
  file : (∀ r ∈ w.replies, ∀ f ∈ r.files, pathName f.1 ≠ name) → w'.files.get? name = w.files.get? name

theorem spares (name : String) : Lasting (Workspace.Spares name) where
  refl _ := ⟨fun _ h => h, fun _ => rfl⟩
  trans h h' := by
    refine ⟨fun r hr => h.replies (h'.replies hr), fun hkept => ?_⟩
    rw [h'.file fun r hr => hkept r (h.replies hr), h.file hkept]

theorem Workspace.Prints.spares {w w' : Workspace} (h : w.Prints w') (name : String) : w.Spares name w' := by
  obtain ⟨_, rfl⟩ := h
  exact ⟨fun _ hr => hr, fun _ => rfl⟩

namespace Work

variable {name : String} {α : Type}

theorem say_spares (line : String) : Moves (Workspace.Spares name) (say line) :=
  moves_modify fun w => Workspace.Prints.spares ⟨w.printed ++ line ++ "\n", rfl⟩ name

theorem ofExcept_spares (r : Except Error α) : Moves (Workspace.Spares name) (ofExcept r) := by
  cases r with
  | error e => exact (spares name).throw e
  | ok a => exact (spares name).pure a

theorem require_spares (holds : Bool) (c : Check) : Moves (Workspace.Spares name) (require holds c) := by
  unfold require
  split
  · exact (spares name).pure ()
  · exact (spares name).throw _

theorem readText_spares (path : String) : Moves (Workspace.Spares name) (readText path) :=
  (spares name).bind (spares name).get fun _ => ofExcept_spares _

theorem write_spares {path text : String} {w w' : Workspace} (hpath : pathName path ≠ name)
    (h : Ends (write path text) w () w') : w.Spares name w' := by
  obtain ⟨files, hfiles, rfl⟩ := write_inv h
  refine ⟨fun _ hr => hr, fun _ => ?_⟩
  rw [Files.write_ok hfiles]
  exact Table.get?_insert_of_ne _ _ hpath

theorem command_spares (line : String) : Moves (Workspace.Spares name) (command line) := by
  intro w
  refine ⟨fun _ hr => List.mem_of_mem_tail hr, fun hkept => ?_⟩
  show ((w.replies.headD {}).files.foldl (fun files f => Table.insert files (pathName f.1) f.2) w.files).get? name = _
  have hown : ∀ f ∈ (w.replies.headD {}).files, pathName f.1 ≠ name := by
    cases hreplies : w.replies with
    | nil => exact fun f hf => nomatch hf
    | cons r rest => exact hkept r (hreplies ▸ List.mem_cons_self)
  generalize (w.replies.headD {}).files = written at hown
  generalize w.files = files
  induction written generalizing files with
  | nil => rfl
  | cons f rest ih =>
    rw [List.foldl_cons, ih (fun f hf => hown f (List.mem_cons_of_mem _ hf)),
      Table.get?_insert_of_ne _ _ (hown f List.mem_cons_self)]

end Work

namespace Synthesizer

variable {name : String}

theorem checkSyntax_spares (file : String) : Moves (Workspace.Spares name) (checkSyntax file) := by
  unfold checkSyntax
  refine (spares name).bind (Work.command_spares _) fun reply => ?_
  split
  · exact (spares name).bind (Work.say_spares _) fun _ => Work.require_spares _ _
  · split
    · exact (spares name).throw _
    · exact (spares name).pure ()

theorem synthesize_spares (file inputBits seed : String) (parallel : Option Bool) :
    Moves (Workspace.Spares name) (synthesize file inputBits seed parallel) := by
  unfold synthesize
  cases parallel with
  | none => exact (spares name).throw _
  | some parallel =>
    refine (spares name).bind (checkSyntax_spares file) fun _ => ?_
    refine (spares name).bind (Work.command_spares _) fun _ => ?_
    exact (spares name).bind (Work.require_spares _ _) fun _ => (spares name).pure _

theorem circuit_spares (file : String) : Moves (Workspace.Spares name) (circuit file) := by
  refine (spares name).bind (checkSyntax_spares file) fun _ => ?_
  exact (spares name).bind (Work.command_spares _) fun _ => Work.readText_spares _

end Synthesizer

namespace Compile

variable {name : String} {c c' : Compiler} {w w' : Workspace}

theorem job_spares {j : Job} {run : Run} (hfile : pathName j.file ≠ name)
    (houtput : pathName (outputFile j.file) ≠ name) (h : Ends (job j) c w run c' w') : w.Spares name w' := by
  obtain ⟨sketch, g, w₁, w₂, w₃, -, -, hwrite, hprints, hsynthesize, hwrite', -⟩ := job_inv h
  have hfirst := Work.write_spares hfile hwrite
  have hsecond := (spares name).trans hfirst (hprints.spares name)
  have hthird := (spares name).trans hsecond ((Synthesizer.synthesize_spares _ _ _ _).related hsynthesize)
  exact (spares name).trans hthird (Work.write_spares houtput hwrite')

theorem question_spares {values : Table Sketch.HoleValue} {inputBits : Int} {iteration : String}
    {f : Formula.Quantified}
    (hfile : pathName (plainPath (c.options.sketchName ++ "_verify_iter_" ++ iteration ++ ".sk")) ≠ name)
    (h : Ends (question values inputBits iteration) c w f c' w') : w.Spares name w' := by
  obtain ⟨sketch, g, w₁, circuit, -, -, -, hwrite, hcircuit⟩ := question_inv h
  exact (spares name).trans (Work.write_spares hfile hwrite)
    ((Synthesizer.circuit_spares _).related hcircuit)

end Compile

namespace Loop

variable {s : Setup} {x : Stand} {c : Compiler} {w : Workspace} {run : Compile.Run} {files : Files}
  {file text : String}

/-- While the synthesiser fills the holes of the one sketch of a round, a file that synthesis reads is spared. -/
theorem Tries.spares (hserial : s.arguments.parallel = false)
    (hname : x.compiler.options.sketchName = s.arguments.sketchName) (hfile : file ∈ s.arguments.sources)
    (hcontent : files.content file = .ok text) (h : Tries s x run c w) :
    x.workspace.Spares (pathName file) w := by
  obtain ⟨j, w₀, hjobs, hprints, hjob⟩ := h.serial hserial
  have hj : j.file = s.arguments.ownFile ("codegen_iteration_" ++ toString x.progress.round) "sk" := by
    rw [jobs, if_neg (by simp [hserial])] at hjobs
    rw [← (List.singleton_inj.1 hjobs), hname, Arguments.codegenFile_eq]
  refine (SwitchSynth.spares _).trans (hprints.spares _) (Compile.job_spares ?_ ?_ hjob)
  · rw [hj]
    exact Arguments.ownFile_ne (Arguments.isStem_codegen _) (by decide) hfile hcontent
  · rw [hj, Arguments.outputFile_eq]
    exact Arguments.ownFile_ne (Arguments.isStem_output _) (by decide) hfile hcontent

theorem Asks.spares {f : Formula.Quantified} (hserial : s.arguments.parallel = false)
    (hname : x.compiler.options.sketchName = s.arguments.sketchName) (hfile : file ∈ s.arguments.sources)
    (hcontent : files.content file = .ok text) (h : Asks s x run f c w) :
    x.workspace.Spares (pathName file) w := by
  obtain ⟨c₁, w₁, w₂, htries, hcode, hprints, hquestion⟩ := h.tries
  obtain ⟨_, _, _, _, _, _, hc₁, -⟩ := htries.sketch
  have hfirst := htries.spares hserial hname hfile hcontent
  have hsecond := (SwitchSynth.spares _).trans hfirst (hprints.spares _)
  refine (SwitchSynth.spares _).trans hsecond (Compile.question_spares ?_ hquestion)
  have hown : c₁.options.sketchName = s.arguments.sketchName := by
    rw [hc₁]
    exact hname
  rw [hown, Arguments.checkFile_eq, Arguments.plainPath_ownFile (Arguments.isStem_check _) (by decide)]
  exact Arguments.ownFile_ne (Arguments.isStem_check _) (by decide) hfile hcontent

end Loop

/-! ### Compilers at the start -/

theorem Compiler.create_ok {o : Compiler.Options} {files : Files} {c : Compiler}
    (h : Compiler.create o files = .ok c) :
    (∃ spec, files.readText o.specFile = .ok spec ∧ c.groups = (Spec.stateGroups spec).size) ∧
    ∃ fields bits, Sketch.bitWidth o.constants.length = .ok bits ∧ c.options = o ∧ c.constants = o.constants ∧
      c.generator = {
        shape := Compiler.shape o fields c.groups
        synthesized := o.synthesized
        statefulFile := o.statefulFile
        statelessFile := o.statelessFile
        constants := ⟨o.constants, true⟩
        constantBits := bits } := by
  unfold Compiler.create at h
  cases hspec : files.readText o.specFile with
  | error e => rw [hspec] at h; exact nomatch h
  | ok spec =>
    rw [hspec] at h
    change (Spec.fieldCount spec >>= _) = _ at h
    cases hfields : Spec.fieldCount spec with
    | error e => rw [hfields] at h; exact nomatch h
    | ok fields =>
      rw [hfields] at h
      change (Compiler.checkFields o fields >>= _) = _ at h
      cases hcheck : Compiler.checkFields o fields with
      | error e => rw [hcheck] at h; exact nomatch h
      | ok u =>
        rw [hcheck] at h
        change (Sketch.Generator.create _ _ _ _ _ >>= _) = _ at h
        unfold Sketch.Generator.create at h
        cases hbits : Sketch.bitWidth o.constants.length with
        | error e => rw [hbits] at h; exact nomatch h
        | ok bits =>
          rw [hbits] at h
          cases h
          exact ⟨⟨spec, rfl, rfl⟩, fields, bits, rfl, rfl, rfl, rfl⟩

/-- What is known of the stand that rounds begin with. -/
structure Loop.Begins (s : Loop.Setup) (x : Loop.Stand) : Prop where
  progress : x.progress = {}
  options : x.compiler.options = s.arguments.options s.groupSize
  constants : x.compiler.constants = s.arguments.constantList
  groups : 0 < x.compiler.groups
  generator : ∃ fields bits, Sketch.bitWidth s.arguments.constantList.length = .ok bits ∧
    x.compiler.generator = {
      shape := Compiler.shape (s.arguments.options s.groupSize) fields x.compiler.groups
      synthesized := s.arguments.synthesized
      statefulFile := s.arguments.statefulFile
      statelessFile := s.arguments.statelessFile
      constants := ⟨s.arguments.constantList, true⟩
      constantBits := bits }

theorem Loop.Starts.begins {solver : Nat → Formula.Solver} {a : Arguments} {w : Workspace} {s : Loop.Setup}
    {c : Compiler} (h : Loop.Starts solver a w s c) : Loop.Begins s ⟨{}, c, w⟩ := by
  obtain ⟨spec, fields, group, states, rest, hspec, -, hgroups, hcreate, rfl⟩ := h
  obtain ⟨⟨spec', hspec', hsize⟩, fields, bits, hbits, hoptions, hconstants, hgenerator⟩ := Compiler.create_ok hcreate
  refine ⟨rfl, hoptions, hconstants, ?_, fields, bits, hbits, hgenerator⟩
  obtain rfl : spec = spec' := Except.ok.inj (hspec.symm.trans hspec')
  have hentries : (Spec.stateGroups spec).entries = (group, states) :: rest := hgroups
  show 0 < c.groups
  rw [hsize, Table.size, hentries]
  exact Nat.succ_pos _

namespace SmallSwitch

def spec : String :=
  "state_and_packet.pkt_0 = state_and_packet.state_group_0_state_0;"

/-- A program with a state, a stateful ALU that gives a constant, and a stateless ALU with an opcode. -/
def files : Files :=
  .ofList
    [("p.sk", spec),
     ("u.alu", "type:stateful state variables:{s} hole variables:{} packet fields:{x} return C();"),
     ("v.alu", "// Max value of opcode is 1\ntype:stateless state variables:{} " ++
       "hole variables:{opcode} packet fields:{x} return x;")]

/-- One stage with one ALU of each kind, with or without elimination of assignments. -/
def arguments (elimination : Bool) : Arguments where
  specFile := "p.sk"
  statefulFile := "u.alu"
  statelessFile := "v.alu"
  stages := 1
  alus := 1
  constants := "0,1"
  inputBits := 2
  holeElimination := elimination

/-- What the synthesiser says of the six holes of the first sketch. -/
def solved : String :=
  String.join (["stateless_alu_0_0_operand_mux_0_ctrl", "stateless_alu_0_0_opcode", "stateful_alu_0_0_const_0_global",
    "stateful_alu_0_0_operand_mux_0_ctrl", "output_mux_phv_0_0_ctrl", "salu_config_0_0"].map fun hole =>
      "p_u_v_1_1_" ++ hole ++ "__0 = 0\n")

/-- Two sketches are read, and the first of them is solved. -/
def workspace : Workspace where
  files := files
  replies := [{ code := 0 }, { code := 0, output := solved }, { code := 0 }, { code := 0 }]

def setup (elimination : Bool) : Loop.Setup :=
  ⟨arguments elimination, fun _ => Formula.Solver.bounded 2, ⟨1, [("0", ["0"])]⟩, 1⟩

theorem readText_spec : files.readText "p.sk" = .ok spec := by decide +kernel

theorem fieldCount_spec : Spec.fieldCount spec = .ok 1 := by decide +kernel

theorem stateGroups_spec : (Spec.stateGroups spec).toList = [("0", ["0"])] := by decide +kernel

theorem starts {elimination : Bool} {c : Compiler}
    (h : Compiler.create ((arguments elimination).options 1) files = .ok c) :
    Loop.Starts (setup elimination).solver (arguments elimination) workspace (setup elimination) c :=
  ⟨spec, 1, "0", ["0"], [], readText_spec, fieldCount_spec, stateGroups_spec, h, rfl⟩

theorem exists_starts :
    ∃ c, Loop.Starts (setup false).solver (arguments false) workspace (setup false) c := by
  have hcheck : (Compiler.create ((arguments false).options 1) files).toBool = true := by decide +kernel
  cases hcreate : Compiler.create ((arguments false).options 1) files with
  | error e =>
    rw [hcreate] at hcheck
    exact nomatch hcheck
  | ok c => exact ⟨c, starts hcreate⟩

end SmallSwitch

end SwitchSynth
