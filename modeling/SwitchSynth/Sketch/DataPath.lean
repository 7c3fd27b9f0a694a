import SwitchSynth.Sketch.Mux

/-!
# The data path of a pipeline

The data path reads the packet fields into containers, passes them through the stages and writes them
back. In each stage the stateless ALUs compute from the containers, the stateful ALUs compute from chosen
containers and from the state group they are configured for, and the containers of the next stage are
chosen from what the ALUs return.

A data path is a list of steps with notes between them. Each step is a statement of the sketch; `Step.text`
writes it.

A stateful ALU is a *unit* of its stage. In the canonical allocation there is one unit for each state group;
in the synthesised allocation there is one for each container, and holes decide which group it serves.
-/

namespace SwitchSynth.Sketch

/-- The numbers below an integer. -/
def upTo (n : Int) : List Nat :=
  List.range n.toNat

/-- The dimensions of a pipeline and what is asked of it. -/
structure Shape where
  /-- The name in front of all that belongs to the sketch. -/
  sketchName : String
  containers : Int
  groups : Int
  alus : Int
  stages : Int
  fields : Int
  outputFields : List Int
  outputGroups : List Int
  inputFields : List Int
  /-- The states of each group that are compared. -/
  groupSize : Int
  /-- Whether each container has exactly one writer in each stage. -/
  tofino : Bool
  deriving Repr

/-- A pipeline whose ALUs are known. -/
structure Plan where
  shape : Shape
  /-- Whether holes decide which container holds which field, and which ALU which state group. -/
  synthesized : Bool
  /-- The multiplexers of a stateless ALU. -/
  statelessMuxes : Nat
  /-- The holes of a stateful ALU, as its function names them. -/
  statefulHoles : List String
  /-- The packet operands of a stateful ALU. -/
  operands : Nat
  slots : Nat
  deriving Repr

namespace Plan

/-- The stateful ALUs of a stage. -/
def units (p : Plan) : List Nat :=
  if p.synthesized then upTo p.shape.containers else upTo p.shape.groups

def statelessName (p : Plan) (stage alu : Nat) : String :=
  p.shape.sketchName ++ "_stateless_alu_" ++ toString stage ++ "_" ++ toString alu

def statefulName (p : Plan) (stage unit : Nat) : String :=
  p.shape.sketchName ++ "_stateful_alu_" ++ toString stage ++ "_" ++ toString unit

/-- The multiplexer of an operand of a stateful ALU. -/
def operandMux (p : Plan) (stage unit operand : Nat) : String :=
  p.statefulName stage unit ++ "_operand_mux_" ++ toString operand

def outputMux (p : Plan) (stage container : Nat) : String :=
  p.shape.sketchName ++ "_output_mux_phv_" ++ toString stage ++ "_" ++ toString container

/-- The hole that gives a state group to a stateful ALU. -/
def stateConfig (p : Plan) (stage unit group : Nat) : String :=
  p.shape.sketchName ++ "_salu_config_" ++
    (if p.synthesized then
      toString group ++ "_" ++ toString stage ++ "_" ++ toString unit
    else toString stage ++ "_" ++ toString group)

/-- The hole that gives a packet field to a container. -/
def fieldConfig (field : Int) (container : Nat) : String :=
  "phv_config_" ++ toString field ++ "_" ++ toString container

end Plan

def inputName (stage container : Nat) : String :=
  "input_" ++ toString stage ++ "_" ++ toString container

def outputName (stage : Int) (container : Nat) : String :=
  "output_" ++ toString stage ++ "_" ++ toString container

def destinationName (stage alu : Nat) : String :=
  "destination_" ++ toString stage ++ "_" ++ toString alu

def returnedName (stage unit : Nat) : String :=
  "returned_state_" ++ toString stage ++ "_" ++ toString unit

def stateName (stage unit : Nat) : String :=
  "state_operand_salu_" ++ toString stage ++ "_" ++ toString unit

/-- A packet operand of a stateful ALU. -/
def operandName (stage unit operand : Nat) : String :=
  "packet_operand_salu" ++ toString stage ++ "_" ++ toString unit ++ "_" ++ toString operand

def fieldName (field : Int) : String :=
  "pkt_" ++ toString field

def stateVarName (group : Int) (slot : Nat) : String :=
  "state_group_" ++ toString group ++ "_state_" ++ toString slot

/-- Where the fields and states of the program are kept. -/
def inRecord (name : String) : String :=
  "state_and_packet." ++ name

/-- The statements of a data path. -/
inductive Step where
  | clearContainer (container : Nat)
  | clearState (stage unit : Nat)
  | readField (field : Int) (container : Nat)
  /-- A container takes a packet field if a hole says so. -/
  | readFieldIf (field : Int) (container : Nat)
  | passOn (stage container : Nat)
  | stateless (stage alu : Nat)
  /-- An operand of a stateful ALU is chosen. -/
  | chooseOperand (stage unit operand : Nat)
  /-- A stateful ALU takes the state of a group if a hole says so. -/
  | loadState (stage unit group : Nat)
  | stateful (stage unit : Nat)
  | declareOutput (stage container : Nat)
  /-- A container behind a stage takes what its one writer left. -/
  | demultiplex (stage container : Nat)
  /-- A container behind a stage is chosen. -/
  | chooseOutput (stage container : Nat)
  | storeState (stage unit group : Nat)
  | writeField (field : Int) (container : Nat)
  /-- A packet field takes a container behind the last stage if a hole says so. -/
  | writeFieldIf (field : Int) (container : Nat)
  deriving DecidableEq, Repr

namespace Step

def spaces (n : Nat) : String :=
  String.ofList (List.replicate n ' ')

/-- The containers before a stage as arguments, one a line. -/
def inputLines (p : Plan) (indent stage : Nat) : String :=
  String.join ((upTo p.shape.containers).map fun c =>
    spaces indent ++ inputName stage c ++
      (if (c : Int) ≠ p.shape.containers - 1 then ",\n" else "\n"))

/-- The state of a group as the arguments of a record, one a line. -/
def slotLines (p : Plan) (group : Nat) : String :=
  String.join ((List.range p.slots).map fun s =>
    spaces 25 ++ "state_" ++ toString s ++ " = " ++ inRecord (stateVarName group s) ++
      (if (s : Int) < (p.slots : Int) - 1 then ",\n" else "\n"))

def text (p : Plan) : Step → String
  | clearContainer c => "    int " ++ inputName 0 c ++ " = 0;\n"
  | clearState i k =>
    "      |StateGroup| " ++ stateName i k ++ " =  |StateGroup|(\n" ++
      String.join ((upTo ((p.slots : Int) - 1)).map fun s =>
        spaces 87 ++ "state_" ++ toString s ++ " = 0,\n") ++
      spaces 87 ++ "state_" ++ toString ((p.slots : Int) - 1) ++ " = 0\n" ++ spaces 81 ++ ");\n"
  | readField f c => "        " ++ inputName 0 c ++ " = " ++ inRecord (fieldName f) ++ ";\n"
  | readFieldIf f c =>
    "           if (" ++ Plan.fieldConfig f c ++ " == 1)\x7b\n              " ++ inputName 0 c ++
      " = " ++ inRecord (fieldName f) ++ ";\n           \x7d\n"
  | passOn i c =>
    "        int " ++ inputName i c ++ " = " ++ outputName ((i : Int) - 1) c ++ ";\n"
  | stateless i j =>
    let name := p.statelessName i j
    "      int " ++ destinationName i j ++ " = " ++ name ++ "(\n" ++ inputLines p 10 i ++ ",\n\n" ++
      "      " ++ name ++ "_opcode,\n      " ++ name ++ "_immediate_operand,\n" ++
      String.intercalate "," ((List.range p.statelessMuxes).map fun k =>
        "          " ++ name ++ "_operand_mux_" ++ toString k ++ "_ctrl") ++ "      );\n"
  | chooseOperand i k o =>
    let mux := p.operandMux i k o
    "        int " ++ operandName i k o ++ " = " ++ mux ++ "(\n" ++ inputLines p 12 i ++
      "      , " ++ mux ++ "_ctrl);\n"
  | loadState i k g =>
    if p.synthesized then
      "        if (" ++ p.stateConfig i k g ++ "  == 1)\x7b\n        " ++ stateName i k ++
        " =\n        |StateGroup|(" ++ slotLines p g ++ ");\n        \x7d\n"
    else
      "      if (" ++ p.stateConfig i k g ++ " == 1) \x7b\n        " ++ stateName i k ++
        " =\n        |StateGroup|(" ++ slotLines p g ++ ");\x7d\n"
  | stateful i k =>
    let name := p.statefulName i k
    "      int " ++ returnedName i k ++ " = " ++ name ++ "(" ++ stateName i k ++ ",\n" ++
      String.join ((List.range p.operands).map fun o =>
        "        " ++ operandName i k o ++ ",\n") ++
      "      " ++ String.intercalate "," (p.statefulHoles.map fun h =>
        name ++ "_" ++ h ++ "_global") ++ ");\n"
  | declareOutput i c => "      int " ++ outputName i c ++ ";\n"
  | demultiplex i c =>
    "      if (" ++ p.statelessName i c ++ "_demux_ctrl == 1)\n         " ++ outputName i c ++
      " = " ++ destinationName i c ++ ";\n      // TODO: now we only use canonicalized alloc " ++
      "for target_tofino, if we use synthesized_alloc, we need to make changes to this part\n" ++
      String.join ((upTo p.shape.groups).map fun g =>
        "      else if ((" ++ p.statefulName i g ++ "_demux_ctrl == " ++ toString c ++ ") && (" ++
          p.shape.sketchName ++ "_salu_config_" ++ toString i ++ "_" ++ toString g ++
          " == 1))\n         " ++ outputName i c ++ " = " ++ returnedName i g ++ ";\n") ++
      "      else\n         assert(false);\n"
  | chooseOutput i c =>
    let mux := p.outputMux i c
    "      int " ++ outputName i c ++ " = " ++ mux ++ "(\n" ++
      String.join (p.units.flatMap fun k =>
        List.replicate p.slots ("          " ++ returnedName i k ++ ",\n")) ++
      "      " ++ destinationName i c ++ ",\n      " ++ mux ++ "_ctrl\n      );\n"
  | storeState i k g =>
    let copies (indent : Nat) := String.join ((List.range p.slots).map fun s =>
      spaces indent ++ inRecord (stateVarName g s) ++ " = " ++ stateName i k ++ ".state_" ++
        toString s ++ ";\n")
    if p.synthesized then
      "              if (" ++ p.stateConfig i k g ++ " == 1)\x7b\n" ++ copies 20 ++
        "              \x7d\n"
    else
      "          if (" ++ p.stateConfig i k g ++ " == 1) \x7b\n" ++ copies 14 ++ "          \x7d\n"
  | writeField f c =>
    "    " ++ inRecord (fieldName f) ++ " = " ++ outputName (p.shape.stages - 1) c ++ ";\n"
  | writeFieldIf f c =>
    "        if (" ++ Plan.fieldConfig f c ++ " == 1)\x7b\n            " ++ inRecord (fieldName f) ++
      " = " ++ outputName (p.shape.stages - 1) c ++ ";\n        \x7d\n"

end Step

/-- A part of a data path: a note for the reader or a step. -/
inductive Item where
  | note (text : String)
  | step (s : Step)
  deriving DecidableEq, Repr

def Item.text (p : Plan) : Item → String
  | note s => s
  | step s => s.text p

namespace Plan

def readItems (p : Plan) : List Item :=
  .note "      // Read each PHV container from corresponding packet field.\n" ::
    (p.shape.inputFields.zipIdx.flatMap fun (f, c) =>
      if p.synthesized then
        .note "        // TODO: deal with the case where not all packets are fed as input\n" ::
          (upTo p.shape.containers).map fun c => .step (.readFieldIf f c)
      else
        [.note "        // loop.index starts from 1 that's why we need to -1\n",
         .step (.readField f c)])

def passItems (p : Plan) (stage : Nat) : List Item :=
  .note "      // Input of this stage is the output of the previous one.\n" ::
    (upTo p.shape.containers).map fun c => .step (.passOn stage c)

def outputItems (p : Plan) (stage : Nat) : List Item :=
  if p.shape.tofino then
    .note "    // definition for output\n" ::
      (upTo p.shape.containers).map (fun c => .step (.declareOutput stage c)) ++
      (upTo p.shape.containers).map (fun c => .step (.demultiplex stage c))
  else (upTo p.shape.containers).map fun c => .step (.chooseOutput stage c)

def loadItems (p : Plan) (stage : Nat) : List Item :=
  (upTo p.shape.groups).flatMap fun g =>
    if p.synthesized then (upTo p.shape.containers).map fun k => .step (.loadState stage k g)
    else [.step (.loadState stage g g)]

def storeItems (p : Plan) (stage : Nat) : List Item :=
  (upTo p.shape.groups).flatMap fun g =>
    .note "      // Write stateful_vars\n" ::
      if p.synthesized then (upTo p.shape.containers).map fun k => .step (.storeState stage k g)
      else [.step (.storeState stage g g)]

def stageItems (p : Plan) (stage : Nat) : List Item :=
  .note ("    /*********** Stage " ++ toString stage ++ " *********/\n\n    // Inputs\n") ::
    (if stage = 0 then p.readItems else p.passItems stage) ++
    .note "\n\n    // Stateless ALUs\n" ::
    (upTo p.shape.alus).map (fun j => .step (.stateless stage j)) ++
    .note "\n    // Stateful operands\n" ::
    (p.units.flatMap fun k =>
      (List.range p.operands).map fun o => .step (.chooseOperand stage k o)) ++
    .note "\n    // Read stateful ALU slots from allocated state vars.\n" :: p.loadItems stage ++
    .note ("\n    // Stateful ALUs\n    // TODO: maybe we need to combine the following if-else " ++
      "branch together because they share a lot of common things\n") ::
    p.units.map (fun k => .step (.stateful stage k)) ++
    .note "\n    // Outputs\n" :: p.outputItems stage ++ .note "\n" :: p.storeItems stage

def writeItems (p : Plan) : List Item :=
  p.shape.outputFields.zipIdx.flatMap fun (f, c) =>
    .note ("    // Write pkt_" ++ toString f ++ "\n") ::
      if p.synthesized then (upTo p.shape.containers).map fun c => .step (.writeFieldIf f c)
      else [.step (.writeField f c)]

def items (p : Plan) : List Item :=
  .note ("  // One variable for each container in the PHV\n" ++
    "  // Container i will be allocated to packet field i from the spec.\n") ::
    (upTo p.shape.containers).map (fun c => .step (.clearContainer c)) ++
    .note ("\n  // One variable for each stateful ALU's state operand\n  // This will be allocated " ++
      "to a state variable from the program using indicator variables.\n") ::
    ((upTo p.shape.stages).flatMap fun i => p.units.map fun k => .step (.clearState i k)) ++
    .note "\n" :: (upTo p.shape.stages).flatMap p.stageItems ++ .note "\n" :: p.writeItems

def steps (p : Plan) : List Step :=
  p.items.filterMap fun
    | .step s => some s
    | .note _ => none

end Plan

end SwitchSynth.Sketch
