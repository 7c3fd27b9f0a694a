import SwitchSynth.Alu.Accessor
import SwitchSynth.Alu.Precedence
import SwitchSynth.Formula.Listing
import SwitchSynth.Formula.Smt
import SwitchSynth.Main
import SwitchSynth.Packaging
import SwitchSynth.Proofs.Alu.Ambiguity
import SwitchSynth.Proofs.Formula.Circuit
import SwitchSynth.Proofs.Formula.Negation
import SwitchSynth.Proofs.P4.Copies
import SwitchSynth.Proofs.P4.HoleUse
import SwitchSynth.Proofs.P4.Infix
import SwitchSynth.Proofs.P4.Opcodes
import SwitchSynth.Proofs.P4.Preservation
import SwitchSynth.Proofs.Sketch.HoleAccount
import SwitchSynth.Proofs.Sketch.StatefulCalls
import SwitchSynth.Proofs.Sketch.WrittenTokens
import SwitchSynth.Proofs.Synthesis.DeclaredHoles
import SwitchSynth.Proofs.Synthesis.Exclusion
import SwitchSynth.Proofs.Synthesis.Parameters
import SwitchSynth.Signals
import SwitchSynth.Workload.Assembling
import SwitchSynth.Workload.Reading
import SwitchSynth.Workload.Refining
import SwitchSynth.Workload.Sketching
