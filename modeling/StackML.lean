import StackML.Machine.Disassembly
import StackML.Proofs.Typing.Soundness
import StackML.Settings.File
import StackML.Typing.Outline
import StackML.Workspace
import StackML.Proofs.Ty.Sessions
import StackML.Proofs.Codegen.Program
import StackML.Proofs.Codegen.Worklist
import StackML.Proofs.Typing.Principal.Engine
import StackML.Proofs.Bundle.RoundTrip
import StackML.Proofs.Interface
import StackML.Proofs.Codegen.Selecting
import StackML.Proofs.Machine.Conventions
import StackML.Proofs.Codegen.Equality
import StackML.Proofs.Typing.Finalized
import StackML.Proofs.Ty.Inversion
import StackML.Proofs.Codegen.Slots
import StackML.Proofs.Codegen.Verified
import StackML.Proofs.Machine.Descriptor
import StackML.Proofs.Expr.Unambiguous
