import Z80Backend.Address.Record
import Z80Backend.Compiler
import Z80Backend.Layout.Reader
import Z80Backend.Proofs.Address.Containment
import Z80Backend.Proofs.Address.Encodable
import Z80Backend.Proofs.Call.Flags
import Z80Backend.Proofs.Call.Rejection
import Z80Backend.Proofs.Call.Saving
import Z80Backend.Proofs.Control.DeadArms
import Z80Backend.Proofs.Control.Preservation
import Z80Backend.Proofs.Function.Refused
import Z80Backend.Proofs.Image.Emission
import Z80Backend.Proofs.Image.Overlap
import Z80Backend.Proofs.Image.Placing
import Z80Backend.Proofs.Image.SymbolTable
import Z80Backend.Proofs.Op.Conservation
import Z80Backend.Proofs.Op.Cycles
import Z80Backend.Proofs.Op.Inline
import Z80Backend.Proofs.Op.Specificity
import Z80Backend.Proofs.Op.Substitution
import Z80Backend.Proofs.Program.DataLayout
import Z80Backend.Proofs.Spelling.Compilation
import Z80Backend.Proofs.Stack.Merging
import Z80Backend.Proofs.Stack.Tracking
import Z80Backend.Proofs.Syntax.Readable
