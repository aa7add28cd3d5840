import Monomorph.Proofs.Lowering.ArgumentOrder
import Monomorph.Proofs.Compile.SingleAssignment
import Monomorph.Proofs.Compile.ControlFlow
import Monomorph.Proofs.Compile.Dispatched
import Monomorph.Proofs.Dispatch.Slots
import Monomorph.Proofs.Compile.Resolution
import Monomorph.Proofs.Compile.RoundLimit
import Monomorph.Proofs.Compile.Reporting
import Monomorph.Proofs.Compile.Variants
import Monomorph.Proofs.Compile.Openness
import Monomorph.Proofs.Ty.Matching
import Monomorph.Proofs.Ty.Precedence
import Monomorph.Proofs.Symbol.Canonical
import Monomorph.Proofs.Compile.Represented
import Monomorph.Proofs.Compile.Overloads
import Monomorph.Proofs.Lowering.Coercions
import Monomorph.Proofs.Compile.NestedClosures
import Monomorph.Proofs.Compile.Constructors
import Monomorph.Proofs.Lowering.AutoDeref
import Monomorph.Proofs.Lowering.ClassLiterals
import Monomorph.Proofs.Lowering.StructLiterals
import Monomorph.Proofs.Diagnostic.Queue
import Monomorph.Proofs.Symbol.Placeholder
import Monomorph.Proofs.IR.Constants
import Monomorph.Proofs.Source.Table
import Monomorph.Proofs.Compile.Coverage
