import SsaCompiler.Main
import SsaCompiler.Proofs.Llvm.Constants
import SsaCompiler.Proofs.Machine.Activation
import SsaCompiler.Proofs.Machine.Element
import SsaCompiler.Proofs.Machine.Release
import SsaCompiler.Proofs.Parser.Positions
import SsaCompiler.Proofs.Parser.Progress
import SsaCompiler.Proofs.Project.Products
import SsaCompiler.Proofs.Ssa.DepthFirst
import SsaCompiler.Proofs.Ssa.DominanceFrontier
import SsaCompiler.Proofs.Ssa.FieldPlacement
import SsaCompiler.Proofs.Ssa.Interning
import SsaCompiler.Proofs.Ssa.OperandRules
import SsaCompiler.Proofs.Token.Faults
import SsaCompiler.Proofs.Token.Numerals
import SsaCompiler.Proofs.Token.RoundTrip
import SsaCompiler.Proofs.Token.Semicolons
import SsaCompiler.Proofs.Unit.Declarations
import SsaCompiler.Proofs.Unit.Execution
import SsaCompiler.Proofs.Unit.IntegerRegisters
