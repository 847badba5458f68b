import GradientGraph.Scalar.Float
import GradientGraph.Session.Run
import GradientGraph.Host.Builtin
import GradientGraph.Workbench.Run
import GradientGraph.Proofs.Derivative.Adjoint
import GradientGraph.Proofs.Derivative.Agreement
import GradientGraph.Proofs.Dual.Forward
import GradientGraph.Proofs.Program.Caching
import GradientGraph.Proofs.Program.Probed
import GradientGraph.Proofs.Program.Staleness
import GradientGraph.Proofs.Program.Liveness
import GradientGraph.Proofs.Program.Seeding
import GradientGraph.Proofs.Program.Refusal
import GradientGraph.Proofs.Program.Mirror
import GradientGraph.Proofs.Session.Shape
import GradientGraph.Proofs.Program.Partition
import GradientGraph.Proofs.Program.Independence
import GradientGraph.Proofs.Program.Ownership
import GradientGraph.Proofs.Derivative.Naming
import GradientGraph.Proofs.Kernel.Lift
import GradientGraph.Proofs.Kernel.Expansion
import GradientGraph.Proofs.Host.Dispatch
import GradientGraph.Proofs.Host.Lineage
import GradientGraph.Proofs.Node.Record
import GradientGraph.Proofs.Derivative.Traversal
import GradientGraph.Proofs.Session.Infix
