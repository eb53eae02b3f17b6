import BlockAdmm.Scalar.Binary64
import BlockAdmm.Solver.Basic
import BlockAdmm.Proofs.Block.InPlace
import BlockAdmm.Proofs.Block.Operators
import BlockAdmm.Proofs.Build
import BlockAdmm.Proofs.Dense.Kernels
import BlockAdmm.Proofs.Dense.Singular
import BlockAdmm.Proofs.LinearMap.Adjoint
import BlockAdmm.Proofs.LinearMap.Estimate
import BlockAdmm.Proofs.LinearMap.Homomorphism
import BlockAdmm.Proofs.LinearMap.Refusal
import BlockAdmm.Proofs.LinearMap.Structure
import BlockAdmm.Proofs.Parameter.Id
import BlockAdmm.Proofs.Prox.Epigraph
import BlockAdmm.Proofs.Prox.LeastSquares
import BlockAdmm.Proofs.Prox.Logarithm
import BlockAdmm.Proofs.Prox.Shrinkage
import BlockAdmm.Proofs.Prox.SoftThreshold
import BlockAdmm.Proofs.Prox.Spectral
import BlockAdmm.Proofs.Prox.Stationarity
import BlockAdmm.Proofs.Prox.Translation
import BlockAdmm.Proofs.Prox.Views
import BlockAdmm.Proofs.Safety.Product
import BlockAdmm.Proofs.Safety.Solver
import BlockAdmm.Proofs.Solver.Exact
import BlockAdmm.Proofs.Solver.Feasible
import BlockAdmm.Proofs.Solver.Lyapunov
import BlockAdmm.Proofs.Solver.Reachable
import BlockAdmm.Proofs.Solver.Reordered
import BlockAdmm.Proofs.Solver.Residuals
import BlockAdmm.Proofs.Solver.Unconstrained
