import StandardLp.Numeric.Text
import StandardLp.Program.Shape
import StandardLp.Proofs.Meaning.Preservation
import StandardLp.Proofs.Meaning.Restarts
import StandardLp.Proofs.Meaning.Splitting
import StandardLp.Proofs.Program.Assembly
import StandardLp.Proofs.Program.BasisCheck
import StandardLp.Proofs.Program.InStep
import StandardLp.Proofs.Program.View
import StandardLp.Proofs.Reduction.Columns
import StandardLp.Proofs.Reduction.Complete
import StandardLp.Proofs.Reduction.Consistent
import StandardLp.Proofs.Reduction.Frame
import StandardLp.Proofs.Reduction.Growth
import StandardLp.Proofs.Reduction.Handover
import StandardLp.Proofs.Reduction.Log
import StandardLp.Proofs.Reduction.Opposite
import StandardLp.Proofs.Reduction.Protocol
import StandardLp.Proofs.Reduction.Reference
import StandardLp.Proofs.Reduction.Renaming
import StandardLp.Proofs.Sparse.Copying
import StandardLp.Proofs.Sparse.Refinement
import StandardLp.Reduction.Call
import StandardLp.Sparse.Edit
import StandardLp.Sparse.WellFormed
