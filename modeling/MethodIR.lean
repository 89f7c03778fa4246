import MethodIR.Body.Graph
import MethodIR.Proofs.StackSafety
import MethodIR.Proofs.CompiledMethods
import MethodIR.Proofs.StackVariables
import MethodIR.Proofs.CloneIsomorphism
import MethodIR.Proofs.RefusedEdits
import MethodIR.Proofs.DroppedPhiArgs
import MethodIR.Proofs.AssembledCode
import MethodIR.Proofs.BackEdges
import MethodIR.Proofs.UndefinedReads
import MethodIR.Proofs.LinkPaths
import MethodIR.Proofs.BitSets
