import Lift6502.Exchange.Code
import Lift6502.Exchange.Tree
import Lift6502.Main
import Lift6502.Proofs.Generate.Threshold
import Lift6502.Proofs.Tree.Names
import Lift6502.Proofs.Tree.Reducible
import Lift6502.Proofs.Routine.Outputs
import Lift6502.Proofs.Generate.PageZero
import Lift6502.Proofs.Generate.Merges
import Lift6502.Proofs.Generate.Branches
import Lift6502.Proofs.Tree.Termination
import Lift6502.Proofs.Flow.Partition
import Lift6502.Proofs.Listing.RoundTrip
import Lift6502.Proofs.Listing.Wrapping
import Lift6502.Proofs.Code.Rendering
import Lift6502.Proofs.Code.Simplification
import Lift6502.Proofs.Run.Reuse
import Lift6502.Proofs.Flow.Postorder
import Lift6502.Proofs.Generate.AtOnce
import Lift6502.Proofs.Flow.DominatorTree
