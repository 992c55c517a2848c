import CellLineage.Graph.Reach
import CellLineage.Graph.View
import CellLineage.Workspace.Exchange
import CellLineage.Proofs.Evaluation.Restore
import CellLineage.Proofs.Formula.Blanks
import CellLineage.Proofs.Formula.Display
import CellLineage.Proofs.Formula.Inputs
import CellLineage.Proofs.Graph.Chain
import CellLineage.Proofs.Graph.Mint
import CellLineage.Proofs.Graph.Reversal
import CellLineage.Proofs.Graph.Sparse
import CellLineage.Proofs.Recompute.Acyclic
import CellLineage.Proofs.Recompute.Identity
import CellLineage.Proofs.Recompute.Isolation
import CellLineage.Proofs.Recompute.Iterative
import CellLineage.Proofs.Recompute.Lineage
import CellLineage.Proofs.Recompute.Members
import CellLineage.Proofs.Recompute.Prediction
import CellLineage.Proofs.Recompute.Expansion
import CellLineage.Proofs.Recompute.Repeat
import CellLineage.Proofs.Recompute.Resolution
import CellLineage.Proofs.Recompute.Transitive
import CellLineage.Proofs.Workspace.Declared
import CellLineage.Proofs.Workspace.Installed
import CellLineage.Proofs.Workspace.Import
import CellLineage.Proofs.Workspace.Mirror
import CellLineage.Proofs.Workspace.Layout
import CellLineage.Proofs.Workspace.Opened
import CellLineage.Proofs.Workspace.Repeated
import CellLineage.Proofs.Workspace.RoundTrip
import CellLineage.Proofs.Workspace.Symmetric
