import Reversible.Flow.Tabulated
import Reversible.Text.Quoted
import Reversible.Verify.Program
import Reversible.Proofs.Order.NameMap
import Reversible.Proofs.Report.Queue
import Reversible.Proofs.Layout.Leaves
import Reversible.Proofs.Layout.Map
import Reversible.Proofs.Layout.Order
import Reversible.Proofs.Occupancy.Order
import Reversible.Proofs.Flow.Fixpoint
import Reversible.Proofs.Flow.Termination
import Reversible.Proofs.Graph.Links
import Reversible.Proofs.Graph.Symmetry
import Reversible.Proofs.Graph.Grammar
import Reversible.Proofs.Layout.Variables
import Reversible.Proofs.Place.Occurrence
import Reversible.Proofs.Declarations
import Reversible.Proofs.Occupancy.Action
import Reversible.Proofs.Occupancy.Fixpoint
import Reversible.Proofs.Verify.Silence
import Reversible.Proofs.Occupancy.History
import Reversible.Proofs.Occupancy.Checks
import Reversible.Proofs.Verify.Agreement
import Reversible.Proofs.Verify.Alternation
import Reversible.Proofs.Verify.Acceptance
import Reversible.Proofs.Occupancy.Routes
import Reversible.Proofs.Verify.ConflictFree
import Reversible.Proofs.Verify.Replay
import Reversible.Proofs.Marks.Location
import Reversible.Proofs.Marks.Tree
import Reversible.Proofs.Marks.Follow
import Reversible.Proofs.Marks.Difference
import Reversible.Proofs.Marks.Table
import Reversible.Proofs.Marks.Balance
import Reversible.Proofs.Verify.Presence
import Reversible.Proofs.Verify.Reads
import Reversible.Proofs.Verify.Wholeness
import Reversible.Proofs.Verify.Findings
import Reversible.Proofs.Occupancy.Transport
import Reversible.Proofs.Syntax.Bare
import Reversible.Proofs.Graph.Bare
import Reversible.Proofs.Occupancy.Bare
import Reversible.Proofs.Verify.Positions
import Reversible.Proofs.Graph.Rearrangement
import Reversible.Proofs.Verify.Rearrangement
import Reversible.Proofs.Graph.Splitting
import Reversible.Proofs.Occupancy.Splitting
import Reversible.Proofs.Verify.Splitting
import Reversible.Proofs.Flow.Convergence
import Reversible.Proofs.Verify.Passes
import Reversible.Proofs.Verify.Cascade
import Reversible.Proofs.Verify.ConflictReports
import Reversible.Proofs.Verify.Lockstep
import Reversible.Proofs.Marks.Places
import Reversible.Proofs.Report.Limit
import Reversible.Proofs.Graph.Extraction
import Reversible.Proofs.Layout.Addressing
import Reversible.Proofs.Layout.Expansion
import Reversible.Proofs.Marks.Expansion
import Reversible.Proofs.Occupancy.Lattice
import Reversible.Proofs.Occupancy.Reading
import Reversible.Proofs.Verify.Lookups
import Reversible.Proofs.Layout.Selection
import Reversible.Proofs.Flow.Projection
import Reversible.Proofs.Verify.Unused
