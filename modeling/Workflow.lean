import Workflow.Case.Basic
import Workflow.Case.Dialogue
import Workflow.Case.History
import Workflow.Case.Moves
import Workflow.Case.Router
import Workflow.Case.Run
import Workflow.Case.State
import Workflow.Case.Successors
import Workflow.Casebook
import Workflow.Casebook.History
import Workflow.Closure
import Workflow.Counts
import Workflow.Evaluation
import Workflow.Failure
import Workflow.Firing.Change
import Workflow.Firing.Eager
import Workflow.Firing.Enablement
import Workflow.Firing.Fire
import Workflow.Firing.Run
import Workflow.Firing.Selection
import Workflow.Json
import Workflow.Limits
import Workflow.Marking.Basic
import Workflow.Marking.Persisted
import Workflow.Marking.TokenMap
import Workflow.Net.Build
import Workflow.Net.Defect
import Workflow.Net.Draft
import Workflow.Net.Edit
import Workflow.Net.Graph
import Workflow.Net.Names
import Workflow.Net.Path
import Workflow.Net.Shape
import Workflow.OrJoin
import Workflow.ResetNet.Basic
import Workflow.ResetNet.Coverability
import Workflow.ResetNet.Restriction
import Workflow.Proofs.Search
import Workflow.ResetNet.Run
import Workflow.Subsets
import Workflow.Proofs.Restriction
import Workflow.Proofs.Conversion
import Workflow.Proofs.OrJoin
import Workflow.Proofs.Firing
import Workflow.Proofs.Eager
import Workflow.Proofs.Waiting
import Workflow.Proofs.Lifecycle
import Workflow.Proofs.Blocking
import Workflow.Proofs.Persistence
import Workflow.Proofs.Locality
import Workflow.Proofs.Journal
import Workflow.Proofs.Limits
import Workflow.Proofs.Splits
import Workflow.Proofs.Relevance
import Workflow.Proofs.Scan
import Workflow.Proofs.Succession
import Workflow.Proofs.Setting
import Workflow.Proofs.Widening
import Workflow.Proofs.RoundTrip
import Workflow.Proofs.Restoring
import Workflow.Proofs.Drawing
import Workflow.Proofs.Acceptance
import Workflow.Proofs.Rounds
import Workflow.Proofs.Convergence
import Workflow.Proofs.Balance
import Workflow.Proofs.Isolation
import Workflow.Case.Stride
import Workflow.Proofs.Aftermath
import Workflow.Proofs.Refusal
import Workflow.Proofs.Strides
import Workflow.Proofs.Legs
import Workflow.Casebook.Crew
import Workflow.Proofs.Crew
import Workflow.Proofs.Apart
import Workflow.Proofs.Room
import Workflow.Proofs.Independence
import Workflow.Proofs.Leftovers
import Workflow.Proofs.Unattended
import Workflow.Proofs.Ordering
import Workflow.Proofs.Numbering
import Workflow.Proofs.NormalForm
import Workflow.Proofs.Comparison
import Workflow.ResetNet.Sweep
import Workflow.Proofs.Sweep
import Workflow.Proofs.Remnant
import Workflow.Combinations
import Workflow.Proofs.Combinations
import Workflow.ResetNet.Numbered
import Workflow.Proofs.Predecessor
import Workflow.ResetNet.Words
import Workflow.Proofs.Words
