import Inversion.Session
import Inversion.Properties.Typed
import Inversion.Proofs.Outcome
import Inversion.Proofs.Condition
import Inversion.Proofs.Resolution
import Inversion.Proofs.History
import Inversion.Proofs.Precedence
import Inversion.Proofs.Dependents
import Inversion.Proofs.Wiring.Gathering
import Inversion.Proofs.Wiring.Machine
import Inversion.Proofs.Wiring.Execution
import Inversion.Proofs.Wiring.Bound
import Inversion.Proofs.Wiring.Lifecycle
import Inversion.Proofs.Wiring.Order
import Inversion.Proofs.Wiring.Marks
import Inversion.Proofs.Refresh
import Inversion.Proofs.Teardown
import Inversion.Proofs.Closing
import Inversion.Proofs.Singletons
import Inversion.Proofs.Lookup.Faithful
import Inversion.Proofs.Lookup.Bound
import Inversion.Proofs.Lookup.Nesting
import Inversion.Proofs.Lookup.Run
import Inversion.Proofs.Lookup.Verdict
import Inversion.Proofs.Lookup.Judgement
import Inversion.Proofs.Lookup.Reordering
import Inversion.Proofs.Lookup.Index
import Inversion.Proofs.Lookup.Steady
import Inversion.Proofs.Lookup.Single
import Inversion.Proofs.Lookup.Lasting
import Inversion.Proofs.Lookup.Once
import Inversion.Proofs.Lookup.Telling
import Inversion.Proofs.Lookup.Deletion
import Inversion.Proofs.Lookup.Evaluation
import Inversion.Proofs.Lookup.Asking
import Inversion.Proofs.Lookup.Foundation
import Inversion.Proofs.Lookup.Supported
import Inversion.Proofs.Lookup.Respelling
import Inversion.Proofs.Wiring.Cycles
import Inversion.Proofs.Wiring.Graph
import Inversion.Proofs.Wiring.Success
import Inversion.Proofs.Lookup.Independence
import Inversion.Proofs.Wiring.Redundancy
import Inversion.Proofs.Dismantling
import Inversion.Proofs.Wiring.Causes
import Inversion.Proofs.Lookup.Foregone
import Inversion.Proofs.Wiring.Turns
import Inversion.Proofs.Scheduling
import Inversion.Proofs.Phases
import Inversion.Proofs.Lookup.Origin
import Inversion.Proofs.Fatal
import Inversion.Proofs.Lookup.Collections
import Inversion.Proofs.Supervision
import Inversion.Proofs.Draining
import Inversion.Proofs.Embedding
import Inversion.Proofs.Lookup.Provision
import Inversion.Proofs.Lookup.Election
import Inversion.Proofs.Lookup.Representation
import Inversion.Proofs.Rewording
import Inversion.Proofs.Precedence.Exact
import Inversion.Proofs.Precedence.Stable
import Inversion.Proofs.Selector
import Inversion.Proofs.Properties.Flatten
import Inversion.Proofs.Properties.Lines
import Inversion.Proofs.Identity
import Inversion.Proofs.TypeName.Generic
