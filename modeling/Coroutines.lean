import Coroutines.Number.Whole
import Coroutines.Number.Numeral
import Coroutines.Operator
import Coroutines.Value.Text
import Coroutines.Json.Read
import Coroutines.Json.Write
import Coroutines.Signature
import Coroutines.Traceback
import Coroutines.Validation
import Coroutines.Scheduler
import Coroutines.Script.Host
import Coroutines.UnitFile.Load
import Coroutines.Scenario
import Coroutines.Main
import Coroutines.Command.Sandbox
import Coroutines.Proofs.Ownership.Owned
import Coroutines.Proofs.Progress.Complete
import Coroutines.Proofs.Isolation.Interleaving
import Coroutines.Proofs.Budget.Cut
import Coroutines.Proofs.Joining.Once
import Coroutines.Proofs.Checked.Runs
import Coroutines.Proofs.Erasure.Transparency
import Coroutines.Proofs.Joining.Orphans
import Coroutines.Proofs.Crashes
import Coroutines.Proofs.Joining.Aborts
import Coroutines.Proofs.Joining.Leftovers
import Coroutines.Proofs.Suspension.Lives
import Coroutines.Proofs.Suspension.Statements
import Coroutines.Proofs.Suspension.Resumed
import Coroutines.Proofs.Recursion.Bounds
import Coroutines.Proofs.Recursion.Machine
import Coroutines.Proofs.Recursion.Driver
import Coroutines.Proofs.Tracebacks.Faithful
import Coroutines.Proofs.Faults.Units
import Coroutines.Proofs.Renumbering.Fresh
import Coroutines.Proofs.Renumbering.Rejected
import Coroutines.Proofs.Events.Brackets
import Coroutines.Proofs.Events.Reports
import Coroutines.Proofs.Events.Phases
import Coroutines.Proofs.Events.Runs
import Coroutines.Proofs.Events.Ended
import Coroutines.Proofs.Fairness.RoundRobin
import Coroutines.Proofs.Commands.Agreement
import Coroutines.Proofs.Format.Loading
import Coroutines.Proofs.Scopes.Owned
import Coroutines.Proofs.Summaries.LastRun
import Coroutines.Proofs.Deeds.Log
import Coroutines.Proofs.Deeds.Rows
import Coroutines.Proofs.Deeds.LifeCycle
import Coroutines.Proofs.Summaries.Failed
import Coroutines.Proofs.Arguments.Signatures
import Coroutines.Proofs.Arguments.Parameters
import Coroutines.Proofs.Defects.Exact
import Coroutines.Proofs.Defects.Rendering
import Coroutines.Proofs.Comparison.Coherent
import Coroutines.Proofs.Tracebacks.Marks
import Coroutines.Proofs.Listing.Unambiguous
import Coroutines.Proofs.Listing.Floats
import Coroutines.Proofs.Commands.Inputs
import Coroutines.Proofs.Commands.Start
import Coroutines.Proofs.Ranges
