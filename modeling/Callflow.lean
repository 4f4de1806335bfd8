import Callflow.Json.Reader
import Callflow.Json.Writer
import Callflow.Json.Record
import Callflow.Program.Basic
import Callflow.Journal.Basic
import Callflow.Format.Program
import Callflow.Format.Journal
import Callflow.Digest.Blake3
import Callflow.Journal.Fingerprint
import Callflow.Format.Text
import Callflow.Text.Quoted
import Callflow.Store.Scope
import Callflow.Store.Description
import Callflow.Store.Labelled
import Callflow.Scenario.Perform
import Callflow.Proofs.Time.Form
import Callflow.Proofs.Time.Sum
import Callflow.Proofs.Time.Product
import Callflow.Proofs.Time.Spacing
import Callflow.Proofs.Program.Waits
import Callflow.Proofs.Agenda.Order
import Callflow.Proofs.Store.Growth
import Callflow.Proofs.Store.Resolution
import Callflow.Proofs.World.Move
import Callflow.Proofs.World.Evaluation
import Callflow.Proofs.World.Requests
import Callflow.Proofs.World.Timeouts
import Callflow.Proofs.Machine.Transition
import Callflow.Proofs.Machine.Life
import Callflow.Proofs.Machine.Dispatch
import Callflow.Proofs.Machine.Settlement
import Callflow.Proofs.Machine.Race
import Callflow.Proofs.Machine.Resolution
import Callflow.Proofs.Machine.Horizon
import Callflow.Proofs.Agenda.Fifo
import Callflow.Proofs.World.Calls
import Callflow.Proofs.Machine.Calls
import Callflow.Proofs.Machine.Delivery
import Callflow.Proofs.Machine.Stock
import Callflow.Proofs.Machine.Operation
import Callflow.Proofs.Machine.Timing
import Callflow.Proofs.Machine.Deadlines
import Callflow.Proofs.Machine.Split
import Callflow.Proofs.Machine.Places
import Callflow.Proofs.Machine.Retries
import Callflow.Proofs.Machine.Independence
import Callflow.Proofs.Machine.Accounting
import Callflow.Proofs.Machine.Clock
import Callflow.Proofs.Machine.Errors
import Callflow.Proofs.Machine.Clients
import Callflow.Proofs.Machine.Cadence
import Callflow.Proofs.Machine.Progress
import Callflow.Proofs.Machine.WellTimed
import Callflow.Proofs.Machine.Grammar
import Callflow.Proofs.Decimal.Rounding
import Callflow.Proofs.Decimal.Nearest
import Callflow.Proofs.Decimal.Shortest
import Callflow.Proofs.Decimal.Numeral
import Callflow.Proofs.Json.Words
import Callflow.Proofs.Json.Reading
import Callflow.Proofs.Json.Record
import Callflow.Proofs.Format.Request
import Callflow.Proofs.Format.Journal
import Callflow.Proofs.Format.Program
import Callflow.Proofs.Format.Text
import Callflow.Proofs.Journal.Fingerprint
import Callflow.Proofs.Machine.Disguise
import Callflow.Proofs.Machine.Budget
import Callflow.Proofs.Machine.Plain
import Callflow.Proofs.Machine.Hooks
import Callflow.Proofs.Machine.Unrecorded
import Callflow.Proofs.Machine.Perseverance
import Callflow.Proofs.World.Rejection
import Callflow.Proofs.Machine.Rejection
import Callflow.Proofs.World.Definitions
import Callflow.Proofs.World.Rest
import Callflow.Proofs.World.Placement
import Callflow.Proofs.Machine.Openings
import Callflow.Proofs.Machine.Registration
import Callflow.Proofs.Store.Nesting
import Callflow.Proofs.World.Confinement
import Callflow.Proofs.Machine.Thread
import Callflow.Proofs.Machine.Confinement
import Callflow.Proofs.World.Pieces
import Callflow.Proofs.Machine.Descent
import Callflow.Proofs.Machine.Finishing
import Callflow.Proofs.Store.Sight
import Callflow.Proofs.Format.Fading
import Callflow.Proofs.Format.Report
import Callflow.Proofs.Machine.Reports
import Callflow.Proofs.World.Issuing
import Callflow.Proofs.World.Sole
import Callflow.Proofs.Machine.Origins
import Callflow.Proofs.Machine.Underway
import Callflow.Proofs.Machine.Attribution
