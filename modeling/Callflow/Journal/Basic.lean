import Callflow.Request.Basic

/-!
# The journal

The journal is what can be observed of a simulation: an entry per dispatched event, and entries for
every issue, settlement and late reply of a request. Its statistics are kept even when the entries
are not.
-/

namespace Callflow

/-- Why an event was scheduled. -/
inductive EventKind where
  | external
  | delivery
  | timeout
  | think
  | retry
  | clientFiring
  | reply
  deriving DecidableEq, Repr

def EventKind.label : EventKind → String
  | .external => "external"
  | .delivery => "delivery"
  | .timeout => "timeout"
  | .think => "think"
  | .retry => "retry"
  | .clientFiring => "client-firing"
  | .reply => "reply"

/-- The number of an event within its simulation, counted in the order of scheduling. -/
structure EventId where
  seq : Nat
  deriving DecidableEq, Repr

/-- A record of the journal. -/
inductive JournalEntry where
  -- An event was taken from the queue.
  | dispatched (time : Time) (seq : Nat) (kind : EventKind)
  -- A request was handed to its target.
  | issued (time : Time) (request : RequestId) (caller : Caller) (service operation : String)
  -- A request was settled.
  | settled (time : Time) (request : RequestId) (status : Status) (failure : Option Failure)
  -- A reply came for a request that was settled already.
  | staleReply (time : Time) (request : RequestId) (attempted : Status)

/-- Counts of requests. -/
structure RequestStats where
  issued : Nat
  succeeded : Nat
  failed : Nat
  timedOut : Nat
  staleReplies : Nat
  deriving DecidableEq, Repr

/-- Nothing counted. -/
def RequestStats.zero : RequestStats := ⟨0, 0, 0, 0, 0⟩

/-- Whether a failure is a deadline that has passed. -/
def Failure.isTimeout : Failure → Bool
  | .timedOut _ => true
  | _ => false

/-- The counts after one more entry. -/
def RequestStats.count (s : RequestStats) : JournalEntry → RequestStats
  | .dispatched .. => s
  | .issued .. => { s with issued := s.issued + 1 }
  | .settled _ _ .success _ => { s with succeeded := s.succeeded + 1 }
  | .settled _ _ .error failure =>
    { s with
      failed := s.failed + 1
      timedOut := if failure.any Failure.isTimeout then s.timedOut + 1 else s.timedOut }
  | .settled _ _ .pending _ => s
  | .staleReply .. => { s with staleReplies := s.staleReplies + 1 }

/-- The history of a simulation. -/
structure Journal where
  -- Whether entries are kept.
  enabled : Bool
  -- The entries kept, oldest first.
  entries : Array JournalEntry
  stats : RequestStats

namespace Journal

/-- An empty journal. -/
def empty (enabled : Bool) : Journal := ⟨enabled, #[], .zero⟩

/-- The journal with one more entry. -/
def record (j : Journal) (e : JournalEntry) : Journal :=
  { j with
    entries := if j.enabled then j.entries.push e else j.entries
    stats := j.stats.count e }

end Journal
end Callflow
