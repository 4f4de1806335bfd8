import Callflow.Format.Program
import Callflow.Format.Report

/-!
# Values as texts

Each type of document is read from a text and written to one. Values that carry a tag are read ahead
in search of it, so their texts must be readable throughout and not too deep; in the others a field
that nobody asks for may hold anything.
-/

namespace Callflow
namespace Json

/-- A text read ahead as a whole. -/
def parseBounded? (text : String) : Option Json := (parse? text).filter Bounded

end Json

def Activity.parse? (text : String) : Option Activity :=
  (Json.parseBounded? text).bind Activity.ofJson?

def Activity.render (a : Activity) : String := a.toJson.compact

def Delay.parse? (text : String) : Option Delay := (Json.parseBounded? text).bind Delay.ofJson?

def Delay.render (d : Delay) : String := d.toJson.compact

def Growth.parse? (text : String) : Option Growth :=
  (Json.parseBounded? text).bind (Growth.ofJson? false)

def Growth.render (g : Growth) : String := g.toJson.compact

def Caller.parse? (text : String) : Option Caller := (Json.parse? text).bind (Caller.ofJson? false)

def Caller.render (c : Caller) : String := c.toJson.compact

def Status.parse? (text : String) : Option Status := (Json.parse? text).bind (Status.ofJson? false)

def Status.render (s : Status) : String := s.toJson.compact

def Failure.parse? (text : String) : Option Failure :=
  (Json.parseBounded? text).bind (Failure.ofJson? false)

def Failure.render (f : Failure) : String := f.toJson.compact

def EventKind.parse? (text : String) : Option EventKind :=
  (Json.parse? text).bind (EventKind.ofJson? false)

def EventKind.render (k : EventKind) : String := k.toJson.compact

def EventId.parse? (text : String) : Option EventId := (Json.parse? text).bind EventId.ofJson?

def EventId.render (id : EventId) : String := id.toJson.compact

def RequestId.parse? (text : String) : Option RequestId := (Json.parse? text).bind RequestId.ofJson?

def RequestId.render (id : RequestId) : String := id.toJson.compact

def JournalEntry.parse? (text : String) : Option JournalEntry :=
  (Json.parseBounded? text).bind JournalEntry.ofJson?

def JournalEntry.render (e : JournalEntry) : String := e.toJson.compact

def RequestStats.parse? (text : String) : Option RequestStats :=
  (Json.parse? text).bind RequestStats.ofJson?

def RequestStats.render (s : RequestStats) : String := s.toJson.compact

def SimulationConfig.render (c : SimulationConfig) : String := c.toJson.compact

def SimulationReport.parse? (text : String) : Option SimulationReport :=
  (Json.parse? text).bind SimulationReport.ofJson?

end Callflow
