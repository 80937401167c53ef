/-!
# State — where a case stands
-/
namespace Workflow

abbrev CaseId := Nat

def caseTag (c : CaseId) : String := "case-" ++ toString c

/-- A case is active as long as something is, or may be, enabled.  It completes when nothing is enabled
and the sink is marked, deadlocks when nothing is enabled and the sink is empty, and is cancelled on
request. -/
inductive CaseState where
  | active
  | completed
  | cancelled
  | deadlocked
deriving DecidableEq, Repr

namespace CaseState

def name : CaseState → String
  | .active => "Active"
  | .completed => "Completed"
  | .cancelled => "Cancelled"
  | .deadlocked => "Deadlocked"

/-- No more firings are possible. -/
def isTerminal (s : CaseState) : Bool := s != .active

end CaseState

end Workflow
