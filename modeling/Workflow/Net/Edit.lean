import Workflow.Net.Build
/-!
# Edit — how a draft comes about

Every draft is drawn by a list of edits.  An edit that is refused leaves the draft as it was.
-/
namespace Workflow

inductive Edit where
  | place (p : Place)
  | transition (t : Transition)
  | arc (place transition : String) (d : Direction)
  | cancellation (transition element : String)
deriving DecidableEq, Repr

namespace Draft

/-- The draft after an edit, or why the edit is refused. -/
def tryEdit (d : Draft) : Edit → Except Defect Draft
  | .place p => .ok (d.insertPlace p).2
  | .transition t => .ok (d.insertTransition t).2
  | .arc p t dir => (d.insertArc p t dir).map Prod.snd
  | .cancellation t e => d.insertCancellation t e

def edit (d : Draft) (e : Edit) : Draft :=
  match d.tryEdit e with
  | .ok d => d
  | .error _ => d

/-- The draft that some edits draw on an empty sheet. -/
def drawn (edits : List Edit) : Draft := edits.foldl edit {}

end Draft

end Workflow
