import Workflow.Net.Graph
/-!
# Change — what happens to a marking, one place at a time

The changes of a firing name the transition that caused them.  A case adds two of its own: all tokens
removed, and all counts replaced.
-/
namespace Workflow

inductive Change where
  | consume (p : PlaceId) (t : TransitionId)
  | produce (p : PlaceId) (t : TransitionId)
  | cancel (p : PlaceId) (t : TransitionId) (removed : Nat)
  | reset
  | restore
deriving DecidableEq, Repr

def Change.describe : Change → String
  | .consume p t => s!"Consume({t} <- {p})"
  | .produce p t => s!"Produce({t} -> {p})"
  | .cancel p t removed => s!"Cancel({removed} tokens at {p} by {t})"
  | .reset => "Reset()"
  | .restore => "Restore()"

/-- Everything that one firing did, in order. -/
structure Firing where
  transition : TransitionId
  changes : List Change
deriving DecidableEq, Repr

namespace Firing

def consumed (f : Firing) : List PlaceId :=
  f.changes.filterMap (fun c => match c with | .consume p _ => some p | _ => none)

def produced (f : Firing) : List PlaceId :=
  f.changes.filterMap (fun c => match c with | .produce p _ => some p | _ => none)

/-- The places that were emptied, with the number of tokens removed. -/
def cancelled (f : Firing) : List (PlaceId × Nat) :=
  f.changes.filterMap (fun c => match c with | .cancel p _ removed => some (p, removed) | _ => none)

/-- The number of tokens removed from all of them. -/
def removed (f : Firing) : Nat := f.cancelled.foldr (fun e n => e.2 + n) 0

def describe (f : Firing) : String :=
  s!"transition={f.transition}, changes=[" ++ ", ".intercalate (f.changes.map Change.describe) ++ "]"

end Firing

end Workflow
