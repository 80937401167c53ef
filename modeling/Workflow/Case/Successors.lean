import Workflow.Case.Basic
import Workflow.Subsets
/-!
# Successors — every marking that one firing can lead to
-/
namespace Workflow

/-- The selections that the split of `t` admits: all outputs, each of them alone, or every choice. -/
def Net.admissibleSelections (net : Net) (limits : AnalysisLimits) (t : TransitionId) :
    Except Failure (List Selection) :=
  match (net.transitions[t]?).map Transition.split with
  | none => .error (.badValue (.noSuchTransition t))
  | some .and => .ok [Selection.all net t]
  | some .xor => .ok ((net.postset t).map Selection.single)
  | some .or =>
    if limits.branches < (net.postset t).length then
      .error (.excess (.selections (net.transitionName t) (net.postset t).length limits.branches))
    else .ok ((nonemptyChoices (net.postset t)).map Selection.ofList)

structure Successor where
  transition : TransitionId
  selection : Selection
  marking : Marking
deriving DecidableEq, Repr

namespace Case

def successorsBy (c : Case) (t : TransitionId) : Except Failure (List Successor) := do
  let selections ← c.net.admissibleSelections c.limits.analysis t
  selections.mapM (fun s =>
    (c.net.fire c.limits.analysis c.marking t s).map (fun r => ⟨t, s, r.2⟩))

/-- What one firing can lead to, by transition and selection. -/
def successors (c : Case) : Except Failure (List Successor) := do
  let enabled ← c.enabledTransitions
  return (← enabled.mapM c.successorsBy).flatten

end Case

end Workflow
