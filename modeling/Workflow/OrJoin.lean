import Workflow.Marking.Basic
import Workflow.ResetNet.Coverability
import Workflow.ResetNet.Restriction
/-!
# OrJoin — whether an OR-join has to wait

An OR-join takes the tokens it finds once no token can still come to one of its empty input places while
the marked ones stay marked.  That is a question of coverability in the reset net from which the join's
own starts have been dropped, restricted to what can lead to the input places and come from the marking.
-/
namespace Workflow

inductive Verdict where
  /-- Some input place is marked, and no token can come to another one. -/
  | enabled
  /-- No input place is marked. -/
  | unmarked
  /-- A token can still come to this empty input place. -/
  | liveBranch (p : PlaceId)
deriving DecidableEq, Repr

namespace Verdict

def isEnabled (v : Verdict) : Bool := v == .enabled

/-- The input place that the join waits for. -/
def liveBranch? : Verdict → Option PlaceId
  | .liveBranch p => some p
  | _ => none

end Verdict

/-- The first of some places that can be covered together with the places of `marked`. -/
def Search.firstLive (s : Search) (marked : List PlaceId) : List PlaceId → Except Failure (Option PlaceId)
  | [] => .ok none
  | p :: ps =>
    match s.canCover (marked ++ [p]) with
    | .error failure => .error failure
    | .ok true => .ok (some p)
    | .ok false => s.firstLive marked ps

namespace Net

/-- The restricted reset net in which the question about the OR-join `t` is asked. -/
def orJoinNet (net : Net) (limits : AnalysisLimits) (t : TransitionId) (m : Marking) :
    Except Failure ResetNet :=
  match net.transitions[t]? with
  | none => .error (.badValue (.noSuchTransition t))
  | some tr =>
    if tr.join = .or then
      (net.toResetNet limits).map (fun r =>
        ((r.withoutStartsOf t).restrictBackward (net.preset t)).restrictForward m.marked)
    else .error (.badValue (.notOrJoin tr.name))

/-- The verdict on the OR-join `t`, by analysis alone. -/
def orJoinVerdict (net : Net) (limits : AnalysisLimits) (t : TransitionId) (m : Marking) :
    Except Failure Verdict :=
  match net.orJoinNet limits t m with
  | .error failure => .error failure
  | .ok r =>
    let marked := (net.preset t).filter m.isMarked
    let empty := (net.preset t).filter (fun p => !m.isMarked p)
    if marked.isEmpty then .ok .unmarked
    else
      match (r.search limits m.count).firstLive marked empty with
      | .error failure => .error failure
      | .ok (some p) => .ok (.liveBranch p)
      | .ok none => .ok .enabled

end Net

end Workflow
