import Workflow.OrJoin
/-!
# Enablement — whether a transition may fire, and which tokens it would take

An AND-join needs a token on every input place, and an XOR-join takes the first token it finds.  An OR-join
is clear when all its input places are marked, or none is; between the two it is left to the analysis.
Only transitions with a marked input place can be enabled, so only these candidates are looked at, in the
order of their numbers.
-/
namespace Workflow

inductive Enablement where
  /-- The transition may fire, taking one token from each of these places. -/
  | enabled (take : List PlaceId)
  /-- It may not; if a single place can be named for which it waits, that is given. -/
  | disabled (waitFor : Option PlaceId)
deriving DecidableEq, Repr

namespace Enablement

def isEnabled : Enablement → Bool
  | .enabled _ => true
  | .disabled _ => false

def take? : Enablement → Option (List PlaceId)
  | .enabled take => some take
  | .disabled _ => none

end Enablement

namespace Net

def enablement (net : Net) (limits : AnalysisLimits) (m : Marking) (t : TransitionId) :
    Except Failure Enablement :=
  match (net.transitions[t]?).map Transition.join with
  | none => .error (.badValue (.noSuchTransition t))
  | some .and =>
    match (net.preset t).find? (fun p => !m.isMarked p) with
    | some p => .ok (.disabled (some p))
    | none => .ok (.enabled (net.preset t))
  | some .xor =>
    match (net.preset t).find? m.isMarked with
    | some p => .ok (.enabled [p])
    | none => .ok (.disabled none)
  | some .or =>
    let marked := (net.preset t).filter m.isMarked
    if marked.isEmpty then .ok (.disabled none)
    else if marked.length = (net.preset t).length then .ok (.enabled marked)
    else
      (net.orJoinVerdict limits t m).map (fun v =>
        if v.isEnabled then .enabled marked else .disabled v.liveBranch?)

/-- The transitions with a marked input place. -/
def candidates (net : Net) (m : Marking) : List TransitionId :=
  net.transitionIds.filter (fun t => (net.preset t).any m.isMarked)

def evaluations (net : Net) (limits : AnalysisLimits) (m : Marking) :
    Except Failure (List (TransitionId × Enablement)) :=
  (net.candidates m).mapM (fun t => (net.enablement limits m t).map (fun e => (t, e)))

def enabledTransitions (net : Net) (limits : AnalysisLimits) (m : Marking) :
    Except Failure (List TransitionId) :=
  (net.evaluations limits m).map (fun l => (l.filter (fun e => e.2.isEnabled)).map Prod.fst)

/-- The candidates that are not enabled, in order. -/
def blockedTransitions (net : Net) (limits : AnalysisLimits) (m : Marking) :
    Except Failure (List TransitionId) :=
  (net.evaluations limits m).map (fun l => (l.filter (fun e => !e.2.isEnabled)).map Prod.fst)

/-- The first enabled one of some transitions and the tokens it would take; those behind it are not
evaluated. -/
def firstEnabledOf (net : Net) (limits : AnalysisLimits) (m : Marking) :
    List TransitionId → Except Failure (Option (TransitionId × List PlaceId))
  | [] => .ok none
  | t :: ts =>
    match net.enablement limits m t with
    | .error failure => .error failure
    | .ok (.enabled take) => .ok (some (t, take))
    | .ok (.disabled _) => net.firstEnabledOf limits m ts

def firstEnabled (net : Net) (limits : AnalysisLimits) (m : Marking) :
    Except Failure (Option (TransitionId × List PlaceId)) :=
  net.firstEnabledOf limits m (net.candidates m)

end Net

end Workflow
