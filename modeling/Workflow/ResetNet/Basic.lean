import Workflow.Limits
import Workflow.Net.Build
import Workflow.Subsets
/-!
# ResetNet — a net in which joins and splits are spelled out

Each transition of a workflow net becomes a task that starts and finishes.  Its start transitions take
tokens from the input places and put one on the task's busy place, and its finish transitions take that
token and put tokens on the output places: one transition for each way in which the join may be
satisfied, and one for each choice the split may make.  What the task cancels is emptied when it finishes.

The places are numbered: first the places of the workflow net, called conditions, under their own
numbers, then the busy places in the order of the transitions.
-/
namespace Workflow

inductive Phase where
  | start
  | finish
deriving DecidableEq, Repr

inductive ResetPlace where
  | condition (p : PlaceId)
  | busy (t : TransitionId)
deriving DecidableEq, Repr

structure ResetTransition where
  label : String
  task : TransitionId
  phase : Phase
  preset : List Nat
  postset : List Nat
  /-- The places that are emptied when this transition fires, after its tokens have been put. -/
  resets : List Nat
deriving DecidableEq, Repr

/-- A reset net, or what a restriction has left of one: a restriction never renumbers places, it only
drops some of them. -/
structure ResetNet where
  conditions : Nat
  /-- The labels of all places, dropped ones included. -/
  labels : List String
  /-- The places that have not been dropped, in ascending order. -/
  alive : List Nat
  transitions : List ResetTransition
deriving DecidableEq, Repr

namespace ResetNet

/-- The number of places, dropped ones included. -/
def size (r : ResetNet) : Nat := r.labels.length

def places (r : ResetNet) : List (ResetPlace × String) :=
  r.labels.zipIdx.map (fun e =>
    (if e.2 < r.conditions then .condition e.2 else .busy (e.2 - r.conditions), e.1))

def transition? (r : ResetNet) (label : String) : Option ResetTransition :=
  r.transitions.find? (fun t => t.label == label)

end ResetNet

namespace Net

/-- The number of the place that is marked while a task is under way. -/
def busyPlace (net : Net) (t : TransitionId) : Nat := net.places.length + t

/-- The places that finishing the task empties. -/
def resetPlaces (net : Net) (t : TransitionId) : List Nat :=
  (net.cancelledPlaces t ++ (net.cancelledTransitions t).map net.busyPlace).eraseDups

def startTransition (net : Net) (t : TransitionId) (suffix : String) (preset : List PlaceId) :
    ResetTransition where
  label := net.transitionName t ++ "_start" ++ suffix
  task := t
  phase := .start
  preset := preset
  postset := [net.busyPlace t]
  resets := []

def finishTransition (net : Net) (t : TransitionId) (suffix : String) (postset : List PlaceId) :
    ResetTransition where
  label := net.transitionName t ++ "_end" ++ suffix
  task := t
  phase := .finish
  preset := [net.busyPlace t]
  postset := postset
  resets := net.resetPlaces t

/-- One way to start for an AND-join, one for each input place for the others. -/
def startTransitions (net : Net) (t : TransitionId) (join : Connector) : List ResetTransition :=
  match join with
  | .and => [net.startTransition t "" (net.preset t)]
  | .xor | .or => (net.preset t).map (fun p => net.startTransition t ("^" ++ net.placeName p) [p])

/-- One way to finish for an AND-split, one for each output place for an XOR-split, and one for each
nonempty set of output places for an OR-split. -/
def finishTransitions (net : Net) (limits : AnalysisLimits) (t : TransitionId) (split : Connector) :
    Except Failure (List ResetTransition) :=
  match split with
  | .and => .ok [net.finishTransition t "" (net.postset t)]
  | .xor => .ok ((net.postset t).map (fun p => net.finishTransition t ("^" ++ net.placeName p) [p]))
  | .or =>
    if limits.branches < (net.postset t).length then
      .error (.excess (.finishes (net.transitionName t) (net.postset t).length limits.branches))
    else .ok ((nonemptyChoices (net.postset t)).map (fun c =>
      net.finishTransition t ("^\x7b" ++ " ".intercalate (c.map net.placeName) ++ "\x7d") c))

/-- The starts and finishes of the transitions from number `t` on. -/
def taskTransitions (net : Net) (limits : AnalysisLimits) :
    TransitionId → List Transition → Except Failure (List ResetTransition)
  | _, [] => .ok []
  | t, tr :: trs =>
    match net.finishTransitions limits t tr.split with
    | .error failure => .error failure
    | .ok finishes =>
      match net.taskTransitions limits (t + 1) trs with
      | .error failure => .error failure
      | .ok rest => .ok (net.startTransitions t tr.join ++ finishes ++ rest)

def toResetNet (net : Net) (limits : AnalysisLimits) : Except Failure ResetNet :=
  (net.taskTransitions limits 0 net.transitions).map (fun transitions =>
    { conditions := net.places.length
      labels := net.places.map Place.name ++ net.transitions.map (fun t => "p_" ++ t.name)
      alive := List.range (net.places.length + net.transitions.length)
      transitions })

end Net

end Workflow
