import Workflow.Case.Router
import Workflow.Firing.Fire
import Workflow.Marking.Persisted
/-!
# Case — one run through a workflow net

A case carries its marking, its state, and a log of every change.  Whenever its marking has changed it is
settled: if nothing is enabled any more, it has completed or come to a deadlock.  Finding out whether
something is enabled may fail, and then the change stands while the state stays active.  So an operation
answers with two things, its result or failure, and the case as it is afterwards.
-/
namespace Workflow

structure Case where
  id : CaseId
  net : Net
  limits : RunLimits
  marking : Marking
  state : CaseState := .active
  steps : Nat := 0
  /-- Every change of the marking so far, the oldest first. -/
  changes : Array Change := #[]

/-- Where a case stands, and what is left over. -/
structure Outcome where
  case : CaseId
  state : CaseState
  steps : Nat
  marking : Marking
  /-- The marked places other than the sink. -/
  stranded : List PlaceId
  /-- The transitions with a marked input place that are not enabled. -/
  blocked : List TransitionId
deriving DecidableEq, Repr

namespace Case

def launch (net : Net) (id : CaseId) (limits : RunLimits) : Case :=
  { id, net, limits, marking := Marking.initial net }

/-! ## Looking at a case -/

def enablement (c : Case) (t : TransitionId) : Except Failure Enablement :=
  c.net.enablement c.limits.analysis c.marking t

def enabledTransitions (c : Case) : Except Failure (List TransitionId) :=
  c.net.enabledTransitions c.limits.analysis c.marking

def firstEnabled (c : Case) : Except Failure (Option (TransitionId × List PlaceId)) :=
  c.net.firstEnabled c.limits.analysis c.marking

def stranded (c : Case) : List PlaceId := c.marking.marked.filter (fun p => p != c.net.sink)

def outcome (c : Case) : Except Failure Outcome :=
  (c.net.blockedTransitions c.limits.analysis c.marking).map (fun blocked =>
    { case := c.id, state := c.state, steps := c.steps, marking := c.marking,
      stranded := c.stranded, blocked })

def save (c : Case) : TokenMap := c.marking.toTokenMap c.net

/-! ## Settling -/

/-- The state that the marking calls for. -/
def settledState (c : Case) : Except Failure CaseState :=
  match c.state with
  | .active =>
    match c.enabledTransitions with
    | .error failure => .error failure
    | .ok [] => .ok (if c.marking.isMarked c.net.sink then .completed else .deadlocked)
    | .ok (_ :: _) => .ok .active
  | state => .ok state

/-- Settles the case and answers with `a`, or with the failure to settle it. -/
def settle {α : Type} (c : Case) (a : α) : Except Failure α × Case :=
  match c.settledState with
  | .error failure => (.error failure, c)
  | .ok state => (.ok a, { c with state })

/-! ## Firing -/

def tryFire (c : Case) (t : TransitionId) (s : Selection) : Except Failure (Firing × Marking) :=
  if c.state = .active then c.net.fire c.limits.analysis c.marking t s
  else .error (.conflict (.caseOver c.id c.state))

/-- Enters a firing that led to `m`. -/
def record (c : Case) (f : Firing) (m : Marking) : Case :=
  { c with marking := m, steps := c.steps + 1, changes := c.changes ++ f.changes }

def fire (c : Case) (t : TransitionId) (s : Selection) : Except Failure Firing × Case :=
  match c.tryFire t s with
  | .error failure => (.error failure, c)
  | .ok (f, m) => (c.record f m).settle f

def fireNamed (c : Case) (transition : String) (places : List String) : Except Failure Firing × Case :=
  match c.net.transitionId? transition with
  | none => (.error (.badValue (.unknownTransition transition)), c)
  | some t =>
    match Selection.ofNames c.net places with
    | .error failure => (.error failure, c)
    | .ok s => c.fire t s

/-! ## Cancelling and restoring -/

/-- Removes every token and ends the case. -/
def cancel (c : Case) : Case :=
  if c.state = .cancelled then c
  else { c with marking := c.marking.clear, state := .cancelled, changes := c.changes.push .reset }

/-- Replaces the marking by a persisted one, and derives the state from it. -/
def restore (c : Case) (d : TokenMap) : Except Failure Unit × Case :=
  match Marking.ofTokenMap c.net d with
  | .error failure => (.error failure, c)
  | .ok m =>
    { c with marking := m, state := .active, changes := c.changes.push .restore : Case }.settle ()

end Case

end Workflow
