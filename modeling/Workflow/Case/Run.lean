import Workflow.Case.Basic
/-!
# Run — a case that runs by itself

A step fires the first enabled transition with the outputs that a router chooses.  A run takes steps until
nothing is enabled, and fails when it has taken as many as its limit allows while something still is.  A
run may be told to lose patience after a number of steps: then it cancels the case, unless the case has
come to its end by then.
-/
namespace Workflow.Case

/-- Fires the first enabled transition, if there is one. -/
def step (c : Case) (router : Router) : Except Failure (Option Firing) × Case :=
  if c.state.isTerminal then (.ok none, c)
  else
    match c.firstEnabled with
    | .error failure => (.error failure, c)
    | .ok none => c.settle none
    | .ok (some (t, _)) =>
      match router c.net t c.marking with
      | .error failure => (.error failure, c)
      | .ok s =>
        let (result, c) := c.fire t s
        (result.map some, c)

/-- Steps until the case rests.  `left` counts the firings that are allowed after the next one, and
`patience`, if given, the steps to take before the case is cancelled. -/
def drive : (routing : Routing) → (left : Nat) → (patience : Option Nat) → Case → Except Failure Outcome × Case
  | routing, left, patience, c =>
    if !c.state.isTerminal && patience == some 0 then (c.cancel.outcome, c.cancel)
    else
      match c.step (routing 0) with
      | (.error failure, c) => (.error failure, c)
      | (.ok none, c) => (c.outcome, c)
      | (.ok (some _), c) =>
        match left with
        | left + 1 => drive (routing.after 1) left (patience.map (· - 1)) c
        | 0 =>
          match c.firstEnabled with
          | .error failure => (.error failure, c)
          | .ok (some _) => (.error (.stepLimit c.limits.steps), c)
          | .ok none => (c.outcome, c)

/-- Runs until the case rests, or its patience is at an end. -/
def runWithRouting (c : Case) (routing : Routing) (patience : Option Nat) : Except Failure Outcome × Case :=
  drive routing (c.limits.steps - 1) patience c

def runWithPatience (c : Case) (router : Router) (patience : Option Nat) : Except Failure Outcome × Case :=
  c.runWithRouting router.steady patience

def run (c : Case) (router : Router) : Except Failure Outcome × Case := c.runWithPatience router none

end Workflow.Case
