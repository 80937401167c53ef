import Workflow.Case.Run
/-!
# Stride — a run, firing by firing

A run is a row of strides.  In each of them the first enabled transition fires, with the outputs that the router of
this step chooses, and the case is settled.  The run ends when the case rests, when its patience is at an end, when it
has made as many strides as it may, or when a step fails.  One that was cut off by its limit can be taken up again where
it stopped.
-/
namespace Workflow.Case

/-- The firing that is next in an active case, and the marking it leads to: of the enabled transitions the first one
fires, and those before it have been found disabled. -/
inductive NextFiring (router : Router) (c : Case) (f : Firing) (m : Marking) : Prop
  | of (t : TransitionId) (take : List PlaceId) (s : Selection) : c.state = .active →
      c.enablement t = .ok (.enabled take) → (∀ u < t, ∃ w, c.enablement u = .ok (.disabled w)) →
      router c.net t c.marking = .ok s → c.net.fire c.limits.analysis c.marking t s = .ok (f, m) →
      NextFiring router c f m

/-- What a step comes to. -/
inductive StepsTo (router : Router) (c : Case) : Except Failure (Option Firing) → Case → Prop
  | ended : c.state.isTerminal = true → StepsTo router c (.ok none) c
  /-- Nothing is enabled, so the case is over now. -/
  | rests {state : CaseState} : c.state = .active → c.enabledTransitions = .ok [] → state.isTerminal = true →
      StepsTo router c (.ok none) { c with state }
  | refused {failure : Failure} : c.state = .active → StepsTo router c (.error failure) c
  | fires {f : Firing} {m : Marking} {state : CaseState} : c.NextFiring router f m →
      (c.record f m).settledState = .ok state → StepsTo router c (.ok (some f)) { c.record f m with state }
  /-- The firing stands, but it is not known whether the case can go on. -/
  | unsettled {f : Firing} {m : Marking} {failure : Failure} : c.NextFiring router f m →
      (c.record f m).enabledTransitions = .error failure → StepsTo router c (.error failure) (c.record f m)

/-- The next firing is entered, and the case is settled after it. -/
def Stride (router : Router) (c : Case) (f : Firing) (d : Case) : Prop :=
  ∃ m, c.NextFiring router f m ∧ (c.record f m).settle f = (.ok f, d)

/-- The router fails, asked where the first enabled transition is to put its tokens. -/
inductive Unrouted (router : Router) (c : Case) (failure : Failure) : Prop
  | of (t : TransitionId) (take : List PlaceId) : c.state = .active → c.firstEnabled = .ok (some (t, take)) →
      router c.net t c.marking = .error failure → Unrouted router c failure

/-- One stride after the other, with these firings, each with the router of its step. -/
inductive Strides : Routing → List Firing → Case → Case → Prop
  | nil {routing : Routing} (c : Case) : Strides routing [] c c
  | cons {routing : Routing} {f : Firing} {fs : List Firing} {c d e : Case} : c.Stride (routing 0) f d →
      Strides (routing.after 1) fs d e → Strides routing (f :: fs) c e

/-- How a run ends that has come to `e` with `fired` strides of the `n` it may make. -/
inductive Ending (routing : Routing) (n : Nat) (patience : Option Nat) (fired : Nat) (e : Case) :
    Except Failure Outcome → Case → Prop
  /-- Nothing is enabled. -/
  | rests {d : Case} : (e.state = .active → fired < n ∧ ∀ k ∈ patience, fired < k) →
      e.step (routing fired) = (.ok none, d) → Ending routing n patience fired e d.outcome d
  /-- Something may be, but the patience is at an end. -/
  | cancelled : patience = some fired → fired < n → e.state = .active →
      Ending routing n patience fired e e.cancel.outcome e.cancel
  /-- Something is, but no further stride is allowed. -/
  | cutOff {first : TransitionId × List PlaceId} : fired = n → e.firstEnabled = .ok (some first) →
      Ending routing n patience fired e (.error (.stepLimit e.limits.steps)) e
  | failed {failure : Failure} {d : Case} : fired < n → (∀ k ∈ patience, fired < k) →
      e.step (routing fired) = (.error failure, d) → Ending routing n patience fired e (.error failure) d

/-- A run from `c` that may make `n` strides answers with `result` and leaves `d`: it is a row of strides, within its
limit and its patience, with an ending behind it. -/
def RunsTo (routing : Routing) (n : Nat) (patience : Option Nat) (c : Case) (result : Except Failure Outcome)
    (d : Case) : Prop :=
  ∃ fs e, Strides routing fs c e ∧ fs.length ≤ n ∧ (∀ k ∈ patience, fs.length ≤ k) ∧
    Ending routing n patience fs.length e result d

/-- What a run keeps to that starts from `c`, may make `n` strides, and answers with `result` and leaves `d`. -/
structure Truthful (routing : Routing) (n : Nat) (patience : Option Nat) (c : Case) (result : Except Failure Outcome)
    (d : Case) : Prop where
  runsTo : RunsTo routing n patience c result d
  bounded : d.steps ≤ c.steps + n ∧ ∀ k ∈ patience, d.steps ≤ c.steps + k
  answers_iff : (∃ o, result = .ok o) ↔ d.state.isTerminal = true
  outcome : ∀ o, result = .ok o →
    d.outcome = .ok o ∧ o.case = d.id ∧ o.state = d.state ∧ o.steps = d.steps ∧ o.marking = d.marking
  stays : c.state.isTerminal = true → d = c ∧ ∃ o, result = .ok o
  /-- A router may fail with anything, so it may speak of a limit as well.  Then the run passes that on as soon as it
  hears it, from the router of the next step and before any more than the strides so far. -/
  cutOff : ∀ l, result = .error (.stepLimit l) →
    (l = c.limits.steps ∧ d.state = .active ∧ (∃ first, d.firstEnabled = .ok (some first)) ∧
      ∃ fs, Strides routing fs c d ∧ fs.length = n) ∨
    ∃ fs, Strides routing fs c d ∧ fs.length < n ∧ (∀ k ∈ patience, fs.length < k) ∧
      d.Unrouted (routing fs.length) (.stepLimit l)
  cancelled : ∀ fs e, Strides routing fs c e → patience = some fs.length → e.state = .active →
    (fs.length < n ∨ ∃ o, result = .ok o) →
      d = e.cancel ∧ d.state = .cancelled ∧ d.marking.isEmpty = true ∧ ∃ o, result = .ok o

/-! ## Taking up a run again -/

/-- The same case with another limit on the firings of one run. -/
def withStepLimit (c : Case) (n : Nat) : Case := { c with limits := { c.limits with steps := n } }

/-- This many runs, each of them cut off by the limit and taken up again by the next. -/
inductive Legs (router : Router) : Nat → Case → Case → Prop
  | nil (c : Case) : Legs router 0 c c
  | cons {k : Nat} {c d e : Case} : c.run router = (.error (.stepLimit c.limits.steps), d) → Legs router k d e →
      Legs router (k + 1) c e

end Workflow.Case
