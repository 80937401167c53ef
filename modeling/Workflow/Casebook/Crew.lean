import Mathlib.Algebra.BigOperators.Group.Multiset.Basic
import Workflow.Case.History
import Workflow.Casebook.History
/-!
# Crew — several cases run at the same time

Every case that is to be run is given to a job of its own, and the jobs work side by side, a lap at a time and in
whatever order the laps come: between two of its laps a job looks at nothing but its case and whether the run has been
called off.  Finished jobs are collected as they are found.  The first failure that is collected becomes the answer;
from then on the run is called off, and what the other jobs have to say is not heard any more.
-/
namespace Workflow

/-- How far a job to run a case has come. -/
inductive Job where
  /-- It is at work, and may make so many strides after the next one. -/
  | working (left : Nat)
  | finished (result : Except Failure Outcome)

/-- The patience of a run that has been called off, or has not. -/
def patienceFor (calledOff : Bool) : Option Nat := if calledOff then some 0 else none

namespace Case

/-- One lap of a run: a stride, or one of the ways out. -/
def lap (c : Case) (router : Router) (calledOff : Bool) (left : Nat) : Job × Case :=
  if !c.state.isTerminal && calledOff then (.finished c.cancel.outcome, c.cancel)
  else
    match c.step router with
    | (.error failure, c) => (.finished (.error failure), c)
    | (.ok none, c) => (.finished c.outcome, c)
    | (.ok (some _), c) =>
      match left with
      | left + 1 => (.working left, c)
      | 0 =>
        match c.firstEnabled with
        | .error failure => (.finished (.error failure), c)
        | .ok (some _) => (.finished (.error (.stepLimit c.limits.steps)), c)
        | .ok none => (.finished c.outcome, c)

end Case

namespace Job

/-- What a job comes to that is left to itself, with its case as it is now. -/
def leads (router : Router) (calledOff : Bool) (c : Case) : Job → Except Failure Outcome × Case
  | .working left => Case.drive router.steady left (patienceFor calledOff) c
  | .finished result => (result, c)

/-- At most so often something can still happen to a job: its laps, and that it is collected. -/
def pending : Job → Nat
  | .working left => left + 2
  | .finished _ => 1

end Job

structure Crew where
  book : Casebook
  /-- The jobs that have not been collected, each with the number of its case. -/
  jobs : Multiset (CaseId × Job)
  /-- The outcomes collected so far, in the order in which they were found. -/
  outcomes : List Outcome := []
  failure? : Option Failure := none
  calledOff : Bool

namespace Crew

/-- A job for each of these cases, still before its first lap. -/
def fresh (b : Casebook) (ids : List CaseId) : Multiset (CaseId × Job) :=
  (ids : Multiset CaseId).map (fun id => (id, .working (b.limits.steps - 1)))

def start (b : Casebook) (ids : List CaseId) (calledOff : Bool) : Crew :=
  { book := b, jobs := fresh b ids, calledOff }

/-- What may happen next, to whichever of the jobs. -/
inductive Event (router : Router) : Crew → Crew → Prop
  | lap {s : Crew} {id : CaseId} {left : Nat} {rest : Multiset (CaseId × Job)} {c d : Case} {job : Job} :
      s.jobs = (id, .working left) ::ₘ rest → s.book.find id = .ok c →
      c.lap router s.calledOff left = (job, d) →
      Event router s { s with book := s.book.replace d, jobs := (id, job) ::ₘ rest }
  | collect {s : Crew} {id : CaseId} {o : Outcome} {rest : Multiset (CaseId × Job)} :
      s.jobs = (id, .finished (.ok o)) ::ₘ rest → s.failure? = none →
      Event router s { s with jobs := rest, outcomes := s.outcomes ++ [o] }
  | fail {s : Crew} {id : CaseId} {failure : Failure} {rest : Multiset (CaseId × Job)} :
      s.jobs = (id, .finished (.error failure)) ::ₘ rest → s.failure? = none →
      Event router s { s with jobs := rest, failure? := some failure, calledOff := true }
  | discard {s : Crew} {id : CaseId} {result : Except Failure Outcome} {rest : Multiset (CaseId × Job)}
      {failure : Failure} : s.jobs = (id, .finished result) ::ₘ rest → s.failure? = some failure →
      Event router s { s with jobs := rest }

/-- So many events in a row. -/
inductive Events (router : Router) : Nat → Crew → Crew → Prop
  | nil (s : Crew) : Events router 0 s s
  | cons {k : Nat} {s t u : Crew} : Event router s t → Events router k t u → Events router (k + 1) s u

/-- At most so many events are still to come. -/
def pending (s : Crew) : Nat := (s.jobs.map (fun e => e.2.pending)).sum

/-- What has been collected so far. -/
def collected (s : Crew) : Except Failure (List Outcome) :=
  match s.failure? with
  | some failure => .error failure
  | none => .ok s.outcomes

/-- The answer once all jobs have been collected, with the outcomes by the numbers of their cases. -/
def answer (s : Crew) : Except Failure (List Outcome) :=
  s.collected.map (fun outcomes => outcomes.mergeSort (fun o o' => decide (o.case ≤ o'.case)))

end Crew

namespace Casebook

/-- The books that come about when cases are launched and removed, and anything is done to them in between. -/
inductive Reached : Casebook → Prop
  | new (limits : RunLimits) : Reached { limits }
  | launch {b : Casebook} (net : Net) : Reached b → Reached (b.launch net).2
  | remove {b : Casebook} (id : CaseId) : Reached b → Reached (b.remove id).2
  | act {b : Casebook} {id : CaseId} {c : Case} (a : Action) : Reached b → b.find id = .ok c →
      Reached (b.replace (c.act a).2)

/-- The case of each number is in the book, and its own run does not fail. -/
def EachRuns (b : Casebook) (router : Router) (patience : Option Nat) (ids : List CaseId) : Prop :=
  ∀ id ∈ ids, ∃ c, b.find id = .ok c ∧ ∃ o d, c.runWithPatience router patience = (.ok o, d)

/-- Each of these cases has been run by itself: there is one outcome for each of them, by ascending number, and it is
that of its own run, as is what has become of the case; the rest of the book is as it was. -/
structure RunApart (router : Router) (patience : Option Nat) (ids : List CaseId) (b : Casebook) (os : List Outcome)
    (b' : Casebook) : Prop where
  ascending : os.Pairwise (fun o o' => o.case < o'.case)
  cases : (os.map Outcome.case).Perm ids
  alone : ∀ o ∈ os, ∃ c d, b.find o.case = .ok c ∧ c.runWithPatience router patience = (.ok o, d) ∧
    b'.find o.case = .ok d
  others : ∀ id, id ∉ ids → b'.find id = b.find id
  ids_eq : b'.ids = b.ids
  same : b'.limits = b.limits ∧ b'.nextId = b.nextId

end Casebook

end Workflow
