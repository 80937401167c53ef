import Workflow.Case.Run
/-!
# Casebook — many cases side by side

Cases are numbered from one in the order in which they are launched, and a number is never given twice.
An operation on one case leaves the others alone, and one on a number that is not in the book changes
nothing.
-/
namespace Workflow

structure Casebook where
  limits : RunLimits := {}
  nextId : CaseId := 1
  /-- The cases by ascending number. -/
  cases : List Case := []

namespace Casebook

def ids (b : Casebook) : List CaseId := b.cases.map Case.id

def find (b : Casebook) (id : CaseId) : Except Failure Case :=
  match b.cases.find? (fun c => c.id == id) with
  | some c => .ok c
  | none => .error (.noSuchCase id)

def launch (b : Casebook) (net : Net) : CaseId × Casebook :=
  (b.nextId,
    { b with nextId := b.nextId + 1, cases := b.cases ++ [Case.launch net b.nextId b.limits] })

def remove (b : Casebook) (id : CaseId) : Except Failure Unit × Casebook :=
  match b.find id with
  | .error failure => (.error failure, b)
  | .ok _ => (.ok (), { b with cases := b.cases.filter (fun c => c.id != id) })

/-- Puts a case in place of the one with its number. -/
def replace (b : Casebook) (c : Case) : Casebook :=
  { b with cases := b.cases.map (fun d => if d.id = c.id then c else d) }

/-! ## One case -/

def update {α : Type} (b : Casebook) (id : CaseId) (op : Case → Except Failure α × Case) :
    Except Failure α × Casebook :=
  match b.find id with
  | .error failure => (.error failure, b)
  | .ok c =>
    let (result, c) := op c
    (result, b.replace c)

def fire (b : Casebook) (id : CaseId) (t : TransitionId) (s : Selection) : Except Failure Firing × Casebook :=
  b.update id (fun c => c.fire t s)

def cancel (b : Casebook) (id : CaseId) : Except Failure Unit × Casebook :=
  b.update id (fun c => (.ok (), c.cancel))

def restore (b : Casebook) (id : CaseId) (d : TokenMap) : Except Failure Unit × Casebook :=
  b.update id (fun c => c.restore d)

def run (b : Casebook) (id : CaseId) (router : Router) : Except Failure Outcome × Casebook :=
  b.update id (fun c => c.run router)

def state (b : Casebook) (id : CaseId) : Except Failure CaseState := (b.find id).map Case.state

def outcome (b : Casebook) (id : CaseId) : Except Failure Outcome := (b.find id).bind Case.outcome

def enabledTransitions (b : Casebook) (id : CaseId) : Except Failure (List TransitionId) :=
  (b.find id).bind Case.enabledTransitions

def enablement (b : Casebook) (id : CaseId) (t : TransitionId) : Except Failure Enablement :=
  (b.find id).bind (fun c => c.enablement t)

def save (b : Casebook) (id : CaseId) : Except Failure TokenMap := (b.find id).map Case.save

/-! ## Several cases -/

/-- Runs cases one after the other.  Once a case has failed, those behind it are cancelled, and its
failure is the answer. -/
def runEach (router : Router) : Option Nat → List CaseId → Casebook → Except Failure (List Outcome) × Casebook
  | _, [], b => (.ok [], b)
  | patience, id :: ids, b =>
    match b.update id (fun c => c.runWithPatience router patience) with
    | (.ok outcome, b) =>
      let (result, b) := runEach router patience ids b
      (result.map (outcome :: ·), b)
    | (.error failure, b) => (.error failure, (runEach router (some 0) ids b).2)

/-- Runs several cases, or cancels them if the run has been called off; the outcomes are listed by case
number.  If a number is not in the book, nothing is started. -/
def runAll (b : Casebook) (ids : List CaseId) (router : Router) (calledOff : Bool) :
    Except Failure (List Outcome) × Casebook :=
  match ids.find? (fun id => !b.ids.contains id) with
  | some id => (.error (.noSuchCase id), b)
  | none =>
    let (result, b) := runEach router (if calledOff then some 0 else none) ids b
    (result.map (fun outcomes => outcomes.mergeSort (fun o o' => decide (o.case ≤ o'.case))), b)

end Casebook

end Workflow
