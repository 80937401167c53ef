import Workflow.Casebook
/-!
# History — everything that may happen to a casebook

Cases come and go, and are asked for things under their numbers, in any order.  What has become of one of them can also
be told without the book: launched on its own, it is asked for the same things, one after the other.
-/
namespace Workflow

/-- What may be asked of a case in a casebook. -/
inductive Errand where
  | fire (t : TransitionId) (s : Selection)
  | restore (d : TokenMap)
  | cancel
  | run (router : Router)
  | state
  | outcome
  | enabledTransitions
  | enablement (t : TransitionId)
  | save

namespace Casebook

inductive Request where
  | launch (net : Net)
  | remove (id : CaseId)
  | ids
  | ask (id : CaseId) (e : Errand)

inductive Response where
  | launched (id : CaseId)
  | ids (ids : List CaseId)
  | done
  | fired (f : Firing)
  | state (state : CaseState)
  | outcome (o : Outcome)
  | transitions (ts : List TransitionId)
  | enablement (e : Enablement)
  | saved (d : TokenMap)
  | failed (failure : Failure)
deriving DecidableEq, Repr

def Response.of {α : Type} (response : α → Response) : Except Failure α → Response
  | .ok a => response a
  | .error failure => .failed failure

end Casebook

open Casebook (Response)

/-! ## A case on its own -/

namespace Case

def serve (c : Case) : Errand → Response × Case
  | .fire t s => (.of .fired (c.fire t s).1, (c.fire t s).2)
  | .restore d => (.of (fun _ => .done) (c.restore d).1, (c.restore d).2)
  | .cancel => (.done, c.cancel)
  | .run router => (.of .outcome (c.run router).1, (c.run router).2)
  | .state => (.state c.state, c)
  | .outcome => (.of .outcome c.outcome, c)
  | .enabledTransitions => (.of .transitions c.enabledTransitions, c)
  | .enablement t => (.of .enablement (c.enablement t), c)
  | .save => (.saved c.save, c)

/-- The case after these errands. -/
def served (c : Case) (es : List Errand) : Case := es.foldl (fun c e => (c.serve e).2) c

end Case

/-! ## The cases of a book -/

namespace Casebook

def serve (b : Casebook) (id : CaseId) : Errand → Response × Casebook
  | .fire t s => (.of .fired (b.fire id t s).1, (b.fire id t s).2)
  | .restore d => (.of (fun _ => .done) (b.restore id d).1, (b.restore id d).2)
  | .cancel => (.of (fun _ => .done) (b.cancel id).1, (b.cancel id).2)
  | .run router => (.of .outcome (b.run id router).1, (b.run id router).2)
  | .state => (.of .state (b.state id), b)
  | .outcome => (.of .outcome (b.outcome id), b)
  | .enabledTransitions => (.of .transitions (b.enabledTransitions id), b)
  | .enablement t => (.of .enablement (b.enablement id t), b)
  | .save => (.of .saved (b.save id), b)

def handle (b : Casebook) : Request → Response × Casebook
  | .launch net => (.launched (b.launch net).1, (b.launch net).2)
  | .remove id => (.of (fun _ => .done) (b.remove id).1, (b.remove id).2)
  | .ids => (.ids b.ids, b)
  | .ask id e => b.serve id e

def after (b : Casebook) (rs : List Request) : Casebook := rs.foldl (fun b r => (b.handle r).2) b

theorem after_append (b : Casebook) (rs rs' : List Request) : b.after (rs ++ rs') = (b.after rs).after rs' :=
  List.foldl_append

/-! ## What a history says of one case -/

/-- The request is about the case of this number: it removes it, or asks it for something. -/
def Request.Concerns (id : CaseId) : Request → Prop
  | .remove i | .ask i _ => i = id
  | _ => False

/-- The errand that the case of this number is given. -/
def Request.errand? (id : CaseId) : Request → Option Errand
  | .ask i e => if i = id then some e else none
  | _ => none

def errands (id : CaseId) (rs : List Request) : List Errand := rs.filterMap (Request.errand? id)

def Request.isLaunch : Request → Bool
  | .launch _ => true
  | _ => false

/-- The number of cases that have been launched. -/
def launches (rs : List Request) : Nat := rs.countP Request.isLaunch

/-- The case of this number has been launched on `net`, has not been removed since, and has been given these errands. -/
def Holds (rs : List Request) (id : CaseId) (net : Net) (es : List Errand) : Prop :=
  ∃ earlier later, rs = earlier ++ .launch net :: later ∧ id = launches earlier + 1 ∧ .remove id ∉ later ∧
    es = errands id later

end Casebook

end Workflow
