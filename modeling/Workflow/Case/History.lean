import Workflow.Case.Run
import Workflow.Counts
/-!
# History — everything that may happen to a case

A case comes about by actions on a freshly launched one.  Its log tells the same story in tokens: from the
marking that was last restored, or from the initial one, the changes logged since lead to the marking of the
case.
-/
namespace Workflow

/-- What may be asked of a case that can change it. -/
inductive Action where
  | fire (t : TransitionId) (s : Selection)
  | fireNamed (transition : String) (places : List String)
  | step (router : Router)
  | run (router : Router) (patience : Option Nat)
  | cancel
  | restore (d : TokenMap)

inductive Answer where
  | done
  | fired (f : Firing)
  | idle
  | rests (o : Outcome)
  | failed (failure : Failure)
deriving DecidableEq, Repr

/-- The outcome of an operation as an answer, beside the case it leaves. -/
def Answer.of {α : Type} (answer : α → Answer) (r : Except Failure α × Case) : Answer × Case :=
  match r.1 with
  | .ok a => (answer a, r.2)
  | .error failure => (.failed failure, r.2)

namespace Case

def act (c : Case) : Action → Answer × Case
  | .fire t s => Answer.of .fired (c.fire t s)
  | .fireNamed transition places => Answer.of .fired (c.fireNamed transition places)
  | .step router => Answer.of (Option.elim · .idle .fired) (c.step router)
  | .run router patience => Answer.of .rests (c.runWithPatience router patience)
  | .cancel => (.done, c.cancel)
  | .restore d => Answer.of (fun _ => .done) (c.restore d)

def after (c : Case) (actions : List Action) : Case := actions.foldl (fun c a => (c.act a).2) c

def answers (c : Case) : List Action → List Answer
  | [] => []
  | a :: actions => (c.act a).1 :: (c.act a).2.answers actions

theorem after_append (c : Case) (as bs : List Action) : c.after (as ++ bs) = (c.after as).after bs :=
  List.foldl_append

end Case

/-! ## Where the log starts from -/

/-- The marking that an action puts in place of the one the case has, if it does that at all. -/
def Action.installs? (net : Net) : Action → Option Marking
  | .restore d => (Marking.ofTokenMap net d).toOption
  | _ => none

/-- The marking that was restored last, or the initial one if none was. -/
def Case.lastInstalled (net : Net) (actions : List Action) : Marking :=
  (actions.filterMap (Action.installs? net)).getLast?.getD (Marking.initial net)

/-! ## Reading the log -/

namespace Change

/-- The counts after a change, if it fits the counts before it. -/
def replay? (x : Counts) : Change → Option Counts
  | .consume p _ => if 0 < x p then some (x.move [p] [] []) else none
  | .produce p _ => some (x.move [] [p] [])
  | .cancel p _ removed => if x p = removed ∧ 0 < removed then some (x.move [] [] [p]) else none
  | .reset => some (fun _ => 0)
  | .restore => none

def isConsume : Change → Bool
  | .consume _ _ => true
  | _ => false

/-- The number of blocks of consumptions in a log; anything else between two of them begins a new block. -/
def consumeBlocks (log : List Change) : Nat :=
  (log.splitBy (fun c d => c.isConsume && d.isConsume)).countP (·.any isConsume)

def replayAll? (x : Counts) : List Change → Option Counts
  | [] => some x
  | c :: l => (c.replay? x).bind (replayAll? · l)

/-- The changes after the last restoring, or all of them if there was none. -/
def sinceRestore : List Change → List Change
  | [] => []
  | c :: l => if .restore ∈ l then sinceRestore l else if c = .restore then l else c :: l

end Change

end Workflow
