import Workflow.Case.History
import Workflow.Case.Successors
/-!
# Dialogue — actions and questions in turn

A case is told to do something, and in between it is asked how things stand.  A dialogue is any sequence of both, and
every turn has its reply.
-/
namespace Workflow

/-- What may be asked of a case without changing it. -/
inductive Question where
  | enablement (t : TransitionId)
  | enabledTransitions
  | outcome
  | successors
  | save
deriving DecidableEq, Repr

inductive Finding where
  | enablement (e : Enablement)
  | transitions (ts : List TransitionId)
  | outcome (o : Outcome)
  | successors (l : List Successor)
  | saved (d : TokenMap)
deriving DecidableEq, Repr

inductive Turn where
  | act (a : Action)
  | ask (q : Question)

inductive Reply where
  | answer (a : Answer)
  | finding (f : Finding)

namespace Reply

/-- A question that fails is answered like an action that fails. -/
def of {α : Type} (reply : α → Reply) : Except Failure α → Reply
  | .ok a => reply a
  | .error failure => .answer (.failed failure)

/-- A limit of the analysis put an end to the turn. -/
def isCutOff : Reply → Bool
  | .answer (.failed (.excess _)) => true
  | _ => false

end Reply

namespace Case

def look (c : Case) : Question → Except Failure Finding
  | .enablement t => (c.enablement t).map .enablement
  | .enabledTransitions => c.enabledTransitions.map .transitions
  | .outcome => c.outcome.map .outcome
  | .successors => c.successors.map .successors
  | .save => .ok (.saved c.save)

def turn (c : Case) : Turn → Reply × Case
  | .act a => (.answer (c.act a).1, (c.act a).2)
  | .ask q => (Reply.of .finding (c.look q), c)

def afterTurns (c : Case) (turns : List Turn) : Case := turns.foldl (fun c t => (c.turn t).2) c

def replies (c : Case) : List Turn → List Reply
  | [] => []
  | t :: turns => (c.turn t).1 :: (c.turn t).2.replies turns

end Case

end Workflow
