import Workflow.Firing.Change
import Workflow.Firing.Enablement
import Workflow.Firing.Selection
/-!
# Fire — one firing, from marking to marking

A firing takes the tokens that satisfied the join, puts one token on each selected place, and then empties
what the transition cancels.  Either all of that happens or the answer is a failure.
-/
namespace Workflow

namespace Marking

def takeFrom : List PlaceId → Marking → Except Failure Marking
  | [], m => .ok m
  | p :: ps, m =>
    match m.remove p 1 with
    | .error failure => .error failure
    | .ok m => takeFrom ps m

def putOn : List PlaceId → Marking → Except Failure Marking
  | [], m => .ok m
  | p :: ps, m =>
    match m.add p 1 with
    | .error failure => .error failure
    | .ok m => putOn ps m

/-- Empties the places, and tells which of them held how many tokens. -/
def clearPlaces : List PlaceId → Marking → Except Failure (List (PlaceId × Nat) × Marking)
  | [], m => .ok ([], m)
  | p :: ps, m =>
    match m.clearPlace p with
    | .error failure => .error failure
    | .ok (n, m) =>
      match clearPlaces ps m with
      | .error failure => .error failure
      | .ok (removed, m) => .ok (if n = 0 then removed else (p, n) :: removed, m)

end Marking

def Firing.ofParts (t : TransitionId) (take put : List PlaceId) (removed : List (PlaceId × Nat)) : Firing where
  transition := t
  changes := take.map (Change.consume · t) ++ put.map (Change.produce · t) ++
    removed.map (fun e => Change.cancel e.1 t e.2)

namespace Net

/-- Fires `t` in `m` and puts tokens on the selected places.  The new marking is handed over at the very end, when
nothing can fail any more, so `m` stands as it was after a failure. -/
def fire (net : Net) (limits : AnalysisLimits) (m : Marking) (t : TransitionId) (s : Selection) :
    Except Failure (Firing × Marking) := do
  s.check net t
  match ← net.enablement limits m t with
  | .disabled _ => .error (.conflict (.notEnabled (net.transitionName t)))
  | .enabled take =>
    let m ← m.takeFrom take
    let m ← m.putOn s.places
    let (removed, m) ← m.clearPlaces (net.cancelledPlaces t)
    return (Firing.ofParts t take s.places removed, m)

end Net

end Workflow
