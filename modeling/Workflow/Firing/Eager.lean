import Workflow.Counts
import Workflow.Net.Build
import Workflow.Subsets
/-!
# Eager — the game without waiting

In the eager game an OR-join does not wait: like an XOR-join it takes one token, from any marked input
place.  Everything else is as in a real firing.  What can still come to an OR-join is asked of this game.
-/
namespace Workflow.Net

/-- The sets of input places that satisfy the join of `t` in the eager game. -/
def eagerTakes (net : Net) (t : TransitionId) : List (List PlaceId) :=
  match (net.transitions[t]?).map Transition.join with
  | none => []
  | some .and => [net.preset t]
  | some .xor | some .or => (net.preset t).map (fun p => [p])

/-- The sets of output places that the split of `t` may choose. -/
def splitChoices (net : Net) (t : TransitionId) : List (List PlaceId) :=
  match (net.transitions[t]?).map Transition.split with
  | none => []
  | some .and => [net.postset t]
  | some .xor => (net.postset t).map (fun p => [p])
  | some .or => nonemptyChoices (net.postset t)

inductive EagerFiring (net : Net) (t : TransitionId) : Counts → Counts → Prop
  | mk {take put : List PlaceId} {x : Counts} : take ∈ net.eagerTakes t → put ∈ net.splitChoices t →
      x.Marks take → EagerFiring net t x (x.move take put (net.cancelledPlaces t))

/-- Eager firings of transitions other than `t` lead from `x` to `y`. -/
inductive EagerRun (net : Net) (t : TransitionId) : Counts → Counts → Prop
  | nil (x : Counts) : EagerRun net t x x
  | cons {u : TransitionId} {x y z : Counts} : u ≠ t → net.EagerFiring u x y → EagerRun net t y z →
      EagerRun net t x z

end Workflow.Net
