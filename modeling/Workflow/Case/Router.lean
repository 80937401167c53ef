import Workflow.Firing.Selection
import Workflow.Marking.Basic
/-!
# Router — who chooses the output places when a case runs by itself

A router looks at nothing but the net, the transition and the marking, and it answers the same question the same way
each time.  One that remembers what it has been asked, or is changed from outside while a case runs, may answer
differently from step to step, and so is a router for each of the steps.
-/
namespace Workflow

/-- Chooses the output places of a transition that is about to fire in a marking, by what it sees of the net, the
transition and the marking alone. -/
abbrev Router := Net → TransitionId → Marking → Except Failure Selection

/-- The router of each step, counted from zero. -/
abbrev Routing := Nat → Router

/-- What is left of it after some steps. -/
def Routing.after (routing : Routing) (k : Nat) : Routing := fun i => routing (i + k)

namespace Router

/-- The same router in every step. -/
def steady (router : Router) : Routing := fun _ => router

@[simp] theorem steady_apply (router : Router) (i : Nat) : router.steady i = router := rfl

@[simp] theorem after_steady (router : Router) (k : Nat) : router.steady.after k = router.steady := rfl

/-- All output places for AND- and OR-splits, the first one for XOR-splits. -/
def standard : Router := fun net t _ =>
  match (net.transitions[t]?).map Transition.split with
  | some .xor => .ok (Selection.ofList (net.postset t).head?.toList)
  | _ => .ok (Selection.all net t)

def always (s : Selection) : Router := fun _ _ _ => .ok s

def named (names : List String) : Router := fun net _ _ => Selection.ofNames net names

def failing (failure : Failure) : Router := fun _ _ _ => .error failure

end Router

/-- Routers by the name of the transition, and one for all other transitions. -/
structure RoutingTable where
  routes : List (String × Router) := []
  fallback : Router := Router.standard

namespace RoutingTable

instance : Inhabited RoutingTable := ⟨{}⟩

/-- Sets the router of a transition, in place of an earlier one. -/
def register (r : RoutingTable) (name : String) (router : Router) : RoutingTable :=
  { r with routes := (name, router) :: r.routes }

def contains (r : RoutingTable) (name : String) : Bool := r.routes.any (fun e => e.1 == name)

def toRouter (r : RoutingTable) : Router := fun net t m =>
  match r.routes.find? (fun e => e.1 == net.transitionName t) with
  | some e => e.2 net t m
  | none => r.fallback net t m

end RoutingTable

end Workflow
