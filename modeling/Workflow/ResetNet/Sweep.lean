import Workflow.Proofs.Restriction
/-!
# Sweep — a restriction found place by place

A sweep keeps the places it has reached in a queue and gives each its turn.  In its turn a place is told to the
transitions at it, once for each arc.  Going back, a transition is kept as soon as it is told an output place.  Going
ahead, it counts down the input places it still misses and is kept when none is missing; a counter that stands at zero
cannot be lowered any more, and a sweep that would have to has failed.
-/
namespace Workflow

/-- How far a sweep has come. -/
structure Sweep where
  /-- The places reached that have not had their turn. -/
  queue : List Nat
  reached : List Nat
  /-- The numbers of the transitions to be kept. -/
  kept : List Nat
  /-- For each transition, how many input places it has not been told. -/
  missing : List Nat

namespace Sweep

def reach (s : Sweep) (p : Nat) : Sweep :=
  if s.reached.contains p then s else { s with queue := s.queue ++ [p], reached := s.reached ++ [p] }

/-- Keeps transition number `i`, with which these places are reached. -/
def accept (s : Sweep) (i : Nat) (places : List Nat) : Sweep :=
  places.foldl reach { s with kept := i :: s.kept }

/-- One of the output places has had its turn. -/
def tellBack (s : Sweep) (e : ResetTransition × Nat) : Option Sweep :=
  some (if s.kept.contains e.2 then s else s.accept e.2 e.1.preset)

/-- One of the input places has had its turn. -/
def tellAhead (s : Sweep) (e : ResetTransition × Nat) : Option Sweep :=
  match s.missing[e.2]? with
  | some (n + 1) =>
    let counted := { s with missing := s.missing.set e.2 n }
    some (if n = 0 then counted.accept e.2 e.1.postset else counted)
  | _ => none

/-- Up to `n` places have their turn, and then none may be left. -/
def run (tell : Sweep → ResetTransition × Nat → Option Sweep) (arcsAt : Nat → List (ResetTransition × Nat)) :
    Nat → Sweep → Option Sweep
  | n, s =>
    match n, s.queue with
    | _, [] => some s
    | 0, _ :: _ => none
    | n + 1, p :: queue => ((arcsAt p).foldlM tell { s with queue }).bind (run tell arcsAt n)

end Sweep

namespace ResetNet

/-- The transitions with an arc at the place, with their numbers, once for each such arc. -/
def arcsAt (r : ResetNet) (arcs : ResetTransition → List Nat) (p : Nat) : List (ResetTransition × Nat) :=
  r.transitions.zipIdx.flatMap (fun e => List.replicate ((arcs e.1).count p) e)

/-- A sweep has reached the places it starts from, unless they have been dropped. -/
def sweepFrom (r : ResetNet) (places : List Nat) : Sweep :=
  (places.filter r.alive.contains).foldl Sweep.reach
    { queue := [], reached := [], kept := [], missing := r.transitions.map (fun tr => tr.preset.length) }

/-- What a sweep leaves of the net. -/
def keepSwept (r : ResetNet) (s : Sweep) : ResetNet :=
  let alive := r.alive.filter s.reached.contains
  { r with
    alive
    transitions := (r.transitions.zipIdx.filter (fun e => s.kept.contains e.2)).map (fun e => e.1.within alive) }

def sweepBack (r : ResetNet) (targets : List Nat) : Option ResetNet :=
  (Sweep.run Sweep.tellBack (r.arcsAt ResetTransition.postset) r.size (r.sweepFrom targets)).map r.keepSwept

def sweepAhead (r : ResetNet) (marked : List Nat) : Option ResetNet :=
  (Sweep.run Sweep.tellAhead (r.arcsAt ResetTransition.preset) r.size (r.sweepFrom marked)).map r.keepSwept

end ResetNet

/-! ## One restriction after the other -/

inductive Restriction where
  | withoutStartsOf (t : TransitionId)
  | backward (targets : List Nat)
  | forward (marked : List Nat)

namespace ResetNet

def restrict (r : ResetNet) : Restriction → ResetNet
  | .withoutStartsOf t => r.withoutStartsOf t
  | .backward targets => r.restrictBackward targets
  | .forward marked => r.restrictForward marked

/-- The same by sweeps. -/
def sweep? (r : ResetNet) : Restriction → Option ResetNet
  | .withoutStartsOf t => some (r.withoutStartsOf t)
  | .backward targets => r.sweepBack targets
  | .forward marked => r.sweepAhead marked

end ResetNet

end Workflow
