import Workflow.Closure
import Workflow.ResetNet.Basic
/-!
# Restriction — the part of a reset net that matters

A question about a reset net is asked of a smaller one: without the starts of one task, without what
cannot lead to some target places, without what cannot come from the marked places.
-/
namespace Workflow.ResetNet

/-- Drops the starts of a task: it is assumed never to fire. -/
def withoutStartsOf (r : ResetNet) (t : TransitionId) : ResetNet :=
  { r with transitions := r.transitions.filter (fun tr => !(tr.task == t && tr.phase == .start)) }

/-- Keeps the places of `reached` and the transitions that satisfy `kept`, which lose their arcs to the
places dropped. -/
def keep (r : ResetNet) (reached : List Nat) (kept : ResetTransition → Bool) : ResetNet :=
  let alive := r.alive.filter reached.contains
  { r with
    alive
    transitions := (r.transitions.filter kept).map (fun tr =>
      { tr with
        preset := tr.preset.filter alive.contains
        postset := tr.postset.filter alive.contains
        resets := tr.resets.filter alive.contains }) }

/-! ## Back from the targets -/

/-- A transition is reached as soon as one of its output places is, and its input places with it. -/
def reachedBackward (r : ResetNet) (targets : List Nat) : List Nat :=
  closure r.size
    (fun s => r.transitions.flatMap (fun tr => if tr.postset.any s.contains then tr.preset else []))
    (targets.filter r.alive.contains)

/-- The part of the net that can put tokens on the targets. -/
def restrictBackward (r : ResetNet) (targets : List Nat) : ResetNet :=
  let reached := r.reachedBackward targets
  r.keep reached (fun tr => tr.postset.any reached.contains)

/-! ## Ahead from the marked places -/

/-- A transition is reached when all its input places are, and its output places with it. -/
def reachedForward (r : ResetNet) (marked : List Nat) : List Nat :=
  closure r.size
    (fun s => r.transitions.flatMap (fun tr => if tr.preset.all s.contains then tr.postset else []))
    (marked.filter r.alive.contains)

/-- The part of the net that tokens on the marked places can bring to life. -/
def restrictForward (r : ResetNet) (marked : List Nat) : ResetNet :=
  let reached := r.reachedForward marked
  r.keep reached (fun tr => tr.preset.all reached.contains)

/-! ## One after the other -/

/-- What any number of restrictions have left of the reset net of `net`. -/
inductive PartOf (net : Net) (limits : AnalysisLimits) : ResetNet → Prop
  | whole {r : ResetNet} : net.toResetNet limits = .ok r → PartOf net limits r
  | withoutStartsOf {r : ResetNet} (t : TransitionId) : PartOf net limits r →
      PartOf net limits (r.withoutStartsOf t)
  | restrictBackward {r : ResetNet} (targets : List Nat) : PartOf net limits r →
      PartOf net limits (r.restrictBackward targets)
  | restrictForward {r : ResetNet} (marked : List Nat) : PartOf net limits r →
      PartOf net limits (r.restrictForward marked)

end Workflow.ResetNet
