import Workflow.Firing.Fire
/-!
# Run — one firing after another
-/
namespace Workflow.Net

/-- Firings of transitions other than `t` lead from `m` to `m'`. -/
inductive RunWithout (net : Net) (limits : AnalysisLimits) (t : TransitionId) : Marking → Marking → Prop
  | nil (m : Marking) : RunWithout net limits t m m
  | cons {u : TransitionId} {s : Selection} {f : Firing} {m m' m'' : Marking} : u ≠ t →
      net.fire limits m u s = .ok (f, m') → RunWithout net limits t m' m'' →
      RunWithout net limits t m m''

end Workflow.Net
