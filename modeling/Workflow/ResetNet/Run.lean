import Workflow.Counts
import Workflow.ResetNet.Basic
/-!
# Run — what a reset net can do

A transition may fire when each of its input places holds a token.  More tokens never stand in the way of
a run (`Run.covered`).
-/
namespace Workflow

namespace ResetTransition

def Enabled (tr : ResetTransition) (x : Counts) : Prop := x.Marks tr.preset

def fire (tr : ResetTransition) (x : Counts) : Counts := x.move tr.preset tr.postset tr.resets

end ResetTransition

namespace ResetNet

/-- Some `n` firings lead from `x` to `y`. -/
inductive Run (r : ResetNet) : Nat → Counts → Counts → Prop
  | nil (x : Counts) : Run r 0 x x
  | cons {tr : ResetTransition} {n : Nat} {x y : Counts} : tr ∈ r.transitions → tr.Enabled x →
      Run r n (tr.fire x) y → Run r (n + 1) x y

/-- Some run brings a token to each of the targets at the same time. -/
def Coverable (r : ResetNet) (x : Counts) (targets : List Nat) : Prop :=
  ∃ n y, r.Run n x y ∧ y.Marks targets

/-- Some run of at most `k` firings does. -/
def CoverableIn (r : ResetNet) (k : Nat) (x : Counts) (targets : List Nat) : Prop :=
  ∃ n ≤ k, ∃ y, r.Run n x y ∧ y.Marks targets

variable {r : ResetNet} {x x' y : Counts} {n : Nat}

theorem coverable_iff_coverableIn {targets : List Nat} :
    r.Coverable x targets ↔ ∃ k, r.CoverableIn k x targets :=
  ⟨fun ⟨n, y, hrun, hy⟩ => ⟨n, n, Nat.le_refl n, y, hrun, hy⟩, fun ⟨_, n, _, y, hrun, hy⟩ => ⟨n, y, hrun, hy⟩⟩

theorem Run.append {m : Nat} {z : Counts} (h : r.Run n x y) (h' : r.Run m y z) : r.Run (n + m) x z := by
  induction h with
  | nil => rwa [Nat.zero_add]
  | cons htr hen _ ih =>
    rw [Nat.succ_add]
    exact .cons htr hen (ih h')

/-- **A run can be made from any counts above.** -/
theorem Run.covered (h : r.Run n x y) : ∀ {x' : Counts}, x'.Covers x → ∃ y', r.Run n x' y' ∧ y'.Covers y := by
  induction h with
  | nil x => exact fun hx => ⟨_, .nil _, hx⟩
  | cons htr hen _ ih =>
    intro x' hx
    obtain ⟨y', hrun, hy⟩ := ih (Counts.Covers.move hx)
    exact ⟨y', .cons htr (hx.marks hen) hrun, hy⟩

theorem Coverable.mono {targets : List Nat} (h : r.Coverable x targets) (hx : x'.Covers x) :
    r.Coverable x' targets := by
  obtain ⟨n, y, hrun, hy⟩ := h
  obtain ⟨y', hrun', hy'⟩ := hrun.covered hx
  exact ⟨n, y', hrun', hy'.marks hy⟩

end ResetNet

end Workflow
