import Mathlib.Order.Bounds.Defs
import Workflow.Proofs.Rounds
/-!
# Relevance — what a restriction keeps

Going back from the targets keeps the least set of places that has the targets and all that a kept transition takes
from; going ahead from the marked places keeps the least set that has them and all that a kept transition puts on
(`isLeast_restrictBackward`, `isLeast_restrictForward`).  That much is needed, and it is enough: the tokens on the
places that are left bring about the same (`coverable_within_restrictBackward_iff`,
`coverable_within_restrictForward_iff`).
-/
namespace Workflow

/-- On some of the places one sees no more than on all of them. -/
theorem Counts.covers_within (x : Counts) (places : List Nat) : x.Covers (x.within places) := by
  intro p
  unfold Counts.within
  split
  · exact Nat.le_refl _
  · exact Nat.zero_le _

namespace ResetNet

variable {net : Net} {limits : AnalysisLimits} {r : ResetNet} {x y : Counts} {targets marked goal : List Nat}
  {p n : Nat}

/-! ## Tokens on dropped places -/

/-- No transition puts a token on a place that has been dropped. -/
theorem Run.eq_zero_of_notMem_alive (h : r.WellFormed) (hrun : r.Run n x y) (hp : p ∉ r.alive) (hx : x p = 0) :
    y p = 0 := by
  induction hrun with
  | nil x => exact hx
  | @cons tr n x y htr hen _ ih =>
    apply ih
    have hput : p ∉ tr.postset := fun hput => hp (h.postset_alive tr htr p hput)
    simp [ResetTransition.fire, Counts.move, hput, hx]

/-- What can be covered without the tokens on dropped places has not been dropped. -/
theorem mem_alive_of_coverable_within (h : r.WellFormed) (hc : r.Coverable (x.within r.alive) goal) :
    ∀ p ∈ goal, p ∈ r.alive := by
  obtain ⟨n, y, hrun, hy⟩ := hc
  intro p hp
  refine Decidable.byContradiction fun halive => ?_
  have hzero := hrun.eq_zero_of_notMem_alive h halive (if_neg halive)
  exact absurd (hy p hp) (by omega)

/-- **The tokens on dropped places play no part.** -/
theorem coverable_within_iff (h : r.WellFormed) (hgoal : ∀ p ∈ goal, p ∈ r.alive) :
    r.Coverable (x.within r.alive) goal ↔ r.Coverable x goal := by
  constructor
  · exact fun hc => hc.mono (x.covers_within r.alive)
  · rintro ⟨n, y, hrun, hy⟩
    have hstep : ∀ tr ∈ r.transitions, ∀ x x' : Counts, tr.Enabled x → x'.CoversOn x r.alive →
        ∃ k y', r.Run k x' y' ∧ y'.CoversOn (tr.fire x) r.alive := by
      intro tr htr x x' hen hx
      have hen' : tr.Enabled x' := hx.marks (h.preset_alive tr htr) hen
      exact ⟨1, _, .cons htr hen' (.nil _), fun p hp => Counts.move_le_move (hx p hp) id id⟩
    have hstart : (x.within r.alive).CoversOn x r.alive := fun p hp => Nat.le_of_eq (Counts.within_of_mem hp).symm
    obtain ⟨k, y', hrun', hcov⟩ := Run.follow hstep hrun hstart
    exact ⟨k, y', hrun', hcov.marks hgoal hy⟩

/-! ## Back from the targets -/

/-- Has the targets and, with an output place of a transition, all its input places. -/
structure ClosedBackward (r : ResetNet) (targets : List Nat) (s : Set Nat) : Prop where
  targets_mem : ∀ p ∈ targets, p ∈ r.alive → p ∈ s
  preset_mem : ∀ tr ∈ r.transitions, (∃ q ∈ tr.postset, q ∈ s) → ∀ p ∈ tr.preset, p ∈ s

theorem mem_alive_restrictBackward : p ∈ (r.restrictBackward targets).alive ↔
    p ∈ r.alive ∧ p ∈ r.reachedBackward targets := mem_alive_keep

/-- **Going back finds the least closed set.** -/
theorem isLeast_restrictBackward (h : r.WellFormed) (targets : List Nat) :
    IsLeast {s | r.ClosedBackward targets s} {p | p ∈ (r.restrictBackward targets).alive} := by
  refine ⟨⟨fun p hp halive => mem_alive_restrictBackward_of_mem targets hp halive, ?_⟩, ?_⟩
  · rintro tr htr ⟨q, hq, hreached⟩ p hp
    refine mem_alive_restrictBackward.2 ⟨h.preset_alive tr htr p hp, ?_⟩
    exact mem_reachedBackward_of_mem h htr hq (mem_alive_restrictBackward.1 hreached).2 hp
  · intro s hs p hp
    refine closure_subset (C := fun p => p ∈ s) (fun c hc a ha => ?_) (fun a ha => ?_) p
      (mem_alive_restrictBackward.1 hp).2
    · obtain ⟨tr, htr, ha⟩ := List.mem_flatMap.1 ha
      split at ha
      · rename_i hany
        obtain ⟨q, hq, hqc⟩ := List.any_eq_true.1 hany
        exact hs.preset_mem tr htr ⟨q, hq, hc q (List.contains_iff_mem.1 hqc)⟩ a ha
      · cases ha
    · obtain ⟨ha, halive⟩ := List.mem_filter.1 ha
      exact hs.targets_mem a ha (List.contains_iff_mem.1 halive)

theorem transitions_restrictBackward (h : r.WellFormed) (targets : List Nat) :
    (r.restrictBackward targets).transitions =
      (r.transitions.filter fun tr => ∃ q ∈ tr.postset, q ∈ (r.restrictBackward targets).alive).map
        (·.within (r.restrictBackward targets).alive) := by
  refine congrArg (List.map _) (List.filter_congr fun tr htr => ?_)
  rw [Bool.eq_iff_iff, List.any_eq_true, decide_eq_true_eq]
  refine exists_congr fun q => and_congr_right fun hq => ?_
  rw [List.contains_iff_mem, mem_alive_restrictBackward]
  exact (and_iff_right (h.postset_alive tr htr q hq)).symm

theorem coverable_within_restrictBackward_iff (h : r.WellFormed) (hgoal : ∀ p ∈ goal, p ∈ targets) :
    (r.restrictBackward targets).Coverable (x.within (r.restrictBackward targets).alive) goal ↔
      r.Coverable (x.within r.alive) goal := by
  have h' := h.restrictBackward targets
  by_cases halive : ∀ p ∈ goal, p ∈ r.alive
  · have hkept : ∀ p ∈ goal, p ∈ (r.restrictBackward targets).alive := fun p hp =>
      mem_alive_restrictBackward_of_mem targets (hgoal p hp) (halive p hp)
    rw [coverable_within_iff h' hkept, coverable_within_iff h halive, coverable_restrictBackward_iff h hkept]
  · constructor
    · intro hc
      exact absurd (fun p hp => (mem_alive_restrictBackward.1 (mem_alive_of_coverable_within h' hc p hp)).1) halive
    · intro hc
      exact absurd (mem_alive_of_coverable_within h hc) halive

/-! ## Ahead from the marked places -/

/-- Has the marked places and, with all input places of a transition, its output places. -/
structure ClosedForward (r : ResetNet) (marked : List Nat) (s : Set Nat) : Prop where
  marked_mem : ∀ p ∈ marked, p ∈ r.alive → p ∈ s
  postset_mem : ∀ tr ∈ r.transitions, (∀ p ∈ tr.preset, p ∈ s) → ∀ q ∈ tr.postset, q ∈ s

theorem mem_alive_restrictForward : p ∈ (r.restrictForward marked).alive ↔
    p ∈ r.alive ∧ p ∈ r.reachedForward marked := mem_alive_keep

/-- **Going ahead finds the least closed set.** -/
theorem isLeast_restrictForward (h : r.WellFormed) (marked : List Nat) :
    IsLeast {s | r.ClosedForward marked s} {p | p ∈ (r.restrictForward marked).alive} := by
  refine ⟨⟨fun p hp halive => ?_, fun tr htr hpre q hq => ?_⟩, ?_⟩
  · exact mem_alive_restrictForward.2 ⟨halive, subset_closure p (List.mem_filter.2 ⟨hp, by simpa using halive⟩)⟩
  · refine mem_alive_restrictForward.2 ⟨h.postset_alive tr htr q hq, ?_⟩
    exact mem_reachedForward_of_mem h htr (fun p hp => (mem_alive_restrictForward.1 (hpre p hp)).2) hq
  · intro s hs p hp
    refine closure_subset (C := fun p => p ∈ s) (fun c hc a ha => ?_) (fun a ha => ?_) p
      (mem_alive_restrictForward.1 hp).2
    · obtain ⟨tr, htr, ha⟩ := List.mem_flatMap.1 ha
      split at ha
      · rename_i hall
        exact hs.postset_mem tr htr (fun q hq => hc q (List.contains_iff_mem.1 (List.all_eq_true.1 hall q hq))) a ha
      · cases ha
    · obtain ⟨ha, halive⟩ := List.mem_filter.1 ha
      exact hs.marked_mem a ha (List.contains_iff_mem.1 halive)

theorem transitions_restrictForward (h : r.WellFormed) (marked : List Nat) :
    (r.restrictForward marked).transitions =
      (r.transitions.filter fun tr => ∀ p ∈ tr.preset, p ∈ (r.restrictForward marked).alive).map
        (·.within (r.restrictForward marked).alive) := by
  refine congrArg (List.map _) (List.filter_congr fun tr htr => ?_)
  rw [Bool.eq_iff_iff, List.all_eq_true, decide_eq_true_eq]
  refine forall₂_congr fun p hp => ?_
  rw [List.contains_iff_mem, mem_alive_restrictForward]
  exact (and_iff_right (h.preset_alive tr htr p hp)).symm

theorem coverable_within_restrictForward_iff (h : r.WellFormed) (hx : ∀ p ∈ r.alive, 0 < x p → p ∈ marked) :
    (r.restrictForward marked).Coverable (x.within (r.restrictForward marked).alive) goal ↔
      r.Coverable (x.within r.alive) goal := by
  have h' := h.restrictForward marked
  constructor
  · intro hc
    have hkept := mem_alive_of_coverable_within h' hc
    have halive : ∀ p ∈ goal, p ∈ r.alive := fun p hp => (mem_alive_restrictForward.1 (hkept p hp)).1
    rw [coverable_within_iff h' hkept] at hc
    exact (coverable_within_iff h halive).2 ((coverable_restrictForward_iff h hx halive).1 ⟨hkept, hc⟩)
  · intro hc
    have halive := mem_alive_of_coverable_within h hc
    rw [coverable_within_iff h halive, ← coverable_restrictForward_iff h hx halive] at hc
    exact (coverable_within_iff h' hc.1).2 hc.2

/-! ## Any part of a reset net -/

/-- **A restriction keeps what matters, and nothing else.**  In whatever restrictions have left of a reset net, the
places that a further one keeps are the least set closed under it, and the transitions it keeps are those with an output
place, or with all input places, in that set.  What can be covered among the targets, or from tokens on the marked
places, is what could be covered before; tokens on dropped places do not count. -/
theorem PartOf.restriction_exact (hr : PartOf net limits r) :
    (∀ targets : List Nat,
      IsLeast {s | r.ClosedBackward targets s} {p | p ∈ (r.restrictBackward targets).alive} ∧
      (r.restrictBackward targets).transitions =
        (r.transitions.filter fun tr => ∃ q ∈ tr.postset, q ∈ (r.restrictBackward targets).alive).map
          (·.within (r.restrictBackward targets).alive) ∧
      ∀ (x : Counts) (goal : List Nat), (∀ p ∈ goal, p ∈ targets) →
        ((r.restrictBackward targets).Coverable (x.within (r.restrictBackward targets).alive) goal ↔
          r.Coverable (x.within r.alive) goal)) ∧
    ∀ marked : List Nat,
      IsLeast {s | r.ClosedForward marked s} {p | p ∈ (r.restrictForward marked).alive} ∧
      (r.restrictForward marked).transitions =
        (r.transitions.filter fun tr => ∀ p ∈ tr.preset, p ∈ (r.restrictForward marked).alive).map
          (·.within (r.restrictForward marked).alive) ∧
      ∀ (x : Counts) (goal : List Nat), (∀ p ∈ r.alive, 0 < x p → p ∈ marked) →
        ((r.restrictForward marked).Coverable (x.within (r.restrictForward marked).alive) goal ↔
          r.Coverable (x.within r.alive) goal) := by
  have h := hr.wellFormed
  constructor
  · intro targets
    exact ⟨isLeast_restrictBackward h targets, transitions_restrictBackward h targets, fun x goal hgoal =>
      coverable_within_restrictBackward_iff h hgoal⟩
  · intro marked
    exact ⟨isLeast_restrictForward h marked, transitions_restrictForward h marked, fun x goal hx =>
      coverable_within_restrictForward_iff h hx⟩

end ResetNet

open ResetNet (PartOf)

/-- While the question `n` is open, its answer `h` can be covered together with the offer `c`.  Without `k` and `z`,
which lead to neither, it still can; and whatever is closed ahead of the tokens that are there has `h`. -/
theorem Net.offer_restricted : ∃ r : ResetNet, PartOf offer {} r ∧
    (r.restrictBackward [1, 5]).alive = [0, 1, 4, 5, 8, 10] ∧
    (r.restrictBackward [1, 5]).Coverable
      (Counts.within (Marking.mk [0, 1, 1, 0, 1, 0, 0, 0]).count (r.restrictBackward [1, 5]).alive) [1, 5] ∧
    r.Coverable (Counts.within (Marking.mk [0, 1, 1, 0, 1, 0, 0, 0]).count r.alive) [1, 5] ∧
    ∀ s : Set Nat, r.ClosedForward [1, 2, 4] s → 5 ∈ s := by
  have hall : (offer.toResetNet {}).map (fun r => ((r.restrictBackward [1, 5]).alive,
      ((r.restrictBackward [1, 5]).search {} (Marking.mk [0, 1, 1, 0, 1, 0, 0, 0]).count).canCover [1, 5],
      (r.restrictForward [1, 2, 4]).alive.contains 5)) = .ok ([0, 1, 4, 5, 8, 10], .ok true, true) := rfl
  obtain ⟨r, hr, hanswers⟩ := exists_ok_of_map hall
  obtain ⟨halive, hrest⟩ := Prod.mk.inj hanswers
  obtain ⟨hcan, hahead⟩ := Prod.mk.inj hrest
  have hpart : PartOf offer {} r := .whole hr
  obtain ⟨hback, hforward⟩ := hpart.restriction_exact
  obtain ⟨-, -, hcover⟩ := hback [1, 5]
  rw [← search_within] at hcan
  have hlive := ((canCover_ok (hpart.wellFormed.restrictBackward [1, 5]).preset_alive hcan).1 rfl).2
  refine ⟨r, hpart, halive, hlive, (hcover _ _ fun p hp => hp).1 hlive, fun s hs => ?_⟩
  exact (hforward [1, 2, 4]).1.2 hs (List.contains_iff_mem.1 hahead)

end Workflow
