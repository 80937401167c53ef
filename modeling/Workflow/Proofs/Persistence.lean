import Workflow.Proofs.Waiting
/-!
# Persistence — an enabled join stays enabled

What can be covered after some firings could be covered before them (`RunWithout.coverable`).  So an OR-join that does
not wait has nothing to wait for later either, as long as it finds the tokens it would take: it stays enabled with the
same tokens, unless the analysis gives up (`enablement_persists`).  An analysis gives up for one reason only, that it
outgrew its limits (`excess_of_orJoinVerdict`).
-/
namespace Workflow

variable {failure : Failure}

/-! ## Why an analysis gives up -/

namespace Search

variable {s : Search}

theorem excess_of_explore : ∀ {n : Nat} {basis fresh : List (List Nat)}, s.explore n basis fresh = .error failure →
    ∃ cause, failure = .excess cause
  | n, _, [], h => by cases n <;> cases h
  | 0, _, _ :: _, h => by
    cases h
    exact ⟨_, rfl⟩
  | n + 1, _, _ :: _, h => by
    unfold explore at h
    split at h
    · cases h
    · cases h
      exact ⟨_, rfl⟩
    · exact excess_of_explore h

theorem excess_of_canCover {targets : List Nat} (h : s.canCover targets = .error failure) :
    ∃ cause, failure = .excess cause := by
  unfold canCover at h
  split at h
  · dsimp only at h
    split at h
    · cases h
    · exact excess_of_explore h
  · cases h

theorem excess_of_firstLive {marked : List PlaceId} : ∀ {ps : List PlaceId}, s.firstLive marked ps = .error failure →
    ∃ cause, failure = .excess cause
  | [], h => by cases h
  | _ :: _, h => by
    unfold firstLive at h
    split at h
    · rename_i hcan
      cases h
      exact excess_of_canCover hcan
    · cases h
    · exact excess_of_firstLive h

end Search

namespace Net

variable {net : Net} {limits : AnalysisLimits} {t : TransitionId} {m m' : Marking} {r : ResetNet}
  {goal take : List PlaceId} {p : PlaceId}

theorem excess_of_finishTransitions {split : Connector} (h : net.finishTransitions limits t split = .error failure) :
    ∃ cause, failure = .excess cause := by
  unfold finishTransitions at h
  split at h
  · cases h
  · cases h
  · split at h
    · cases h
      exact ⟨_, rfl⟩
    · cases h

theorem excess_of_taskTransitions : ∀ {t : TransitionId} {trs : List Transition},
    net.taskTransitions limits t trs = .error failure → ∃ cause, failure = .excess cause
  | _, [], h => by cases h
  | _, _ :: _, h => by
    unfold taskTransitions at h
    split at h
    · rename_i hfinishes
      cases h
      exact excess_of_finishTransitions hfinishes
    · split at h
      · rename_i hrest
        cases h
        exact excess_of_taskTransitions hrest
      · cases h

/-- **The analysis of an OR-join only fails by outgrowing its limits.** -/
theorem excess_of_orJoinVerdict (hjoin : (net.transitions[t]?).map Transition.join = some .or)
    (h : net.orJoinVerdict limits t m = .error failure) : ∃ cause, failure = .excess cause := by
  unfold orJoinVerdict at h
  split at h
  · rename_i hnet
    cases h
    unfold orJoinNet at hnet
    split at hnet
    · rename_i hnone
      rw [hnone] at hjoin
      cases hjoin
    · rename_i tr htr
      rw [htr] at hjoin
      rw [if_pos (Option.some.inj hjoin)] at hnet
      unfold toResetNet at hnet
      cases htask : net.taskTransitions limits 0 net.transitions with
      | ok rs => rw [htask] at hnet; cases hnet
      | error failure' =>
        rw [htask] at hnet
        cases hnet
        exact excess_of_taskTransitions htask
  · dsimp only at h
    split at h
    · cases h
    · split at h
      · rename_i hfirst
        cases h
        exact Search.excess_of_firstLive hfirst
      · cases h
      · cases h

theorem excess_of_enablement (hjoin : (net.transitions[t]?).map Transition.join = some .or)
    (h : net.enablement limits m t = .error failure) : ∃ cause, failure = .excess cause := by
  unfold enablement at h
  rw [hjoin] at h
  dsimp only at h
  split at h
  · cases h
  · split at h
    · cases h
    · cases hv : net.orJoinVerdict limits t m with
      | ok v => rw [hv] at h; cases h
      | error failure' =>
        rw [hv] at h
        cases h
        exact excess_of_orJoinVerdict hjoin hv

/-! ## Before and after some firings -/

/-- **What can be covered after some firings could be covered before them.** -/
theorem RunWithout.coverable (h : net.RunWithout limits t m m') (hr : net.toResetNet limits = .ok r)
    (hsize : m.size = net.places.length) (hcover : (r.withoutStartsOf t).Coverable m'.count goal) :
    (r.withoutStartsOf t).Coverable m.count goal := by
  obtain ⟨y, heager, hy⟩ := h.eagerRun (Counts.Covers.refl _)
  obtain ⟨n, hrun⟩ := (heager.sparingRun hr (count_busyPlace hsize)).run
  obtain ⟨k, z, hrest, hz⟩ := hcover.mono hy
  exact ⟨n + k, z, hrun.append hrest, hz⟩

/-- **An OR-join that is enabled is not ahead of any run of the reset net**, then and later. -/
theorem RunWithout.not_coverable (hjoin : (net.transitions[t]?).map Transition.join = some .or)
    (hsize : m.size = net.places.length) (h : net.enablement limits m t = .ok (.enabled take))
    (hrun : net.RunWithout limits t m m') (hp : p ∈ net.preset t) (hnot : p ∉ take) :
    ∃ r, net.toResetNet limits = .ok r ∧ ¬ (r.withoutStartsOf t).Coverable m'.count (take ++ [p]) := by
  obtain ⟨rfl, -, hall | hv⟩ := enablement_or_take hjoin h
  · exact absurd (List.mem_filter.2 ⟨hp, hall p hp⟩) hnot
  · obtain ⟨r, hr, -, hdead⟩ := orJoinVerdict_holds hv
    have hempty : p ∈ (net.preset t).filter (fun p => !m.isMarked p) :=
      List.mem_filter.2 ⟨hp, by simpa using fun hm => hnot (List.mem_filter.2 ⟨hp, hm⟩)⟩
    exact ⟨r, hr, fun hlive => hdead p hempty (hrun.coverable hr hsize hlive)⟩

/-- No other input place gets a token while those the join would take stay marked. -/
theorem RunWithout.marked_eq (hjoin : (net.transitions[t]?).map Transition.join = some .or)
    (hsize : m.size = net.places.length) (h : net.enablement limits m t = .ok (.enabled take))
    (hrun : net.RunWithout limits t m m') (hkept : ∀ p ∈ take, m'.isMarked p = true) :
    (net.preset t).filter m'.isMarked = take := by
  have hmarked : (net.preset t).filter m'.isMarked = (net.preset t).filter take.contains := by
    refine List.filter_congr fun p hp => Bool.eq_iff_iff.2 ⟨fun hm => ?_, fun hin => ?_⟩
    · refine List.contains_iff_mem.2 (Decidable.byContradiction fun hnot => ?_)
      obtain ⟨r, -, hdead⟩ := hrun.not_coverable hjoin hsize h hp hnot
      refine hdead ⟨0, _, .nil _, List.forall_mem_append.2 ⟨fun q hq => ?_, List.forall_mem_singleton.2 ?_⟩⟩
      · exact Marking.isMarked_iff.1 (hkept q hq)
      · exact Marking.isMarked_iff.1 hm
    · exact hkept p (List.contains_iff_mem.1 hin)
  obtain ⟨htake, -⟩ := enablement_or_take hjoin h
  rw [hmarked, htake]
  refine List.filter_congr fun p hp => Bool.eq_iff_iff.2 ?_
  rw [List.contains_iff_mem, List.mem_filter, and_iff_right hp]

/-- **An enabled OR-join stays enabled, and takes the same tokens**, whatever other transitions fire, as long as these
tokens are not taken away; unless the analysis outgrows its limits, it will be found so. -/
theorem enablement_persists (hjoin : (net.transitions[t]?).map Transition.join = some .or)
    (hsize : m.size = net.places.length) (h : net.enablement limits m t = .ok (.enabled take))
    (hrun : net.RunWithout limits t m m') (hkept : ∀ p ∈ take, m'.isMarked p = true) :
    net.enablement limits m' t = .ok (.enabled take) ∨
      ∃ cause, net.enablement limits m' t = .error (.excess cause) := by
  have hmarked := hrun.marked_eq hjoin hsize h hkept
  have hne : take ≠ [] := by
    obtain ⟨rfl, hne, -⟩ := enablement_or_take hjoin h
    exact hne
  cases he : net.enablement limits m' t with
  | error failure =>
    obtain ⟨cause, rfl⟩ := excess_of_enablement hjoin he
    exact .inr ⟨cause, rfl⟩
  | ok e =>
    left
    rcases enablement_or hjoin he with ⟨hnil, -⟩ | ⟨-, -, rfl⟩ | ⟨v, hv, -, rfl⟩
    · exact absurd (hmarked.symm.trans hnil) hne
    · rw [hmarked]
    · obtain ⟨r', hr', hholds⟩ := orJoinVerdict_holds hv
      rw [hmarked] at hholds ⊢
      cases v with
      | unmarked => exact absurd hholds hne
      | enabled => rfl
      | liveBranch p =>
        obtain ⟨hp, hempty⟩ := List.mem_filter.1 hholds.mem_empty
        obtain ⟨r, hr, hdead⟩ := hrun.not_coverable hjoin hsize h hp fun htake => by
          rw [hkept p htake] at hempty
          cases hempty
        cases hr.symm.trans hr'
        exact absurd hholds.2.1 hdead

/-- The offer stays alone when `k` and then `z` fire, so it is still enabled. -/
theorem offer_stays_enabled : offer.enablement {} ⟨[0, 1, 1, 1, 0, 0, 0, 0]⟩ 3 = .ok (.enabled [1]) ∧
    offer.enablement {} ⟨[0, 1, 0, 0, 0, 0, 0, 1]⟩ 3 = .ok (.enabled [1]) := by
  have hen : offer.enablement {} ⟨[0, 1, 1, 1, 0, 0, 0, 0]⟩ 3 = .ok (.enabled [1]) := rfl
  have hk : offer.fire {} ⟨[0, 1, 1, 1, 0, 0, 0, 0]⟩ 1 (.single 6) =
      .ok (Firing.ofParts 1 [2, 3] [6] [], ⟨[0, 1, 0, 0, 0, 0, 1, 0]⟩) := rfl
  have hz : offer.fire {} ⟨[0, 1, 0, 0, 0, 0, 1, 0]⟩ 4 (.single 7) =
      .ok (Firing.ofParts 4 [6] [7] [], ⟨[0, 1, 0, 0, 0, 0, 0, 1]⟩) := rfl
  have hrun : offer.RunWithout {} 3 ⟨[0, 1, 1, 1, 0, 0, 0, 0]⟩ ⟨[0, 1, 0, 0, 0, 0, 0, 1]⟩ :=
    .cons (by decide) hk (.cons (by decide) hz (.nil _))
  refine ⟨hen, (enablement_persists rfl rfl hen hrun (by decide)).resolve_right ?_⟩
  rintro ⟨cause, h⟩
  cases h

end Net

end Workflow
