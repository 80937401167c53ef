import Workflow.Proofs.Search
import Workflow.ResetNet.Restriction
/-!
# Restriction — a restriction changes no answer

A place that is kept holds as many tokens after a firing of the restricted net as after the same firing of the whole
one, so runs of the two can be followed side by side (`Run.follow`).  What goes back from the targets drops only
transitions that put no token on a kept place, and what goes ahead from the marked places drops only transitions that
never come to fire; either way the same targets can be covered (`coverable_restrictBackward_iff`,
`coverable_restrictForward_iff`).
-/
namespace Workflow

/-- At least as many tokens as in `y` on each of these places. -/
def Counts.CoversOn (x y : Counts) (places : List Nat) : Prop := ∀ p ∈ places, y p ≤ x p

theorem Counts.CoversOn.marks {x y : Counts} {places goal : List Nat} (h : x.CoversOn y places)
    (hgoal : ∀ p ∈ goal, p ∈ places) (hy : y.Marks goal) : x.Marks goal :=
  fun p hp => Nat.lt_of_lt_of_le (hy p hp) (h p (hgoal p hp))

namespace ResetTransition

/-- The transition without its arcs to places outside `alive`. -/
def within (tr : ResetTransition) (alive : List Nat) : ResetTransition :=
  { tr with
    preset := tr.preset.filter alive.contains
    postset := tr.postset.filter alive.contains
    resets := tr.resets.filter alive.contains }

theorem mem_preset_within {tr : ResetTransition} {alive : List Nat} {p : Nat} :
    p ∈ (tr.within alive).preset ↔ p ∈ tr.preset ∧ p ∈ alive := by
  simp [within]

theorem mem_postset_within {tr : ResetTransition} {alive : List Nat} {p : Nat} :
    p ∈ (tr.within alive).postset ↔ p ∈ tr.postset ∧ p ∈ alive := by
  simp [within]

/-- On the places that are left, the transition does what it did. -/
theorem fire_within (tr : ResetTransition) {alive : List Nat} {p : Nat} (hp : p ∈ alive) (x : Counts) :
    (tr.within alive).fire x p = tr.fire x p := by
  simp [fire, within, Counts.move, hp]

/-- Where the places that are left hold as much as before, the transition may still fire, and they hold as much
again. -/
theorem Enabled.within {tr : ResetTransition} {alive : List Nat} {x x' : Counts} (hen : tr.Enabled x)
    (hx : x'.CoversOn x alive) :
    (tr.within alive).Enabled x' ∧ ((tr.within alive).fire x').CoversOn (tr.fire x) alive := by
  constructor
  · intro p hp
    obtain ⟨hp, halive⟩ := mem_preset_within.1 hp
    exact Nat.lt_of_lt_of_le (hen p hp) (hx p halive)
  · intro p hp
    rw [fire_within tr hp]
    exact Counts.move_le_move (hx p hp) id id

end ResetTransition

namespace ResetNet

variable {r : ResetNet} {reached targets marked goal : List Nat} {kept : ResetTransition → Bool} {x : Counts}

/-- Every arc leads from or to a place that has not been dropped, and these are places of the net. -/
structure WellFormed (r : ResetNet) : Prop where
  alive_lt : ∀ p ∈ r.alive, p < r.size
  preset_alive : r.TakesAlive
  postset_alive : ∀ tr ∈ r.transitions, ∀ p ∈ tr.postset, p ∈ r.alive

theorem WellFormed.withoutStartsOf (h : r.WellFormed) (t : TransitionId) : (r.withoutStartsOf t).WellFormed where
  alive_lt := h.alive_lt
  preset_alive := fun tr htr => h.preset_alive tr (List.mem_filter.1 htr).1
  postset_alive := fun tr htr => h.postset_alive tr (List.mem_filter.1 htr).1

/-! ## Keeping a part -/

theorem mem_alive_keep {p : Nat} : p ∈ (r.keep reached kept).alive ↔ p ∈ r.alive ∧ p ∈ reached := by
  simp [keep]

theorem mem_transitions_keep {tr' : ResetTransition} : tr' ∈ (r.keep reached kept).transitions ↔
    ∃ tr ∈ r.transitions, kept tr = true ∧ tr.within (r.keep reached kept).alive = tr' := by
  unfold keep
  simp only [List.mem_map, List.mem_filter, and_assoc]
  exact Iff.rfl

theorem WellFormed.keep (h : r.WellFormed) (reached : List Nat) (kept : ResetTransition → Bool) :
    (r.keep reached kept).WellFormed where
  alive_lt := fun p hp => h.alive_lt p (mem_alive_keep.1 hp).1
  preset_alive := fun tr' htr' p hp => by
    obtain ⟨tr, -, -, rfl⟩ := mem_transitions_keep.1 htr'
    exact (ResetTransition.mem_preset_within.1 hp).2
  postset_alive := fun tr' htr' p hp => by
    obtain ⟨tr, -, -, rfl⟩ := mem_transitions_keep.1 htr'
    exact (ResetTransition.mem_postset_within.1 hp).2

/-- **Runs followed side by side**: if each firing of the one net is answered by a run of the other that keeps the two
markings related, so is each run. -/
theorem Run.follow {r r' : ResetNet} {R : Counts → Counts → Prop}
    (hstep : ∀ tr ∈ r.transitions, ∀ x x', tr.Enabled x → R x x' → ∃ k y', r'.Run k x' y' ∧ R (tr.fire x) y')
    {n : Nat} {x y : Counts} (h : r.Run n x y) : ∀ {x' : Counts}, R x x' → ∃ k y', r'.Run k x' y' ∧ R y y' := by
  induction h with
  | nil x => exact fun {x'} hx => ⟨0, x', .nil x', hx⟩
  | cons htr hen _ ih =>
    intro x' hx
    obtain ⟨k, z, hrun, hz⟩ := hstep _ htr _ x' hen hx
    obtain ⟨k', y', hrun', hy⟩ := ih hz
    exact ⟨k + k', y', hrun.append hrun', hy⟩

/-- A part whose transitions keep all their input places can do no more than the whole. -/
theorem coverable_of_coverable_keep (h : r.WellFormed)
    (hkept : ∀ tr ∈ r.transitions, kept tr = true → ∀ p ∈ tr.preset, p ∈ reached)
    (hgoal : ∀ p ∈ goal, p ∈ (r.keep reached kept).alive) (hc : (r.keep reached kept).Coverable x goal) :
    r.Coverable x goal := by
  obtain ⟨n, y, hrun, hy⟩ := hc
  have hstep : ∀ tr' ∈ (r.keep reached kept).transitions, ∀ x x' : Counts, tr'.Enabled x →
      x'.CoversOn x (r.keep reached kept).alive →
      ∃ k y', r.Run k x' y' ∧ y'.CoversOn (tr'.fire x) (r.keep reached kept).alive := by
    intro tr' htr' x x' hen hx
    obtain ⟨tr, htr, hk, rfl⟩ := mem_transitions_keep.1 htr'
    have hpre : ∀ p ∈ tr.preset, p ∈ (r.keep reached kept).alive := fun p hp =>
      mem_alive_keep.2 ⟨h.preset_alive tr htr p hp, hkept tr htr hk p hp⟩
    have hen' : tr.Enabled x' := fun p hp => Nat.lt_of_lt_of_le
      (hen p (ResetTransition.mem_preset_within.2 ⟨hp, hpre p hp⟩)) (hx p (hpre p hp))
    refine ⟨1, _, .cons htr hen' (.nil _), fun p hp => ?_⟩
    rw [ResetTransition.fire_within tr hp]
    exact Counts.move_le_move (hx p hp) id id
  obtain ⟨k, y', hrun', hcov⟩ := Run.follow hstep hrun (fun _ _ => Nat.le_refl _)
  exact ⟨k, y', hrun', hcov.marks hgoal hy⟩

/-! ## Back from the targets -/

theorem mem_reachedBackward_of_mem (h : r.WellFormed) {tr : ResetTransition} (htr : tr ∈ r.transitions)
    {p q : Nat} (hq : q ∈ tr.postset) (hreached : q ∈ r.reachedBackward targets) (hp : p ∈ tr.preset) :
    p ∈ r.reachedBackward targets := by
  refine mem_closure_of_mem_yields (fun s a ha => ?_) (fun a ha => ?_) p (List.mem_flatMap.2 ⟨tr, htr, ?_⟩)
  · obtain ⟨tr, htr, ha⟩ := List.mem_flatMap.1 ha
    split at ha
    · exact h.alive_lt a (h.preset_alive tr htr a ha)
    · cases ha
  · exact h.alive_lt a (by simpa using (List.mem_filter.1 ha).2)
  · show p ∈ if tr.postset.any (r.reachedBackward targets).contains then tr.preset else []
    rwa [if_pos (List.any_eq_true.2 ⟨q, hq, List.contains_iff_mem.2 hreached⟩)]

theorem mem_alive_restrictBackward_of_mem (targets : List Nat) {p : Nat} (hp : p ∈ targets) (halive : p ∈ r.alive) :
    p ∈ (r.restrictBackward targets).alive :=
  mem_alive_keep.2 ⟨halive, subset_closure p (List.mem_filter.2 ⟨hp, by simpa using halive⟩)⟩

theorem WellFormed.restrictBackward (h : r.WellFormed) (targets : List Nat) : (r.restrictBackward targets).WellFormed :=
  h.keep _ _

/-- **What cannot lead to the targets does not help to cover them.** -/
theorem coverable_restrictBackward_iff (h : r.WellFormed) (hgoal : ∀ p ∈ goal, p ∈ (r.restrictBackward targets).alive) :
    (r.restrictBackward targets).Coverable x goal ↔ r.Coverable x goal := by
  constructor
  · refine coverable_of_coverable_keep h (fun tr htr hk p hp => ?_) hgoal
    obtain ⟨q, hq, hreached⟩ := List.any_eq_true.1 hk
    exact mem_reachedBackward_of_mem h htr hq (List.contains_iff_mem.1 hreached) hp
  · rintro ⟨n, y, hrun, hy⟩
    have hstep : ∀ tr ∈ r.transitions, ∀ x x' : Counts, tr.Enabled x →
        x'.CoversOn x (r.restrictBackward targets).alive →
        ∃ k y', (r.restrictBackward targets).Run k x' y' ∧
          y'.CoversOn (tr.fire x) (r.restrictBackward targets).alive := by
      intro tr htr x x' hen hx
      by_cases hk : tr.postset.any (r.reachedBackward targets).contains = true
      · obtain ⟨hen', hfire⟩ := hen.within hx
        exact ⟨1, _, .cons (mem_transitions_keep.2 ⟨tr, htr, hk, rfl⟩) hen' (.nil _), hfire⟩
      -- a dropped transition only takes tokens from the kept places
      · refine ⟨0, x', .nil x', fun p hp => Nat.le_trans ?_ (hx p hp)⟩
        have hput : p ∉ tr.postset := fun hput => hk (List.any_eq_true.2
          ⟨p, hput, List.contains_iff_mem.2 (mem_alive_keep.1 hp).2⟩)
        unfold ResetTransition.fire Counts.move
        rw [if_neg hput]
        split <;> omega
    obtain ⟨k, y', hrun', hcov⟩ := Run.follow hstep hrun (fun _ _ => Nat.le_refl _)
    exact ⟨k, y', hrun', hcov.marks hgoal hy⟩

/-! ## Ahead from the marked places -/

theorem mem_reachedForward_of_mem (h : r.WellFormed) {tr : ResetTransition} (htr : tr ∈ r.transitions)
    (hpre : ∀ p ∈ tr.preset, p ∈ r.reachedForward marked) {q : Nat} (hq : q ∈ tr.postset) :
    q ∈ r.reachedForward marked := by
  refine mem_closure_of_mem_yields (fun s a ha => ?_) (fun a ha => ?_) q (List.mem_flatMap.2 ⟨tr, htr, ?_⟩)
  · obtain ⟨tr, htr, ha⟩ := List.mem_flatMap.1 ha
    split at ha
    · exact h.alive_lt a (h.postset_alive tr htr a ha)
    · cases ha
  · exact h.alive_lt a (by simpa using (List.mem_filter.1 ha).2)
  · show q ∈ if tr.preset.all (r.reachedForward marked).contains then tr.postset else []
    rwa [if_pos (List.all_eq_true.2 (fun p hp => List.contains_iff_mem.2 (hpre p hp)))]

theorem WellFormed.restrictForward (h : r.WellFormed) (marked : List Nat) : (r.restrictForward marked).WellFormed :=
  h.keep _ _

/-- No token leaves the places ahead of the marked ones. -/
theorem mem_reachedForward_of_fire (h : r.WellFormed) {tr : ResetTransition} (htr : tr ∈ r.transitions)
    (hen : tr.Enabled x) (hx : ∀ p ∈ r.alive, 0 < x p → p ∈ r.reachedForward marked) :
    (∀ p ∈ tr.preset, p ∈ r.reachedForward marked) ∧
      ∀ p ∈ r.alive, 0 < tr.fire x p → p ∈ r.reachedForward marked := by
  have hpre : ∀ p ∈ tr.preset, p ∈ r.reachedForward marked :=
    fun p hp => hx p (h.preset_alive tr htr p hp) (hen p hp)
  refine ⟨hpre, fun p hp hpos => ?_⟩
  by_cases hput : p ∈ tr.postset
  · exact mem_reachedForward_of_mem h htr hpre hput
  · refine hx p hp ?_
    unfold ResetTransition.fire Counts.move at hpos
    rw [if_neg hput] at hpos
    split at hpos <;> omega

/-- **What the marked places cannot bring to life plays no part**, and no token comes to a place that is dropped. -/
theorem coverable_restrictForward_iff (h : r.WellFormed) (hx : ∀ p ∈ r.alive, 0 < x p → p ∈ marked)
    (hgoal : ∀ p ∈ goal, p ∈ r.alive) :
    ((∀ p ∈ goal, p ∈ (r.restrictForward marked).alive) ∧ (r.restrictForward marked).Coverable x goal) ↔
      r.Coverable x goal := by
  constructor
  · rintro ⟨halive, hc⟩
    exact coverable_of_coverable_keep h
      (fun tr _ hk p hp => List.contains_iff_mem.1 (List.all_eq_true.1 hk p hp)) halive hc
  · rintro ⟨n, y, hrun, hy⟩
    have hstart : ∀ p ∈ r.alive, 0 < x p → p ∈ r.reachedForward marked := fun p hp hpos =>
      subset_closure p (List.mem_filter.2 ⟨hx p hp hpos, by simpa using hp⟩)
    have hstep : ∀ tr ∈ r.transitions, ∀ x x' : Counts, tr.Enabled x →
        ((∀ p ∈ r.alive, 0 < x p → p ∈ r.reachedForward marked) ∧ x'.CoversOn x (r.restrictForward marked).alive) →
        ∃ k y', (r.restrictForward marked).Run k x' y' ∧
          (∀ p ∈ r.alive, 0 < tr.fire x p → p ∈ r.reachedForward marked) ∧
          y'.CoversOn (tr.fire x) (r.restrictForward marked).alive := by
      intro tr htr x x' hen hx
      obtain ⟨hpre, hpost⟩ := mem_reachedForward_of_fire h htr hen hx.1
      have hk : tr.preset.all (r.reachedForward marked).contains = true :=
        List.all_eq_true.2 (fun p hp => List.contains_iff_mem.2 (hpre p hp))
      obtain ⟨hen', hfire⟩ := hen.within hx.2
      exact ⟨1, _, .cons (mem_transitions_keep.2 ⟨tr, htr, hk, rfl⟩) hen' (.nil _), hpost, hfire⟩
    obtain ⟨k, y', hrun', hreached, hcov⟩ := Run.follow
      (R := fun x x' => (∀ p ∈ r.alive, 0 < x p → p ∈ r.reachedForward marked) ∧
        x'.CoversOn x (r.restrictForward marked).alive) hstep hrun ⟨hstart, fun _ _ => Nat.le_refl _⟩
    have halive : ∀ p ∈ goal, p ∈ (r.restrictForward marked).alive := fun p hp =>
      mem_alive_keep.2 ⟨hgoal p hp, hreached p (hgoal p hp) (hy p hp)⟩
    exact ⟨halive, k, y', hrun', hcov.marks halive hy⟩

end ResetNet

end Workflow
