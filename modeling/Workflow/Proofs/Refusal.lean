import Workflow.Proofs.Aftermath
/-!
# Refusal — what a step can fail with

A firing is refused because it is in conflict with the marking or the state of the case, because something that was
named does not exist, or because an analysis outgrew its limits.  A step adds what its router says, and nothing else
(`step_failure`).
-/
namespace Workflow

variable {failure : Failure}

/-- A conflict with the marking, a value that names nothing, or an analysis that outgrew its limits. -/
def Failure.OfFiring : Failure → Prop
  | .conflict _ | .badValue _ | .excess _ => True
  | _ => False

theorem Selection.ofFiring_of_check {s : Selection} {net : Net} {t : TransitionId}
    (h : s.check net t = .error failure) : failure.OfFiring := by
  unfold check at h
  split at h
  · cases h
    trivial
  · split at h
    · cases h
      trivial
    · split at h
      · cases h
        trivial
      · split at h
        · split at h <;> cases h
          trivial
        · split at h <;> cases h
          trivial
        · cases h

namespace Marking

theorem ofFiring_of_takeFrom : ∀ {ps : List PlaceId} {m : Marking}, m.takeFrom ps = .error failure → failure.OfFiring
  | [], _, h => by cases h
  | p :: ps, m, h => by
    unfold takeFrom at h
    split at h
    · rename_i hremove
      cases h
      unfold remove at hremove
      split at hremove
      · cases hremove
        trivial
      · split at hremove <;> cases hremove
        trivial
    · exact ofFiring_of_takeFrom h

theorem ofFiring_of_putOn : ∀ {ps : List PlaceId} {m : Marking}, m.putOn ps = .error failure → failure.OfFiring
  | [], _, h => by cases h
  | p :: ps, m, h => by
    unfold putOn at h
    split at h
    · rename_i hadd
      cases h
      unfold add at hadd
      split at hadd
      · cases hadd
        trivial
      · split at hadd <;> cases hadd
        trivial
    · exact ofFiring_of_putOn h

theorem ofFiring_of_clearPlaces : ∀ {ps : List PlaceId} {m : Marking}, m.clearPlaces ps = .error failure →
    failure.OfFiring
  | [], _, h => by cases h
  | p :: ps, m, h => by
    unfold clearPlaces at h
    split at h
    · rename_i hclear
      cases h
      unfold clearPlace at hclear
      split at hclear <;> cases hclear
      trivial
    · split at h
      · rename_i hrest
        cases h
        exact ofFiring_of_clearPlaces hrest
      · cases h

end Marking

namespace Net

variable {net : Net} {limits : AnalysisLimits} {m : Marking} {t : TransitionId} {s : Selection}

theorem ofFiring_of_enablement (h : net.enablement limits m t = .error failure) : failure.OfFiring := by
  by_cases ht : t < net.transitions.length
  · obtain ⟨cause, rfl⟩ := excess_of_enablement_of_lt ht h
    trivial
  · unfold enablement at h
    rw [List.getElem?_eq_none (Nat.le_of_not_lt ht)] at h
    cases h
    trivial

theorem exists_error_of_firstEnabledOf : ∀ {ts : List TransitionId}, net.firstEnabledOf limits m ts = .error failure →
    ∃ t ∈ ts, net.enablement limits m t = .error failure
  | [], h => by cases h
  | t :: ts, h => by
    unfold firstEnabledOf at h
    split at h
    · rename_i he
      cases h
      exact ⟨t, List.mem_cons_self, he⟩
    · cases h
    · obtain ⟨u, hu, he⟩ := exists_error_of_firstEnabledOf h
      exact ⟨u, List.mem_cons_of_mem t hu, he⟩

/-- The first enabled transition can always be told, within wide enough limits. -/
theorem excess_of_firstEnabled (h : net.firstEnabled limits m = .error failure) : ∃ cause, failure = .excess cause := by
  obtain ⟨t, ht, he⟩ := exists_error_of_firstEnabledOf h
  exact excess_of_enablement_of_lt (lt_of_mem_candidates ht) he

theorem ofFiring_of_fire (h : net.fire limits m t s = .error failure) : failure.OfFiring := by
  unfold fire at h
  simp only [bind, Except.bind] at h
  split at h
  · rename_i hcheck
    cases h
    exact Selection.ofFiring_of_check hcheck
  split at h
  · rename_i hen
    cases h
    exact ofFiring_of_enablement hen
  split at h
  · cases h
    trivial
  split at h
  · rename_i htake
    cases h
    exact Marking.ofFiring_of_takeFrom htake
  split at h
  · rename_i hput
    cases h
    exact Marking.ofFiring_of_putOn hput
  split at h
  · rename_i hclear
    cases h
    exact Marking.ofFiring_of_clearPlaces hclear
  · cases h

end Net

namespace Case

variable {c d : Case} {router : Router} {t : TransitionId} {s : Selection}

theorem ofFiring_of_fire (h : c.fire t s = (.error failure, d)) : failure.OfFiring := by
  rcases fire_cases c t s with ⟨failure', htry, hfire⟩ | ⟨-, f, m, -, hsettle⟩
  · cases hfire.symm.trans h
    unfold tryFire at htry
    split at htry
    · exact Net.ofFiring_of_fire htry
    · cases htry
      trivial
  · obtain ⟨-, ⟨cause, rfl⟩, -⟩ := unsettled_of_settle (hsettle.symm.trans h)
    trivial

/-- **A step fails with what its router says, or else as a firing does.**  The router is asked for the first enabled
transition, and nothing has been changed by then. -/
theorem step_failure (h : c.step router = (.error failure, d)) :
    (d = c ∧ c.Unrouted router failure) ∨ failure.OfFiring := by
  unfold step at h
  split at h
  · cases h
  rename_i hover
  split at h
  · rename_i hfirst
    cases h
    obtain ⟨cause, rfl⟩ := Net.excess_of_firstEnabled hfirst
    exact .inr trivial
  · obtain ⟨-, -, hen⟩ := settle_error h
    obtain ⟨cause, rfl⟩ := Net.excess_of_enabledTransitions hen
    exact .inr trivial
  · rename_i t take hfirst
    split at h
    · rename_i hroute
      cases h
      exact .inl ⟨rfl, .of t take (active_of_not_isTerminal hover) hfirst hroute⟩
    · rename_i s _
      rcases hfire : c.fire t s with ⟨result, c'⟩
      rw [hfire] at h
      cases result with
      | ok f => cases h
      | error failure' =>
        cases h
        exact .inr (ofFiring_of_fire hfire)

end Case

end Workflow
