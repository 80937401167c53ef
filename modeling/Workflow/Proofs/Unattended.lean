import Workflow.Proofs.Room
import Workflow.Proofs.Strides
import Workflow.Proofs.Succession
/-!
# Unattended — what can go wrong when nobody chooses

The standard router asks for a selection that suits the split, whatever the net, the transition and the marking
(`standard_suits`), and a step only fires what it has found enabled.  So of all the failures of a firing one is left: a
place is full.  Then nothing has been changed, and a run stands where its last firing has led (`unattended`).
-/
namespace Workflow

variable {net : Net} {t : TransitionId} {m : Marking} {router : Router} {failure : Failure}

/-! ## What the standard router selects -/

theorem Selection.ofList_singleton (p : PlaceId) : ofList [p] = single p := by
  simp [ofList, single, List.eraseDups_cons]

namespace Router

/-- The choice is left to the standard router, directly or by tables that leave all their choices to it. -/
inductive LeavesToStandard : Router → Prop
  | standard : LeavesToStandard standard
  | table {r : RoutingTable} : (∀ e ∈ r.routes, LeavesToStandard e.2) → LeavesToStandard r.fallback →
      LeavesToStandard r.toRouter

theorem LeavesToStandard.eq_standard (h : router.LeavesToStandard) : router = Router.standard := by
  induction h with
  | standard => rfl
  | @table r _ _ hroutes hfallback =>
    funext net t m
    unfold RoutingTable.toRouter
    split
    · rename_i e he
      rw [hroutes e (List.mem_of_find?_eq_some he)]
    · rw [hfallback]

/-- **What the standard router selects suits the split**, of every transition and in every marking. -/
theorem standard_suits (ht : t < net.transitions.length) (m : Marking) :
    ∃ s, Router.standard net t m = .ok s ∧ s.Suits net t := by
  unfold Router.standard
  split
  · rename_i hsplit
    obtain ⟨p, ps, hp⟩ := List.exists_cons_of_ne_nil (Net.postset_ne_nil ht)
    have hmem : p ∈ net.postset t := by simp [hp]
    refine ⟨_, rfl, ?_⟩
    rw [hp, List.head?_cons, Option.toList_some, Selection.ofList_singleton]
    exact Net.suits_single hmem (by simp [hsplit])
  · rename_i hsplit
    exact ⟨_, rfl, Net.suits_all ht fun hxor => hsplit hxor⟩

end Router

namespace Case

variable {c d : Case} {take : List PlaceId} {s : Selection} {f : Firing} {fs : List Firing} {patience : Option Nat}
  {result : Except Failure Outcome}

/-- The firing that is next has all it needs but room, and the failure says so: the first enabled transition is to fire,
with the outputs that the router chooses, and one of these is full. -/
inductive OutOfRoom (router : Router) (c : Case) : Failure → Prop
  | of (t : TransitionId) (take : List PlaceId) (s : Selection) (p : PlaceId) : c.state = .active →
      c.enablement t = .ok (.enabled take) → (∀ u < t, ∃ w, c.enablement u = .ok (.disabled w)) →
      router c.net t c.marking = .ok s → c.net.LacksRoom c.limits.analysis c.marking t s p →
      OutOfRoom router c (.conflict (.countOverflow p))

/-! ## One step -/

/-- **What is enabled and suits the split fires, unless there is no room**; what may still fail is to settle the case. -/
theorem fire_of_suits (hc : c.Consistent) (hactive : c.state = .active) (hen : c.enablement t = .ok (.enabled take))
    (hs : s.Suits c.net t) (h : c.fire t s = (.error failure, d)) : (∃ cause, failure = .excess cause) ∨
      d = c ∧ ∃ p, failure = .conflict (.countOverflow p) ∧ c.net.LacksRoom c.limits.analysis c.marking t s p := by
  rcases Net.fire_or_lacksRoom hc.size hs hen with ⟨⟨f, m⟩, hfire⟩ | ⟨p, hfull⟩
  · rw [fire_of_ok hactive hfire] at h
    exact .inl (unsettled_of_settle h).2.cause
  · unfold fire tryFire at h
    rw [if_pos hactive, hfull.fails] at h
    cases h
    exact .inr ⟨rfl, p, rfl, hfull⟩

/-- **A step that nobody chooses for fails for want of room**, or because an analysis outgrew its limits. -/
theorem step_standard (hc : c.Consistent) (h : c.step Router.standard = (.error failure, d)) :
    (∃ cause, failure = .excess cause) ∨ d = c ∧ c.OutOfRoom Router.standard failure := by
  unfold step at h
  split at h
  · cases h
  rename_i hover
  have hactive := active_of_not_isTerminal hover
  split at h
  · rename_i hfirst
    cases h
    exact .inl (Net.excess_of_firstEnabled hfirst)
  · exact .inl (unsettled_of_settle h).2.cause
  · rename_i t take hfirst
    obtain ⟨hen, hbefore⟩ := Net.firstEnabled_eq_some_iff.1 hfirst
    have ht := Net.lt_of_mem_candidates (Net.mem_candidates_of_enabled hen)
    obtain ⟨s, hroute, hsuits⟩ := Router.standard_suits ht c.marking
    rw [hroute] at h
    dsimp only at h
    rcases hfire : c.fire t s with ⟨result, c'⟩
    rw [hfire] at h
    cases result with
    | ok f => cases h
    | error failure' =>
      cases h
      rcases fire_of_suits hc hactive hen hsuits hfire with hexcess | ⟨rfl, p, rfl, hfull⟩
      · exact .inl hexcess
      · exact .inr ⟨rfl, .of t take s p hactive hen hbefore hroute hfull⟩

/-! ## A whole run -/

theorem Stride.moves (h : c.Stride router f d) : c.Moves d := by
  have hmoves := moves_of_advances (advances_step c router)
  rwa [stride_iff.1 h] at hmoves

theorem Strides.moves {routing : Routing} (h : Strides routing fs c d) : c.Moves d := by
  induction h with
  | nil c => exact .refl c
  | cons hstride _ ih => exact hstride.moves.trans ih

theorem Consistent.run (hc : c.Consistent) (hrun : c.runWithPatience router patience = (result, d)) : d.Consistent := by
  have hmoves : c.Moves (c.runWithPatience router patience).2 :=
    moves_of_advances (advances_drive router.steady _ patience c)
  rw [hrun] at hmoves
  exact hmoves.keeps Move.consistent hc

/-- **A run that nobody chooses for fails as one of its steps does**, or because it is cut off by its limit. -/
theorem run_standard (hc : c.Consistent) (hrun : c.runWithPatience Router.standard patience = (.error failure, d)) :
    (∃ cause, failure = .excess cause) ∨ failure = .stepLimit c.limits.steps ∨
      d.OutOfRoom Router.standard failure ∧ ∃ fs, Strides Router.standard.steady fs c d := by
  obtain ⟨fs, e, hstrides, -, -, hend⟩ := runWithRouting_runsTo hrun
  generalize hresult : (.error failure : Except Failure Outcome) = r at hend
  rcases hend.answers (hc.run hrun) with ⟨-, o, -, ho⟩ | ⟨hactive, -⟩
  · cases hresult.trans ho
  cases hend with
  | rests _ hstep => exact absurd (isTerminal_of_step hstep).1 (not_isTerminal hactive)
  | cancelled => cases hactive.symm.trans e.state_cancel
  | cutOff =>
    cases hresult
    exact .inr (.inl (congrArg Failure.stepLimit (congrArg RunLimits.steps hstrides.limits_eq)))
  | failed _ _ hstep =>
    cases hresult
    rcases step_standard (hstrides.moves.keeps Move.consistent hc) hstep with hexcess | ⟨rfl, hroom⟩
    · exact .inl hexcess
    · exact .inr (.inr ⟨hroom, fs, hstrides⟩)

/-- **Nothing illegal is attempted when nobody chooses.**  If the choice is left to the standard router, every selection
passes the check, of any net, in any marking.  So whatever has happened to a case, a step fails because an analysis
outgrew its limits, or for want of room for a token, and then the case is as it was.  A run may be cut off by its limit as
well, and where there is no room, the case is as its last firing has left it. -/
theorem unattended {net : Net} {id : CaseId} {limits : RunLimits} {actions : List Action}
    (hrouter : router.LeavesToStandard) (hc : c = (launch net id limits).after actions) :
    (∀ (net' : Net), ∀ t < net'.transitions.length, ∀ m, ∃ s, router net' t m = .ok s ∧ s.check net' t = .ok ()) ∧
    (∀ failure d, c.step router = (.error failure, d) →
      (∃ cause, failure = .excess cause) ∨ d = c ∧ c.OutOfRoom router failure) ∧
    ∀ patience failure d, c.runWithPatience router patience = (.error failure, d) →
      (∃ cause, failure = .excess cause) ∨ failure = .stepLimit limits.steps ∨
        d.OutOfRoom router failure ∧ ∃ fs, Strides router.steady fs c d := by
  obtain rfl := hrouter.eq_standard
  obtain rfl : c.limits = limits := hc ▸ (moves_after (launch net id limits) actions).same.2.2
  have hconsistent : c.Consistent := hc ▸ consistent_after net id c.limits actions
  refine ⟨fun net' t ht m => ?_, fun failure d => step_standard hconsistent, fun patience failure d =>
    run_standard hconsistent⟩
  obtain ⟨s, hs, hsuits⟩ := Router.standard_suits ht m
  exact ⟨s, hs, Selection.check_ok_iff.2 hsuits⟩

/-- The choice for `t` is left to the standard router by name, and all others by default. -/
def standardTable : RoutingTable := { routes := [("t", Router.standard)] }

/-- `a` fires, and then `y` has no room for the token that `t` is to put there. -/
theorem refill_unattended : ∃ d : Case,
    ((launch Net.refill 1 {}).after [.restore (TokenMap.ofList [("i", 1), ("y", 4294967295)])]).run
      standardTable.toRouter = (.error (.conflict (.countOverflow 2)), d) ∧
    d.OutOfRoom standardTable.toRouter (.conflict (.countOverflow 2)) ∧ d.steps = 1 ∧
    d.marking = ⟨[0, 1, 4294967295, 0]⟩ ∧ d.step standardTable.toRouter = (.error (.conflict (.countOverflow 2)), d) := by
  have hstandard : standardTable.toRouter.LeavesToStandard :=
    .table (List.forall_mem_singleton.2 .standard) .standard
  have hrun : ((launch Net.refill 1 {}).after [.restore (TokenMap.ofList [("i", 1), ("y", 4294967295)])]).run
      standardTable.toRouter = (.error (.conflict (.countOverflow 2)),
        ((launch Net.refill 1 {}).after [.restore (TokenMap.ofList [("i", 1), ("y", 4294967295)])]).record
          (.ofParts 0 [0] [1] []) ⟨[0, 1, 4294967295, 0]⟩) := rfl
  obtain ⟨-, -, hruns⟩ := unattended hstandard
    (c := (launch Net.refill 1 {}).after [.restore (TokenMap.ofList [("i", 1), ("y", 4294967295)])]) rfl
  rcases hruns none _ _ hrun with ⟨cause, hcause⟩ | hlimit | ⟨hroom, -⟩
  · cases hcause
  · cases hlimit
  · exact ⟨_, hrun, hroom, rfl, rfl, rfl⟩

end Case

end Workflow
