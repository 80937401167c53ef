import Workflow.Case.Stride
import Workflow.Proofs.Persistence
import Workflow.Proofs.Scan
/-!
# Aftermath — what a failed action leaves behind

An action on a case fails before it has changed anything, or after it has changed everything it is there to change: only
settling comes after a change, and what can fail in it is the analysis of the new marking.  So the case is as it was
found, or it has its one firing entered, or its marking restored, and is active because nothing more is known of it
(`failed_act`).
-/
namespace Workflow

/-! ## Why settling fails -/

namespace Net

variable {net : Net} {limits : AnalysisLimits} {m : Marking} {t : TransitionId} {failure : Failure}

/-- Whether a transition of the net is enabled can always be told, within wide enough limits. -/
theorem excess_of_enablement_of_lt (ht : t < net.transitions.length)
    (h : net.enablement limits m t = .error failure) : ∃ cause, failure = .excess cause := by
  have hnever (hdecided : ∃ e, net.enablement limits m t = .ok e ∧ net.Decides limits m t e) :
      ∃ cause, failure = .excess cause := by
    obtain ⟨e, he, -⟩ := hdecided
    cases he.symm.trans h
  cases hjoin : (net.transitions[t]?).map Transition.join with
  | none =>
    rw [List.getElem?_eq_getElem ht] at hjoin
    cases hjoin
  | some join =>
    cases join with
    | and => exact hnever (exists_decides_and hjoin)
    | xor => exact hnever (exists_decides_xor hjoin)
    | or => exact excess_of_enablement hjoin h

theorem excess_of_enabledTransitions (h : net.enabledTransitions limits m = .error failure) :
    ∃ cause, failure = .excess cause := by
  unfold enabledTransitions at h
  cases hl : net.evaluations limits m with
  | ok l =>
    rw [hl] at h
    cases h
  | error failure' =>
    rw [hl] at h
    cases h
    obtain ⟨t, ht, hfailed⟩ := exists_error_of_mapM hl
    cases he : net.enablement limits m t with
    | ok e =>
      rw [he] at hfailed
      cases hfailed
    | error failure' =>
      rw [he] at hfailed
      cases hfailed
      exact excess_of_enablement_of_lt (lt_of_mem_candidates ht) he

end Net

namespace Case

variable {c d : Case} {router : Router} {t : TransitionId} {s : Selection} {f : Firing} {m : Marking}
  {failure : Failure} {α : Type} {a : α}

theorem settle_cases (c : Case) (a : α) :
    (∃ state, c.settledState = .ok state ∧ c.settle a = (.ok a, { c with state })) ∨
      (c.state = .active ∧ ∃ failure, c.enabledTransitions = .error failure ∧ c.settle a = (.error failure, c)) := by
  unfold settle
  cases hs : c.settledState with
  | ok state => exact .inl ⟨state, rfl, rfl⟩
  | error failure =>
    unfold settledState at hs
    split at hs
    · rename_i hactive
      split at hs
      · rename_i hen
        cases hs
        exact .inr ⟨hactive, failure, hen, rfl⟩
      · cases hs
      · cases hs
    · cases hs

/-- **Only the analysis of the marking can fail in a settling**, and then nothing has been settled. -/
theorem settle_error (h : c.settle a = (.error failure, d)) :
    d = c ∧ c.state = .active ∧ c.enabledTransitions = .error failure := by
  rcases settle_cases c a with ⟨state, -, hok⟩ | ⟨hactive, failure', hen, herror⟩
  · cases hok.symm.trans h
  · cases herror.symm.trans h
    exact ⟨rfl, hactive, hen⟩

/-! ## What a step does -/

theorem active_of_not_isTerminal (h : c.state.isTerminal ≠ true) : c.state = .active := by
  simpa [CaseState.isTerminal] using h

theorem not_isTerminal (h : c.state = .active) : c.state.isTerminal ≠ true := by
  rw [h]
  decide

/-- The next firing is the one that a step finds. -/
theorem nextFiring_iff : c.NextFiring router f m ↔ c.state = .active ∧ ∃ t take s,
    c.firstEnabled = .ok (some (t, take)) ∧ router c.net t c.marking = .ok s ∧
      c.net.fire c.limits.analysis c.marking t s = .ok (f, m) := by
  constructor
  · rintro ⟨t, take, s, hactive, hen, hbefore, hroute, hfire⟩
    exact ⟨hactive, t, take, s, Net.firstEnabled_eq_some_iff.2 ⟨hen, hbefore⟩, hroute, hfire⟩
  · rintro ⟨hactive, t, take, s, hfirst, hroute, hfire⟩
    obtain ⟨hen, hbefore⟩ := Net.firstEnabled_eq_some_iff.1 hfirst
    exact ⟨t, take, s, hactive, hen, hbefore, hroute, hfire⟩

theorem fire_of_ok (hactive : c.state = .active) (hfire : c.net.fire c.limits.analysis c.marking t s = .ok (f, m)) :
    c.fire t s = (c.record f m).settle f := by
  unfold fire tryFire
  rw [if_pos hactive, hfire]

theorem fire_cases (c : Case) (t : TransitionId) (s : Selection) :
    (∃ failure, c.tryFire t s = .error failure ∧ c.fire t s = (.error failure, c)) ∨
      c.state = .active ∧ ∃ f m, c.net.fire c.limits.analysis c.marking t s = .ok (f, m) ∧
        c.fire t s = (c.record f m).settle f := by
  cases htry : c.tryFire t s with
  | error failure =>
    refine .inl ⟨failure, rfl, ?_⟩
    unfold fire
    rw [htry]
  | ok r =>
    obtain ⟨f, m⟩ := r
    unfold tryFire at htry
    split at htry
    · rename_i hactive
      exact .inr ⟨hactive, f, m, htry, fire_of_ok hactive htry⟩
    · cases htry

/-- **What a step does.**  A case that is over stays as it is, one in which nothing is enabled is over, and otherwise the
step fails before it has changed anything, or makes the next firing and settles the case. -/
theorem stepsTo (router : Router) (c : Case) : c.StepsTo router (c.step router).1 (c.step router).2 := by
  by_cases hover : c.state.isTerminal = true
  · rw [step_of_isTerminal hover]
    exact .ended hover
  have hactive := active_of_not_isTerminal hover
  unfold step
  rw [if_neg hover]
  cases hfirst : c.firstEnabled with
  | error failure => exact .refused hactive
  | ok first =>
    cases first with
    | none =>
      have hnone : c.enabledTransitions = .ok [] := Net.firstEnabled_eq_none_iff.1 hfirst
      have hsettle : c.settle (none : Option Firing) =
          (.ok none, { c with state := if c.marking.isMarked c.net.sink then .completed else .deadlocked }) := by
        unfold settle settledState
        rw [hactive, hnone]
      rw [hsettle]
      refine .rests hactive hnone ?_
      split <;> rfl
    | some first =>
      obtain ⟨t, take⟩ := first
      dsimp only
      cases hroute : router c.net t c.marking with
      | error failure => exact .refused hactive
      | ok s =>
        dsimp only
        rcases fire_cases c t s with ⟨failure, -, hfailed⟩ | ⟨-, f, m, hfire, hsettle⟩
        · rw [hfailed]
          exact .refused hactive
        · have hnext : c.NextFiring router f m := nextFiring_iff.2 ⟨hactive, t, take, s, hfirst, hroute, hfire⟩
          rw [hsettle]
          rcases settle_cases (c.record f m) f with ⟨state, hstate, hok⟩ | ⟨-, failure, hen, herror⟩
          · rw [hok]
            exact .fires hnext hstate
          · rw [herror]
            exact .unsettled hnext hen

theorem stepsTo_of_step {r : Except Failure (Option Firing)} (h : c.step router = (r, d)) : c.StepsTo router r d := by
  have hsteps := stepsTo router c
  rwa [h] at hsteps

/-! ## What a failed action leaves -/

/-- The case had a change made to it in full, and then was not settled, since the analysis of its new marking failed. -/
structure Unsettled (d : Case) (failure : Failure) : Prop where
  cause : ∃ cause, failure = .excess cause
  analysis : d.enabledTransitions = .error failure
  active : d.state = .active

theorem unsettled_of_settle (h : c.settle a = (.error failure, d)) : d = c ∧ d.Unsettled failure := by
  obtain ⟨rfl, hactive, hen⟩ := settle_error h
  exact ⟨rfl, Net.excess_of_enabledTransitions hen, hen, hactive⟩

theorem fire_error (h : c.fire t s = (.error failure, d)) : d = c ∨ d.Unsettled failure ∧ c.state = .active ∧
    ∃ f m, c.net.fire c.limits.analysis c.marking t s = .ok (f, m) ∧ d = c.record f m := by
  rcases fire_cases c t s with ⟨failure', -, hfailed⟩ | ⟨hactive, f, m, hfire, hsettle⟩
  · cases hfailed.symm.trans h
    exact .inl rfl
  · obtain ⟨rfl, hunsettled⟩ := unsettled_of_settle (hsettle.symm.trans h)
    exact .inr ⟨hunsettled, hactive, f, m, hfire, rfl⟩

theorem step_error (h : c.step router = (.error failure, d)) :
    d = c ∨ d.Unsettled failure ∧ ∃ f m, c.NextFiring router f m ∧ d = c.record f m := by
  cases stepsTo_of_step h with
  | refused => exact .inl rfl
  | unsettled hnext hen =>
    exact .inr ⟨⟨Net.excess_of_enabledTransitions hen, hen, (nextFiring_iff.1 hnext).1⟩, _, _, hnext, rfl⟩

theorem fireNamed_error {transition : String} {places : List String}
    (h : c.fireNamed transition places = (.error failure, d)) : d = c ∨ d.Unsettled failure ∧ c.state = .active ∧
      ∃ t s f m, c.net.transitionId? transition = some t ∧ Selection.ofNames c.net places = .ok s ∧
        c.net.fire c.limits.analysis c.marking t s = .ok (f, m) ∧ d = c.record f m := by
  unfold fireNamed at h
  split at h
  · cases h
    exact .inl rfl
  · rename_i t ht
    split at h
    · cases h
      exact .inl rfl
    · rename_i s hs
      rcases fire_error h with hsame | ⟨hunsettled, hactive, f, m, hfire, hd⟩
      · exact .inl hsame
      · exact .inr ⟨hunsettled, hactive, t, s, f, m, ht, hs, hfire, hd⟩

theorem restore_error {tokens : TokenMap} (h : c.restore tokens = (.error failure, d)) :
    d = c ∨ d.Unsettled failure ∧ ∃ m, Marking.ofTokenMap c.net tokens = .ok m ∧
      d = { c with marking := m, state := .active, changes := c.changes.push .restore } := by
  unfold restore at h
  split at h
  · cases h
    exact .inl rfl
  · rename_i m hm
    obtain ⟨rfl, hunsettled⟩ := unsettled_of_settle h
    exact .inr ⟨hunsettled, m, hm, rfl⟩

theorem error_of_failed {answer : α → Answer} (hanswer : ∀ a failure, answer a ≠ .failed failure)
    {r : Except Failure α × Case} (h : Answer.of answer r = (.failed failure, d)) : r = (.error failure, d) := by
  obtain ⟨result, c⟩ := r
  cases result with
  | ok a => exact absurd (congrArg Prod.fst h) (hanswer a failure)
  | error failure' =>
    cases h
    rfl

/-- `f` is the one firing that the action asks of the case, and `m` the marking it leads to. -/
def AsksFor (c : Case) : Action → Firing → Marking → Prop
  | .fire t s, f, m => c.state = .active ∧ c.net.fire c.limits.analysis c.marking t s = .ok (f, m)
  | .fireNamed transition places, f, m => c.state = .active ∧ ∃ t s, c.net.transitionId? transition = some t ∧
      Selection.ofNames c.net places = .ok s ∧ c.net.fire c.limits.analysis c.marking t s = .ok (f, m)
  | .step router, f, m => c.NextFiring router f m
  | _, _, _ => False

/-- **A failed action leaves nothing half done.**  Runs apart, an action that fails has changed nothing at all; or its
change is there in full, the one firing with its marking, its step and its entries in the log, or the marking that was
read back with the one entry for it, and what failed is the analysis of the new marking, which outgrew its limits, so
that the case is still active. -/
theorem failed_act {action : Action} (h : c.act action = (.failed failure, d))
    (hsingle : ∀ router patience, action ≠ .run router patience) :
    d = c ∨
      ((∃ cause, failure = .excess cause) ∧ d.enabledTransitions = .error failure ∧ d.state = .active) ∧
        ((∃ f m, c.AsksFor action f m ∧
            d = { c with marking := m, steps := c.steps + 1, changes := c.changes ++ f.changes }) ∨
          ∃ tokens m, action = .restore tokens ∧ Marking.ofTokenMap c.net tokens = .ok m ∧
            d = { c with marking := m, state := .active, changes := c.changes.push .restore }) := by
  cases action with
  | fire t s =>
    refine (fire_error (error_of_failed nofun h)).imp_right ?_
    rintro ⟨hunsettled, hactive, f, m, hfire, hd⟩
    exact ⟨⟨hunsettled.cause, hunsettled.analysis, hunsettled.active⟩, .inl ⟨f, m, ⟨hactive, hfire⟩, hd⟩⟩
  | fireNamed transition places =>
    refine (fireNamed_error (error_of_failed nofun h)).imp_right ?_
    rintro ⟨hunsettled, hactive, t, s, f, m, ht, hs, hfire, hd⟩
    exact ⟨⟨hunsettled.cause, hunsettled.analysis, hunsettled.active⟩,
      .inl ⟨f, m, ⟨hactive, t, s, ht, hs, hfire⟩, hd⟩⟩
  | step router =>
    have hanswer : ∀ (o : Option Firing) failure, Option.elim o .idle .fired ≠ Answer.failed failure := by
      rintro (_ | f) failure <;> exact nofun
    refine (step_error (error_of_failed hanswer h)).imp_right ?_
    rintro ⟨hunsettled, f, m, hnext, hd⟩
    exact ⟨⟨hunsettled.cause, hunsettled.analysis, hunsettled.active⟩, .inl ⟨f, m, hnext, hd⟩⟩
  | run router patience => exact absurd rfl (hsingle router patience)
  | cancel => cases h
  | restore tokens =>
    refine (restore_error (error_of_failed nofun h)).imp_right ?_
    rintro ⟨hunsettled, m, hm, hd⟩
    exact ⟨⟨hunsettled.cause, hunsettled.analysis, hunsettled.active⟩, .inr ⟨tokens, m, rfl, hm, hd⟩⟩

/-- The limits are too narrow for the OR-split. -/
def narrowDetour : Case := launch detour 1 { analysis := { branches := 1 } }

/-- The analysis of `j` gives up as soon as one of its input places is marked.  The firing stands, and so does the
marking that is read back after it; what is not enabled leaves no trace. -/
theorem detour_unsettled : ∃ d e : Case,
    narrowDetour.act (.step (.always (.single 2))) = (.failed (.excess (.finishes "a" 2 1)), d) ∧
    d.enabledTransitions = .error (.excess (.finishes "a" 2 1)) ∧ d.steps = 1 ∧ d.marking = ⟨[0, 0, 1, 0, 0]⟩ ∧
    d.act (.restore (TokenMap.ofList [("x", 1)])) = (.failed (.excess (.finishes "a" 2 1)), e) ∧
    e.enabledTransitions = .error (.excess (.finishes "a" 2 1)) ∧ e.steps = 1 ∧ e.marking = ⟨[0, 1, 0, 0, 0]⟩ ∧
    e.act (.fireNamed "b" ["o"]) = (.failed (.conflict (.notEnabled "b")), e) := by
  have hstep : narrowDetour.act (.step (.always (.single 2))) = (.failed (.excess (.finishes "a" 2 1)),
      narrowDetour.record (.ofParts 0 [0] [2] []) ⟨[0, 0, 1, 0, 0]⟩) := rfl
  have hrestore : (narrowDetour.record (.ofParts 0 [0] [2] []) ⟨[0, 0, 1, 0, 0]⟩).act
      (.restore (TokenMap.ofList [("x", 1)])) = (.failed (.excess (.finishes "a" 2 1)),
      { narrowDetour with marking := ⟨[0, 1, 0, 0, 0]⟩, steps := 1,
                          changes := #[.consume 0 0, .produce 2 0, .restore] }) := rfl
  refine ⟨_, _, hstep, ?_, rfl, rfl, hrestore, ?_, rfl, rfl, rfl⟩
  · rcases failed_act hstep (fun _ _ => nofun) with hsame | ⟨⟨-, hfired, -⟩, -⟩
    · cases congrArg Case.steps hsame
    · exact hfired
  · rcases failed_act hrestore (fun _ _ => nofun) with hsame | ⟨⟨-, hrestored, -⟩, -⟩
    · cases congrArg (fun c => c.changes.size) hsame
    · exact hrestored

end Case

end Workflow
