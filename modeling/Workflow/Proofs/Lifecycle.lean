import Workflow.Case.Moves
import Workflow.Proofs.Firing
/-!
# Lifecycle — the state of a case tells the truth about its marking

The state and the marking of a case are kept in step by separate operations, and an operation may fail after it has
changed the one and before it has derived the other.  Whatever has happened, the two agree (`Consistent`): each move
keeps that (`Move.consistent`), hence every history does (`state_agrees_after`).
-/
namespace Workflow

/-! ## Markings of the length of the net -/

namespace Marking

variable {net : Net}

theorem size_initial (net : Net) : (initial net).size = net.places.length := by
  unfold initial size
  rw [List.length_set, List.length_replicate]

theorem size_setNamed : ∀ {es : List (String × UInt32)} {m m' : Marking}, setNamed net es m = .ok m' →
    m'.size = m.size
  | [], m, m', h => by
    cases h
    rfl
  | (name, n) :: es, m, m', h => by
    unfold setNamed at h
    split at h
    · cases h
    · rename_i p hp
      rw [size_setNamed h]
      exact List.length_set

theorem size_ofTokenMap {d : TokenMap} {m : Marking} (h : ofTokenMap net d = .ok m) : m.size = net.places.length := by
  rw [size_setNamed h]
  exact List.length_replicate

theorem size_clear (m : Marking) : m.clear.size = m.size := by
  unfold clear size
  rw [List.length_map]

theorem isEmpty_clear (m : Marking) : m.clear.isEmpty = true := by
  simp [isEmpty, clear]

end Marking

/-- Firing, stepping and running, as opposed to what is done to a case from outside. -/
def Action.advances : Action → Bool
  | .fire _ _ | .fireNamed _ _ | .step _ | .run _ _ => true
  | .cancel | .restore _ => false

namespace Case

variable {c c' d : Case} {α : Type}

/-- The marking of a case has a count for each place, and it is as the state says. -/
structure Consistent (c : Case) : Prop where
  size : c.marking.size = c.net.places.length
  cancelled : c.state = .cancelled → c.marking.isEmpty = true
  completed : c.state = .completed → c.marking.isMarked c.net.sink = true ∧ c.enabledTransitions = .ok []
  deadlocked : c.state = .deadlocked → c.marking.isMarked c.net.sink = false ∧ c.enabledTransitions = .ok []

/-- Some transition is enabled, and it is known. -/
def CanFire (c : Case) : Prop := ∃ t ts, c.enabledTransitions = .ok (t :: ts)

/-! ## Settling -/

/-- **What settling finds**: a case that is over stays as it is, and an active one is over once nothing is enabled. -/
theorem settledState_ok {s : CaseState} (h : c.settledState = .ok s) :
    (c.state ≠ .active ∧ s = c.state) ∨ (c.CanFire ∧ s = .active) ∨
      (c.enabledTransitions = .ok [] ∧ s = if c.marking.isMarked c.net.sink then .completed else .deadlocked) := by
  unfold settledState at h
  split at h
  · split at h
    · cases h
    · rename_i hnone
      cases h
      exact .inr (.inr ⟨hnone, rfl⟩)
    · rename_i t ts hsome
      cases h
      exact .inr (.inl ⟨⟨t, ts, hsome⟩, rfl⟩)
  · rename_i hstate
    cases h
    exact .inl ⟨hstate, rfl⟩

theorem settle_ok {a b : α} (h : c.settle a = (.ok b, d)) :
    ∃ s, c.settledState = .ok s ∧ d = { c with state := s } := by
  unfold settle at h
  split at h
  · cases h
  · rename_i s hs
    cases h
    exact ⟨s, hs, rfl⟩

/-- A case that has been settled and is still active goes on. -/
theorem canFire_of_settle {a b : α} (h : c.settle a = (.ok b, d)) (hd : d.state = .active) : d.CanFire := by
  obtain ⟨s, hs, rfl⟩ := settle_ok h
  rcases settledState_ok hs with ⟨hne, rfl⟩ | ⟨hfire, -⟩ | ⟨-, rfl⟩
  · exact absurd hd hne
  · exact hfire
  · dsimp only at hd
    split at hd <;> cases hd

/-! ## One move keeps a case consistent -/

theorem Move.consistent (h : c.Move d) (hc : c.Consistent) : d.Consistent := by
  cases h with
  | fire hactive hfire =>
    obtain ⟨-, -, -, hsize, -⟩ := Net.fire_ok hfire
    have hover : ∀ s, s ≠ .active → c.state ≠ s := fun s hs h => hs (h.symm.trans hactive)
    exact ⟨hsize.trans hc.size, fun h => absurd h (hover _ nofun), fun h => absurd h (hover _ nofun),
      fun h => absurd h (hover _ nofun)⟩
  | settle hs =>
    rcases settledState_ok hs with ⟨-, rfl⟩ | ⟨-, rfl⟩ | ⟨hnone, rfl⟩
    · exact hc
    · exact ⟨hc.size, nofun, nofun, nofun⟩
    · by_cases hsink : c.marking.isMarked c.net.sink = true
      · simp only [hsink, if_true]
        exact ⟨hc.size, nofun, fun _ => ⟨hsink, hnone⟩, nofun⟩
      · simp only [hsink]
        exact ⟨hc.size, nofun, nofun, fun _ => ⟨Bool.eq_false_iff.2 hsink, hnone⟩⟩
  | cancel hne =>
    rw [cancel_eq hne]
    exact ⟨(Marking.size_clear _).trans hc.size, fun _ => Marking.isEmpty_clear _, nofun, nofun⟩
  | restore hm => exact ⟨Marking.size_ofTokenMap hm, nofun, nofun, nofun⟩

theorem consistent_launch (net : Net) (id : CaseId) (limits : RunLimits) : (launch net id limits).Consistent :=
  ⟨Marking.size_initial net, nofun, nofun, nofun⟩

/-- **Any history leaves a case consistent.** -/
theorem consistent_after (net : Net) (id : CaseId) (limits : RunLimits) (actions : List Action) :
    ((launch net id limits).after actions).Consistent :=
  (moves_after _ actions).keeps Move.consistent (consistent_launch net id limits)

/-! ## What an answer says about the case -/

theorem canFire_of_fire {t : TransitionId} {s : Selection} {f : Firing} (h : c.fire t s = (.ok f, d))
    (hd : d.state = .active) : d.CanFire := by
  unfold fire at h
  split at h
  · cases h
  · exact canFire_of_settle h hd

theorem canFire_of_fireNamed {transition : String} {places : List String} {f : Firing}
    (h : c.fireNamed transition places = (.ok f, d)) (hd : d.state = .active) : d.CanFire := by
  unfold fireNamed at h
  split at h
  · cases h
  · split at h
    · cases h
    · exact canFire_of_fire h hd

theorem canFire_of_step {router : Router} {o : Option Firing} (h : c.step router = (.ok o, d))
    (hd : d.state = .active) : d.CanFire := by
  unfold step at h
  split at h
  · rename_i hover
    cases h
    rw [CaseState.isTerminal, hd] at hover
    cases hover
  · split at h
    · cases h
    · exact canFire_of_settle h hd
    · split at h
      · cases h
      · rename_i t _ _ _ s _
        rcases hfire : c.fire t s with ⟨result, c'⟩
        rw [hfire] at h
        cases result with
        | error failure => cases h
        | ok f =>
          cases h
          exact canFire_of_fire hfire hd

theorem canFire_of_restore {tokens : TokenMap} (h : c.restore tokens = (.ok (), d)) (hd : d.state = .active) :
    d.CanFire := by
  unfold restore at h
  split at h
  · cases h
  · exact canFire_of_settle h hd

/-- **A run that does not fail answers with the outcome of the case**, which it has cancelled or left after a step that
did not fail. -/
theorem drive_ok {o : Outcome} : ∀ {routing : Routing} {left : Nat} {patience : Option Nat} {c : Case},
    drive routing left patience c = (.ok o, d) → d.outcome = .ok o ∧
      ((∃ e : Case, d = e.cancel) ∨ ∃ (router : Router) (e : Case) (r : Option Firing), e.step router = (.ok r, d))
  | routing, left, patience, c, h => by
    unfold drive at h
    split at h
    · obtain ⟨ho, rfl⟩ := Prod.mk.inj h
      exact ⟨ho, .inl ⟨c, rfl⟩⟩
    · split at h
      · cases h
      · rename_i c' hstep
        obtain ⟨ho, rfl⟩ := Prod.mk.inj h
        exact ⟨ho, .inr ⟨routing 0, c, none, hstep⟩⟩
      · rename_i f c' hstep
        split at h
        · exact drive_ok h
        · split at h
          · cases h
          · cases h
          · obtain ⟨ho, rfl⟩ := Prod.mk.inj h
            exact ⟨ho, .inr ⟨routing 0, c, some f, hstep⟩⟩

theorem state_cancel (c : Case) : c.cancel.state = .cancelled := by
  unfold cancel
  split
  · rename_i h
    exact h
  · rfl

theorem canFire_of_run {router : Router} {patience : Option Nat} {o : Outcome}
    (h : c.runWithPatience router patience = (.ok o, d)) (hd : d.state = .active) : d.CanFire := by
  obtain ⟨-, ⟨e, rfl⟩ | ⟨router, e, r, hstep⟩⟩ := drive_ok h
  · rw [state_cancel] at hd
    cases hd
  · exact canFire_of_step hstep hd

theorem exists_ok_of_ne_failed {answer : α → Answer} {r : Except Failure α × Case}
    (h : ∀ failure, (Answer.of answer r).1 ≠ .failed failure) : ∃ a, r = (.ok a, (Answer.of answer r).2) := by
  obtain ⟨result, d⟩ := r
  cases result with
  | error failure => exact absurd rfl (h failure)
  | ok a => exact ⟨a, rfl⟩

/-- **Whoever gets an answer from a case that is still active knows that it can go on.** -/
theorem canFire_of_act (c : Case) (a : Action) (h : ∀ failure, (c.act a).1 ≠ .failed failure)
    (hd : (c.act a).2.state = .active) : (c.act a).2.CanFire := by
  cases a with
  | fire t s =>
    obtain ⟨f, hf⟩ := exists_ok_of_ne_failed h
    exact canFire_of_fire hf hd
  | fireNamed transition places =>
    obtain ⟨f, hf⟩ := exists_ok_of_ne_failed h
    exact canFire_of_fireNamed hf hd
  | step router =>
    obtain ⟨o, ho⟩ := exists_ok_of_ne_failed h
    exact canFire_of_step ho hd
  | run router patience =>
    obtain ⟨o, ho⟩ := exists_ok_of_ne_failed h
    exact canFire_of_run ho hd
  | cancel =>
    rw [act, state_cancel] at hd
    cases hd
  | restore tokens =>
    obtain ⟨u, hu⟩ := exists_ok_of_ne_failed h
    exact canFire_of_restore hu hd

/-! ## A case that is over -/

theorem fire_of_isTerminal (h : c.state.isTerminal = true) (t : TransitionId) (s : Selection) : (c.fire t s).2 = c := by
  have hne : c.state ≠ .active := by simpa [CaseState.isTerminal] using h
  unfold fire tryFire
  rw [if_neg hne]

theorem step_of_isTerminal (h : c.state.isTerminal = true) (router : Router) : c.step router = (.ok none, c) := by
  unfold step
  rw [if_pos h]

theorem run_of_isTerminal (h : c.state.isTerminal = true) (routing : Routing) (patience : Option Nat) :
    (c.runWithRouting routing patience).2 = c := by
  unfold runWithRouting drive
  rw [h, step_of_isTerminal h]
  rfl

/-- **Only cancelling and restoring get at a case that is over.** -/
theorem act_of_isTerminal {a : Action} (h : c.state.isTerminal = true) (ha : a.advances = true) : (c.act a).2 = c := by
  cases a with
  | fire t s =>
    rw [act, snd_of]
    exact fire_of_isTerminal h t s
  | fireNamed transition places =>
    rw [act, snd_of, fireNamed]
    split
    · rfl
    · split
      · rfl
      · exact fire_of_isTerminal h _ _
  | step router => rw [act, snd_of, step_of_isTerminal h]
  | run router patience =>
    rw [act, snd_of]
    exact run_of_isTerminal h router.steady patience
  | cancel => cases ha
  | restore tokens => cases ha

/-! ## Any history -/

/-- **State and marking agree after any history**, failed actions included.  A case that is over stays as it is under
all that advances a case, and a case that is still active after an action that did not fail can fire. -/
theorem state_agrees_after {net : Net} {id : CaseId} {limits : RunLimits} {actions : List Action}
    (hc : c = (launch net id limits).after actions) : c.net = net ∧ c.limits = limits ∧ c.Consistent ∧
      (c.state.isTerminal = true → ∀ a : Action, a.advances = true → (c.act a).2 = c) ∧
      ∀ a : Action, (∀ failure, (c.act a).1 ≠ .failed failure) → (c.act a).2.state = .active → (c.act a).2.CanFire := by
  subst hc
  obtain ⟨-, hnet, hlimits⟩ := (moves_after (launch net id limits) actions).same
  exact ⟨hnet, hlimits, consistent_after net id limits actions, fun hover a ha => act_of_isTerminal hover ha,
    canFire_of_act _⟩

/-- A token that goes round by `j` alone is stuck before the AND-join `b`. -/
def detour : Net where
  places := [⟨"i", .source⟩, ⟨"x", .internal⟩, ⟨"v", .internal⟩, ⟨"y", .internal⟩, ⟨"o", .sink⟩]
  transitions := [⟨"a", .xor, .or⟩, ⟨"j", .or, .xor⟩, ⟨"b", .and, .and⟩]
  arcs := [⟨0, 0, .input⟩, ⟨1, 0, .output⟩, ⟨2, 0, .output⟩, ⟨1, 1, .input⟩, ⟨2, 1, .input⟩, ⟨3, 1, .output⟩,
    ⟨4, 1, .output⟩, ⟨1, 2, .input⟩, ⟨3, 2, .input⟩, ⟨4, 2, .output⟩]
  source := 0
  sink := 4

/-- Two firings on, nothing is enabled and the case stays where it is; restored to its start, it can go on. -/
theorem detour_state_agrees :
    ((launch detour 1 {}).after [.fire 0 (.single 2), .fire 1 (.single 3)]).state = .deadlocked ∧
    ((launch detour 1 {}).after [.fire 0 (.single 2), .fire 1 (.single 3)]).enabledTransitions = .ok [] ∧
    ((launch detour 1 {}).after [.fire 0 (.single 2), .fire 1 (.single 3), .run Router.standard none]).steps = 2 ∧
    ((launch detour 1 {}).after
      [.fire 0 (.single 2), .fire 1 (.single 3), .restore (TokenMap.ofList [("i", 1)])]).CanFire := by
  obtain ⟨-, -, hconsistent, hover, hlive⟩ :=
    state_agrees_after (c := (launch detour 1 {}).after [.fire 0 (.single 2), .fire 1 (.single 3)]) rfl
  have hstate : ((launch detour 1 {}).after [.fire 0 (.single 2), .fire 1 (.single 3)]).state = .deadlocked := rfl
  refine ⟨hstate, (hconsistent.deadlocked hstate).2, ?_, hlive (.restore (TokenMap.ofList [("i", 1)])) ?_ rfl⟩
  · exact congrArg Case.steps (hover rfl (.run Router.standard none) rfl)
  · exact nofun

end Case

end Workflow
