import Workflow.Proofs.RoundTrip
import Workflow.Proofs.Setting
/-!
# Restoring — a saved case is carried on by any other

Only the marking of a case is saved, not its state.  That is enough: the state of a case agrees with its marking
whatever has happened to it, so the case that takes the marking over derives the same state again, unless the saved one
had been cancelled.  From then on nothing tells the two cases apart but their numbers and their past
(`restored_goes_on`).
-/
namespace Workflow

theorem Marking.isMarked_of_isEmpty {m : Marking} (h : m.isEmpty = true) (p : PlaceId) : m.isMarked p = false := by
  unfold isMarked count
  cases hp : m.counts[p]? with
  | none => rfl
  | some n =>
    have hzero := List.all_eq_true.1 h n (List.mem_of_getElem? hp)
    rw [eq_of_beq hzero]
    rfl

/-! ## Replies without a name on them -/

/-- What a case reports, without its number and the steps it has taken. -/
def Outcome.anonymous (o : Outcome) : Outcome := { o with case := 0, steps := 0 }

/-- A reply, without the number of the case and the steps it has taken. -/
def Reply.anonymous : Reply → Reply
  | .answer (.rests o) => .answer (.rests o.anonymous)
  | .answer (.failed (.conflict (.caseOver _ state))) => .answer (.failed (.conflict (.caseOver 0 state)))
  | .finding (.outcome o) => .finding (.outcome o.anonymous)
  | r => r

theorem Reply.Alike.anonymous_eq {i : CaseId} {s : Setting} {r r' : Reply} (h : Reply.Alike i s r r') :
    r.anonymous = r'.anonymous := by
  cases h <;> rfl

namespace Case

/-- Nothing tells the two cases apart from now on but their numbers, and what they had counted and logged before. -/
def SameSequel (c d : Case) : Prop :=
  ∀ turns : List Turn, (c.replies turns).map Reply.anonymous = (d.replies turns).map Reply.anonymous ∧
    (c.afterTurns turns).marking = (d.afterTurns turns).marking ∧
    (c.afterTurns turns).state = (d.afterTurns turns).state ∧
    ∃ (n : Nat) (log : Array Change),
      ((c.afterTurns turns).steps = c.steps + n ∧ (c.afterTurns turns).changes = c.changes ++ log) ∧
      (d.afterTurns turns).steps = d.steps + n ∧ (d.afterTurns turns).changes = d.changes ++ log

variable {c d : Case}

/-- The case without number and past. -/
def bare (c : Case) : Case := { c with id := 0, steps := 0, changes := #[] }

/-- Number and past of a case. -/
def setting (c : Case) : Setting := ⟨c.id, c.steps, c.changes, c.limits.analysis⟩

theorem bare_inSetting (c : Case) : c.bare.inSetting c.setting = c := by
  unfold inSetting bare setting
  rw [Array.append_empty, Nat.add_zero]

theorem bare_eq (hnet : c.net = d.net) (hlimits : c.limits = d.limits) (hmarking : c.marking = d.marking)
    (hstate : c.state = d.state) : c.bare = d.bare := by
  unfold bare
  rw [hnet, hlimits, hmarking, hstate]

/-- Any dialogue with a case is one with the bare case. -/
theorem replies_bare (c : Case) (turns : List Turn) :
    (c.replies turns).map Reply.anonymous = (c.bare.replies turns).map Reply.anonymous ∧
      c.afterTurns turns = (c.bare.afterTurns turns).inSetting c.setting := by
  have hwithin : c.bare.limits.analysis.Within c.setting.analysis := ⟨Nat.le_refl _, Nat.le_refl _, Nat.le_refl _⟩
  rcases replies_inSetting turns hwithin with ⟨hne, -⟩ | ⟨hreplies, hend⟩
  · exact absurd rfl hne
  · rw [bare_inSetting] at hreplies hend
    have hanonymous : List.Forall₂ (fun r r' => r.anonymous = r'.anonymous) (c.bare.replies turns) (c.replies turns) :=
      hreplies.imp fun _ _ halike => halike.anonymous_eq
    refine ⟨?_, hend⟩
    exact (List.forall₂_eq_eq_eq ▸ List.forall₂_map_left_iff.2 (List.forall₂_map_right_iff.2 hanonymous)).symm

/-- **Net, limits, marking and state are all that counts for the future of a case.** -/
theorem sameSequel_of_eq (hnet : c.net = d.net) (hlimits : c.limits = d.limits) (hmarking : c.marking = d.marking)
    (hstate : c.state = d.state) : c.SameSequel d := by
  intro turns
  have hbare := bare_eq hnet hlimits hmarking hstate
  obtain ⟨hc, hcend⟩ := replies_bare c turns
  obtain ⟨hd, hdend⟩ := replies_bare d turns
  rw [hbare] at hc hcend
  rw [hc, hd, hcend, hdend]
  exact ⟨rfl, rfl, rfl, (d.bare.afterTurns turns).steps, (d.bare.afterTurns turns).changes, ⟨rfl, rfl⟩, rfl, rfl⟩

/-! ## What a restored case is like -/

theorem enabledTransitions_of_isEmpty (h : c.marking.isEmpty = true) : c.enabledTransitions = .ok [] := by
  have hnone : c.net.candidates c.marking = [] := by
    unfold Net.candidates
    refine List.filter_eq_nil_iff.2 fun t _ hany => ?_
    obtain ⟨p, -, hp⟩ := List.any_eq_true.1 hany
    rw [Marking.isMarked_of_isEmpty h p] at hp
    cases hp
  unfold enabledTransitions Net.enabledTransitions Net.evaluations
  rw [hnone]
  rfl

/-- **Settling an active case**, by what is enabled in it. -/
theorem settle_active {α : Type} (h : c.state = .active) (a : α) :
    (c.settle a).1 = c.enabledTransitions.map (fun _ => a) ∧
      (∃ state, (c.settle a).2 = { c with state }) ∧
      (c.CanFire → (c.settle a).2.state = .active) ∧
      (c.enabledTransitions = .ok [] →
        (c.settle a).2.state = if c.marking.isMarked c.net.sink then .completed else .deadlocked) := by
  unfold settle settledState CanFire
  rw [h]
  cases c.enabledTransitions with
  | error failure => exact ⟨rfl, ⟨c.state, rfl⟩, nofun, nofun⟩
  | ok enabled =>
    cases enabled with
    | nil => exact ⟨rfl, ⟨_, rfl⟩, nofun, fun _ => rfl⟩
    | cons t ts => exact ⟨rfl, ⟨_, rfl⟩, fun _ => rfl, nofun⟩

/-- The marking of a saved case is read back as it was, and the case that reads it is settled anew. -/
theorem restore_save (hsize : c.marking.size = c.net.places.length) (hnet : d.net = c.net) :
    d.restore c.save =
      { d with marking := c.marking, state := .active, changes := d.changes.push .restore : Case }.settle () := by
  have hread : Marking.ofTokenMap d.net c.save = .ok c.marking := by
    rw [hnet]
    exact Marking.ofTokenMap_toTokenMap hsize
  unfold restore
  rw [hread]

/-- **A saved case is carried on by any other over the same net.**  The other case takes over the marking; its state is
the saved one's, unless that was cancelled or had been left unsettled; and while the states are the same, the two cases
answer alike for ever after. -/
theorem restored_goes_on {net : Net} {id : CaseId} {limits : RunLimits} {actions : List Action} {d' : Case}
    {result : Except Failure Unit} (hc : c = (launch net id limits).after actions) (hnet : d.net = net)
    (hlimits : d.limits = limits) (hr : d.restore c.save = (result, d')) :
    result = c.enabledTransitions.map (fun _ => ()) ∧ d'.marking = c.marking ∧
      (c.state = .completed ∨ c.state = .deadlocked ∨ (c.state = .active ∧ c.CanFire) → d'.state = c.state) ∧
      (c.state = .cancelled → d'.state = .deadlocked) ∧
      (∀ t, d'.enablement t = c.enablement t) ∧ d'.enabledTransitions = c.enabledTransitions ∧
      (d'.state = c.state → c.SameSequel d') := by
  obtain ⟨-, hcnet, hclimits⟩ := (moves_after (launch net id limits) actions).same
  rw [← hc] at hcnet hclimits
  have hcnet : d.net = c.net := hnet.trans hcnet.symm
  have hclimits : d.limits = c.limits := hlimits.trans hclimits.symm
  have hconsistent : c.Consistent := hc ▸ consistent_after net id limits actions
  rw [restore_save hconsistent.size hcnet] at hr
  -- `e` is the other case with the marking in it, still to be settled.
  generalize he : ({ d with marking := c.marking, state := .active, changes := d.changes.push .restore } : Case) = e at hr
  have hestate : e.state = .active := by rw [← he]
  have hesink : e.marking.isMarked e.net.sink = c.marking.isMarked c.net.sink := by rw [← he, ← hcnet]
  have henabled : e.enabledTransitions = c.enabledTransitions := by
    unfold enabledTransitions
    rw [← he, ← hcnet, ← hclimits]
  obtain ⟨hresult, ⟨state, hsettled⟩, hactive, hrest⟩ := settle_active hestate ()
  rw [hr] at hresult hsettled hactive hrest
  have hover (hnone : c.enabledTransitions = .ok []) :
      d'.state = if c.marking.isMarked c.net.sink then .completed else .deadlocked := by
    rw [← hesink]
    exact hrest (henabled.trans hnone)
  have hd' : d'.net = c.net ∧ d'.limits = c.limits ∧ d'.marking = c.marking := by
    have hd' : d' = { e with state } := hsettled
    rw [hd', ← he]
    exact ⟨hcnet, hclimits, rfl⟩
  refine ⟨by rw [← henabled]; exact hresult, hd'.2.2, ?_, ?_, fun t => ?_, ?_, fun hstate => ?_⟩
  · rintro (hstate | hstate | ⟨hstate, t, ts, hfire⟩)
    · obtain ⟨hsink, hnone⟩ := hconsistent.completed hstate
      rw [hover hnone, if_pos hsink, hstate]
    · obtain ⟨hsink, hnone⟩ := hconsistent.deadlocked hstate
      rw [hover hnone, hsink, hstate]
      rfl
    · rw [hstate]
      exact hactive ⟨t, ts, henabled.trans hfire⟩
  · intro hstate
    have hempty := hconsistent.cancelled hstate
    rw [hover (enabledTransitions_of_isEmpty hempty), Marking.isMarked_of_isEmpty hempty]
    rfl
  · unfold enablement
    rw [hd'.1, hd'.2.1, hd'.2.2]
  · unfold enabledTransitions
    rw [hd'.1, hd'.2.1, hd'.2.2]
  · exact sameSequel_of_eq hd'.1.symm hd'.2.1.symm hd'.2.2.symm hstate.symm

/-- A cancelled case takes over one that is on its way, and goes the rest of the way like it. -/
theorem detour_goes_on : ∃ d' : Case,
    (launch detour 7 {}).cancel.restore ((launch detour 1 {}).after [.fire 0 (.single 2)]).save = (.ok (), d') ∧
      d'.state = .active ∧ ((launch detour 1 {}).after [.fire 0 (.single 2)]).SameSequel d' := by
  have henabled : ((launch detour 1 {}).after [.fire 0 (.single 2)]).enabledTransitions = .ok [1] := rfl
  have hactive : ((launch detour 1 {}).after [.fire 0 (.single 2)]).state = .active := rfl
  obtain ⟨hresult, -, hstate, -, -, -, hsequel⟩ :=
    restored_goes_on (c := (launch detour 1 {}).after [.fire 0 (.single 2)]) (d := (launch detour 7 {}).cancel)
      rfl rfl rfl rfl
  rw [henabled] at hresult
  have hsame := hstate (.inr (.inr ⟨hactive, 1, [], henabled⟩))
  exact ⟨_, Prod.ext hresult rfl, hsame.trans hactive, hsequel hsame⟩

end Case

end Workflow
