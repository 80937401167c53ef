import Mathlib.Logic.Relation
import Workflow.Case.History
/-!
# Moves — what an action is made of

Whatever is asked of a case, it changes in one of four ways: it enters a firing, it settles, it is cancelled, or it
takes over a persisted marking.  An action is a chain of such moves (`moves_act`), also when it answers with a failure,
so what every move keeps is kept over any history (`moves_after`).  All actions but a restoring do without the fourth
kind of move (`advances_act`).
-/
namespace Workflow.Case

open Relation (ReflTransGen)

inductive Move : Case → Case → Prop
  | fire {c : Case} {t : TransitionId} {s : Selection} {f : Firing} {m : Marking} : c.state = .active →
      c.net.fire c.limits.analysis c.marking t s = .ok (f, m) → Move c (c.record f m)
  | settle {c : Case} {state : CaseState} : c.settledState = .ok state → Move c { c with state }
  | cancel {c : Case} : c.state ≠ .cancelled → Move c c.cancel
  | restore {c : Case} {d : TokenMap} {m : Marking} : Marking.ofTokenMap c.net d = .ok m →
      Move c { c with marking := m, state := .active, changes := c.changes.push .restore }

/-- Any number of moves, one after the other. -/
inductive Moves : Case → Case → Prop
  | refl (c : Case) : Moves c c
  | step {c d e : Case} : Move c d → Moves d e → Moves c e

variable {c d e : Case} {α : Type}

theorem Moves.trans (hcd : c.Moves d) (hde : d.Moves e) : c.Moves e := by
  induction hcd with
  | refl => exact hde
  | step hm _ ih => exact .step hm (ih hde)

theorem Move.moves (h : c.Move d) : c.Moves d := .step h (.refl d)

/-- **What every move keeps, any number of them keeps.** -/
theorem Moves.keeps {P : Case → Prop} (hP : ∀ {c d}, c.Move d → P c → P d) (h : c.Moves d) (hc : P c) : P d := by
  induction h with
  | refl => exact hc
  | step hm _ ih => exact ih (hP hm hc)

theorem cancel_eq (h : c.state ≠ .cancelled) :
    c.cancel = { c with marking := c.marking.clear, state := .cancelled, changes := c.changes.push .reset } := by
  unfold cancel
  rw [if_neg h]

theorem Move.same (h : c.Move d) : d.id = c.id ∧ d.net = c.net ∧ d.limits = c.limits := by
  cases h with
  | cancel hne =>
    rw [cancel_eq hne]
    exact ⟨rfl, rfl, rfl⟩
  | _ => exact ⟨rfl, rfl, rfl⟩

/-- A case stays on its net, under its limits. -/
theorem Moves.same (h : c.Moves d) : d.id = c.id ∧ d.net = c.net ∧ d.limits = c.limits :=
  h.keeps (P := fun d => d.id = c.id ∧ d.net = c.net ∧ d.limits = c.limits)
    (fun hm ⟨hid, hnet, hlimits⟩ => ⟨hm.same.1.trans hid, hm.same.2.1.trans hnet, hm.same.2.2.trans hlimits⟩)
    ⟨rfl, rfl, rfl⟩

/-- A move that goes on from the marking the case has. -/
inductive Advance : Case → Case → Prop
  | fire {c : Case} {t : TransitionId} {s : Selection} {f : Firing} {m : Marking} : c.state = .active →
      c.net.fire c.limits.analysis c.marking t s = .ok (f, m) → Advance c (c.record f m)
  | settle {c : Case} {state : CaseState} : c.settledState = .ok state → Advance c { c with state }
  | cancel {c : Case} : c.state ≠ .cancelled → Advance c c.cancel

theorem Advance.move (h : c.Advance d) : c.Move d := by
  cases h with
  | fire hactive hfire => exact .fire hactive hfire
  | settle hs => exact .settle hs
  | cancel hne => exact .cancel hne

theorem moves_of_advances (h : ReflTransGen Advance c d) : c.Moves d := by
  induction h with
  | refl => exact .refl c
  | tail _ hlast ih => exact ih.trans hlast.move.moves

/-- **What every move but a restoring keeps, any number of them keeps.** -/
theorem keeps_advances {P : Case → Prop} (hP : ∀ {c d}, c.Advance d → P c → P d) (h : ReflTransGen Advance c d)
    (hc : P c) : P d := by
  induction h with
  | refl => exact hc
  | tail _ hlast ih => exact hP hlast ih

/-! ## One operation -/

theorem advances_settle (c : Case) (a : α) : ReflTransGen Advance c (c.settle a).2 := by
  unfold settle
  split
  · exact .refl
  · rename_i hstate
    exact .single (.settle hstate)

theorem advances_fire (c : Case) (t : TransitionId) (s : Selection) : ReflTransGen Advance c (c.fire t s).2 := by
  unfold fire
  split
  · exact .refl
  · rename_i f m hfire
    unfold tryFire at hfire
    split at hfire
    · rename_i hactive
      exact .head (.fire hactive hfire) (advances_settle _ f)
    · cases hfire

theorem advances_fireNamed (c : Case) (transition : String) (places : List String) :
    ReflTransGen Advance c (c.fireNamed transition places).2 := by
  unfold fireNamed
  split
  · exact .refl
  · split
    · exact .refl
    · exact advances_fire c _ _

theorem advances_cancel (c : Case) : ReflTransGen Advance c c.cancel := by
  by_cases h : c.state = .cancelled
  · unfold cancel
    rw [if_pos h]
  · exact .single (.cancel h)

theorem advances_step (c : Case) (router : Router) : ReflTransGen Advance c (c.step router).2 := by
  unfold step
  split
  · exact .refl
  · split
    · exact .refl
    · exact advances_settle c _
    · split
      · exact .refl
      · exact advances_fire c _ _

theorem advances_drive : ∀ (routing : Routing) (left : Nat) (patience : Option Nat) (c : Case),
    ReflTransGen Advance c (drive routing left patience c).2
  | routing, left, patience, c => by
    have hstep := advances_step c (routing 0)
    unfold drive
    split
    · exact advances_cancel c
    · split
      · rename_i hs
        rwa [hs] at hstep
      · rename_i hs
        rwa [hs] at hstep
      · rename_i c' hs
        rw [hs] at hstep
        split
        · exact hstep.trans (advances_drive _ _ _ c')
        · split <;> exact hstep

theorem moves_restore (c : Case) (d : TokenMap) : c.Moves (c.restore d).2 := by
  unfold restore
  split
  · exact .refl c
  · rename_i m hm
    exact .step (.restore hm) (moves_of_advances (advances_settle _ ()))

/-! ## Any history -/

theorem snd_of (answer : α → Answer) (r : Except Failure α × Case) : (Answer.of answer r).2 = r.2 := by
  unfold Answer.of
  split <;> rfl

/-- **An action other than a restoring goes on from the marking it finds**, whatever it answers. -/
theorem advances_act (c : Case) {a : Action} (ha : ∀ d, a ≠ .restore d) : ReflTransGen Advance c (c.act a).2 := by
  cases a with
  | fire t s =>
    rw [act, snd_of]
    exact advances_fire c t s
  | fireNamed transition places =>
    rw [act, snd_of]
    exact advances_fireNamed c transition places
  | step router =>
    rw [act, snd_of]
    exact advances_step c router
  | run router patience =>
    rw [act, snd_of]
    exact advances_drive router.steady _ patience c
  | cancel => exact advances_cancel c
  | restore d => exact absurd rfl (ha d)

/-- **An action is a chain of moves**, whatever it answers. -/
theorem moves_act (c : Case) (a : Action) : c.Moves (c.act a).2 := by
  cases a with
  | restore d =>
    rw [act, snd_of]
    exact moves_restore c d
  | _ => exact moves_of_advances (advances_act c nofun)

theorem moves_after (c : Case) (actions : List Action) : c.Moves (c.after actions) := by
  induction actions generalizing c with
  | nil => exact .refl c
  | cons a actions ih => exact (moves_act c a).trans (ih (c.act a).2)

end Workflow.Case
