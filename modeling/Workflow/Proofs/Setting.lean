import Mathlib.Data.List.Forall2
import Workflow.Case.Dialogue
import Workflow.Case.Moves
import Workflow.Proofs.Limits
/-!
# Setting — what a case does not depend on

A case acts on its net, its marking and its state.  Its number, what was logged before and how far its analysis may go
are a setting it stands in: put into another setting, where the analysis may go at least as far, it gives the same
replies in any dialogue and comes to the same marking and state (`replies_inSetting`).  Only the number and the steps
that it reports are those of the setting, and where the analysis may go farther it may answer what had been cut off.
-/
namespace Workflow

/-- What tells apart two cases that go on alike. -/
structure Setting where
  id : CaseId
  /-- The steps taken before. -/
  steps : Nat
  /-- The changes logged before. -/
  past : Array Change
  analysis : AnalysisLimits

namespace Case

/-- The same case in another setting. -/
def inSetting (c : Case) (s : Setting) : Case :=
  { c with id := s.id, limits := { c.limits with analysis := s.analysis }, steps := s.steps + c.steps,
           changes := s.past ++ c.changes }

@[simp] theorem net_inSetting (c : Case) (s : Setting) : (c.inSetting s).net = c.net := rfl
@[simp] theorem marking_inSetting (c : Case) (s : Setting) : (c.inSetting s).marking = c.marking := rfl
@[simp] theorem state_inSetting (c : Case) (s : Setting) : (c.inSetting s).state = c.state := rfl

end Case

/-- What a case would report in another setting. -/
def Outcome.inSetting (o : Outcome) (s : Setting) : Outcome := { o with case := s.id, steps := s.steps + o.steps }

variable {α β : Type} {s : Setting} {c : Case} {i : CaseId} {l l' : AnalysisLimits}

/-- Results of one operation in two settings.  `i` and `l` are the number and the limits in the first, and `rel` tells
which answers correspond. -/
inductive Carried (i : CaseId) (l : AnalysisLimits) (s : Setting) (rel : α → β → Prop) :
    Except Failure α × Case → Except Failure β × Case → Prop
  | ok {a : α} {b : β} (c : Case) : rel a b → Carried i l s rel (.ok a, c) (.ok b, c.inSetting s)
  | error (failure : Failure) (c : Case) : Carried i l s rel (.error failure, c) (.error failure, c.inSetting s)
  | ended (state : CaseState) (c : Case) :
      Carried i l s rel (.error (.conflict (.caseOver i state)), c)
        (.error (.conflict (.caseOver s.id state)), c.inSetting s)
  | cut (cause : Excess) (c : Case) (r : Except Failure β × Case) : l ≠ s.analysis →
      Carried i l s rel (.error (.excess cause), c) r

theorem Carried.map {α' β' : Type} {rel : α → β → Prop} {rel' : α' → β' → Prop} {f : α → α'} {g : β → β'}
    {r : Except Failure α × Case} {r' : Except Failure β × Case} (h : Carried i l s rel r r')
    (hfg : ∀ {a b}, rel a b → rel' (f a) (g b)) : Carried i l s rel' (r.1.map f, r.2) (r'.1.map g, r'.2) := by
  cases h with
  | ok c hab => exact .ok c (hfg hab)
  | error failure c => exact .error failure c
  | ended state c => exact .ended state c
  | cut cause c r hl => exact .cut cause c _ hl

/-- Under the same limits nothing is cut off in one setting only. -/
theorem Upheld.cut_or {q : AnalysisLimits → Except Failure α} (h : Upheld (q l) (q l')) :
    (l ≠ l' ∧ ∃ cause, q l = .error (.excess cause)) ∨ q l' = q l := by
  by_cases hl : l = l'
  · exact .inr (by rw [hl])
  · exact h.imp (fun hcut => ⟨hl, hcut⟩) id

namespace Case

/-- A question about the marking is answered alike in both settings. -/
theorem carried_question {q : AnalysisLimits → Except Failure α} (h : Upheld (q l) (q s.analysis)) (c : Case) :
    Carried i l s Eq (q l, c) (q s.analysis, c.inSetting s) := by
  rcases h.cut_or with ⟨hl, cause, hcut⟩ | hsame
  · rw [hcut]
    exact .cut cause _ _ hl
  · rw [hsame]
    cases q l with
    | error failure => exact .error failure c
    | ok a => exact .ok c rfl

/-- The first enabled transition is the same in both settings, unless the search for it is cut off in the first. -/
theorem firstEnabled_inSetting (h : c.limits.analysis.Within s.analysis) :
    (c.limits.analysis ≠ s.analysis ∧ ∃ cause, c.firstEnabled = .error (.excess cause)) ∨
      (c.inSetting s).firstEnabled = c.firstEnabled :=
  (c.net.upheld_firstEnabled h c.marking).cut_or (q := fun l => c.net.firstEnabled l c.marking)

theorem enabledTransitions_inSetting (h : c.limits.analysis.Within s.analysis) :
    (c.limits.analysis ≠ s.analysis ∧ ∃ cause, c.enabledTransitions = .error (.excess cause)) ∨
      (c.inSetting s).enabledTransitions = c.enabledTransitions :=
  (c.net.upheld_enabledTransitions h c.marking).cut_or (q := fun l => c.net.enabledTransitions l c.marking)

theorem record_inSetting (c : Case) (f : Firing) (m : Marking) :
    (c.inSetting s).record f m = (c.record f m).inSetting s := by
  have hchanges : s.past ++ c.changes ++ f.changes = s.past ++ (c.changes ++ f.changes) := by
    apply Array.toList_inj.1
    simp only [Array.toList_append, Array.toList_appendList, List.append_assoc]
  unfold record inSetting
  dsimp only
  rw [hchanges, Nat.add_assoc]

theorem cancel_inSetting (c : Case) : (c.inSetting s).cancel = c.cancel.inSetting s := by
  by_cases hc : c.state = .cancelled
  · unfold cancel
    rw [state_inSetting, if_pos hc, if_pos hc]
  · have hs : (c.inSetting s).state ≠ .cancelled := hc
    have hpush : s.past ++ c.changes.push .reset = (s.past ++ c.changes).push .reset := Array.append_push
    rw [cancel_eq hc, cancel_eq hs]
    unfold inSetting
    dsimp only
    rw [hpush]

/-! ## One operation -/

theorem carried_settle {rel : α → β → Prop} {a : α} {b : β} (h : c.limits.analysis.Within s.analysis)
    (hab : rel a b) : Carried c.id c.limits.analysis s rel (c.settle a) ((c.inSetting s).settle b) := by
  unfold settle settledState
  rw [state_inSetting]
  cases c.state with
  | active =>
    rcases enabledTransitions_inSetting h with ⟨hl, cause, hcut⟩ | hsame
    · rw [hcut]
      exact .cut cause c _ hl
    · rw [hsame]
      cases c.enabledTransitions with
      | error failure => exact .error failure c
      | ok enabled => cases enabled <;> exact .ok { c with state := _ } hab
  | _ => exact .ok { c with state := _ } hab

theorem carried_fire (h : c.limits.analysis.Within s.analysis) (t : TransitionId) (sel : Selection) :
    Carried c.id c.limits.analysis s Eq (c.fire t sel) ((c.inSetting s).fire t sel) := by
  unfold fire tryFire
  rw [state_inSetting]
  by_cases hactive : c.state = .active
  · rw [if_pos hactive, if_pos hactive]
    rcases (c.net.upheld_fire h c.marking t sel).cut_or
      (q := fun l => c.net.fire l c.marking t sel) with ⟨hl, cause, hcut⟩ | hsame
    · rw [hcut]
      exact .cut cause c _ hl
    · have hsame : (c.inSetting s).net.fire (c.inSetting s).limits.analysis (c.inSetting s).marking t sel =
          c.net.fire c.limits.analysis c.marking t sel := hsame
      rw [hsame]
      cases c.net.fire c.limits.analysis c.marking t sel with
      | error failure => exact .error failure c
      | ok r =>
        have hrecord := record_inSetting (s := s) c r.1 r.2
        dsimp only
        rw [hrecord]
        exact carried_settle (c := c.record r.1 r.2) h rfl
  · rw [if_neg hactive, if_neg hactive]
    exact .ended c.state c

theorem carried_fireNamed (h : c.limits.analysis.Within s.analysis) (transition : String) (places : List String) :
    Carried c.id c.limits.analysis s Eq (c.fireNamed transition places)
      ((c.inSetting s).fireNamed transition places) := by
  unfold fireNamed
  rw [net_inSetting]
  split
  · exact .error _ c
  · split
    · exact .error _ c
    · exact carried_fire h _ _

theorem carried_restore (h : c.limits.analysis.Within s.analysis) (d : TokenMap) :
    Carried c.id c.limits.analysis s Eq (c.restore d) ((c.inSetting s).restore d) := by
  unfold restore
  rw [net_inSetting]
  split
  · exact .error _ c
  · rename_i m _
    have hpush : s.past ++ c.changes.push .restore = (s.past ++ c.changes).push .restore := Array.append_push
    have hcarried := carried_settle
      (c := { c with marking := m, state := .active, changes := c.changes.push .restore }) h (Eq.refl ())
    unfold inSetting at hcarried ⊢
    dsimp only at hcarried ⊢
    rwa [hpush] at hcarried

theorem carried_step (h : c.limits.analysis.Within s.analysis) (router : Router) :
    Carried c.id c.limits.analysis s Eq (c.step router) ((c.inSetting s).step router) := by
  unfold step
  rw [state_inSetting]
  split
  · exact .ok c rfl
  · rcases firstEnabled_inSetting h with ⟨hl, cause, hcut⟩ | hsame
    · rw [hcut]
      exact .cut cause c _ hl
    · rw [hsame]
      split
      · exact .error _ c
      · exact carried_settle h rfl
      · rename_i t _ _
        rw [net_inSetting, marking_inSetting]
        split
        · exact .error _ c
        · rename_i sel _
          exact (carried_fire h t sel).map (congrArg some)

/-- An outcome is the same in both settings but for the number and the steps that it reports. -/
theorem carried_outcome (h : c.limits.analysis.Within s.analysis) :
    Carried c.id c.limits.analysis s (fun o o' => o.case = c.id ∧ o' = o.inSetting s) (c.outcome, c)
      ((c.inSetting s).outcome, c.inSetting s) := by
  have hblocked := carried_question (i := c.id) (q := fun l => c.net.blockedTransitions l c.marking)
    (c.net.upheld_blockedTransitions h c.marking) c
  refine hblocked.map ?_
  rintro blocked _ rfl
  exact ⟨rfl, rfl⟩

/-- **A run goes the same way in both settings**: by recursion on the steps that are left. -/
theorem carried_drive : ∀ (routing : Routing) (left : Nat) (patience : Option Nat) {c : Case},
    c.limits.analysis.Within s.analysis →
    Carried c.id c.limits.analysis s (fun o o' => o.case = c.id ∧ o' = o.inSetting s) (drive routing left patience c)
      (drive routing left patience (c.inSetting s))
  | routing, left, patience, c, h => by
    have hstep := carried_step h (routing 0)
    have hkept := (moves_of_advances (advances_step c (routing 0))).same
    unfold drive
    rw [state_inSetting]
    split
    · rw [cancel_inSetting]
      have hcancel := (moves_of_advances (advances_cancel c)).same
      have houtcome := carried_outcome (c := c.cancel) (s := s) (by rw [hcancel.2.2]; exact h)
      rwa [hcancel.1, hcancel.2.2] at houtcome
    · generalize c.step (routing 0) = r at hstep hkept
      generalize (c.inSetting s).step (routing 0) = r' at hstep
      cases hstep with
      | error failure d => exact .error failure d
      | ended state d => exact .ended state d
      | cut cause d _ hl => exact .cut cause d _ hl
      | ok d hab =>
        subst hab
        -- A step leaves number and limits alone, so the rest of the run starts out in the same two settings.
        obtain ⟨hid, -, hlimits⟩ : d.id = c.id ∧ d.net = c.net ∧ d.limits = c.limits := hkept
        have hd : d.limits.analysis.Within s.analysis := by
          rw [hlimits]
          exact h
        have houtcome := carried_outcome hd
        rw [hid, hlimits] at houtcome
        rename_i fired
        cases fired with
        | none => exact houtcome
        | some f =>
          dsimp only
          cases left with
          | succ left =>
            have hrest := carried_drive (routing.after 1) left (patience.map (· - 1)) hd
            rwa [hid, hlimits] at hrest
          | zero =>
            dsimp only
            rcases firstEnabled_inSetting hd with ⟨hl, cause, hcut⟩ | hsame
            · rw [hcut]
              exact .cut cause d _ (hlimits ▸ hl)
            · rw [hsame]
              split
              · exact .error _ d
              · exact .error _ d
              · exact houtcome

/-! ## Turns -/

theorem upheld_successors (h : c.limits.analysis.Within s.analysis) :
    Upheld c.successors (c.inSetting s).successors := by
  have hfire (t : TransitionId) (sel : Selection) := c.net.upheld_fire h c.marking t sel
  have hby (t : TransitionId) : Upheld (c.successorsBy t) ((c.inSetting s).successorsBy t) :=
    (c.net.upheld_admissibleSelections h t).bind fun _ => Upheld.mapM (fun sel => (hfire t sel).map _) _
  exact (c.net.upheld_enabledTransitions h c.marking).bind fun enabled =>
    (Upheld.mapM hby enabled).bind fun _ => .refl _

end Case

/-- The second reply is what the first one would be in the other setting. -/
inductive Reply.Alike (i : CaseId) (s : Setting) : Reply → Reply → Prop
  | same (r : Reply) : Alike i s r r
  | rests (o : Outcome) : o.case = i → Alike i s (.answer (.rests o)) (.answer (.rests (o.inSetting s)))
  | outcome (o : Outcome) : o.case = i → Alike i s (.finding (.outcome o)) (.finding (.outcome (o.inSetting s)))
  | ended (state : CaseState) :
      Alike i s (.answer (.failed (.conflict (.caseOver i state))))
        (.answer (.failed (.conflict (.caseOver s.id state))))

/-- One turn in both settings: the reply was cut off in the first one only, or all is alike. -/
def TurnCarried (i : CaseId) (l : AnalysisLimits) (s : Setting) (r r' : Reply × Case) : Prop :=
  (l ≠ s.analysis ∧ r.1.isCutOff = true) ∨ (Reply.Alike i s r.1 r'.1 ∧ r'.2 = r.2.inSetting s)

theorem Carried.turn {rel : α → β → Prop} {r : Except Failure α × Case} {r' : Except Failure β × Case}
    {reply : α → Reply} {reply' : β → Reply} (h : Carried i l s rel r r')
    (ha : ∀ {a b}, rel a b → Reply.Alike i s (reply a) (reply' b)) :
    TurnCarried i l s (Reply.of reply r.1, r.2) (Reply.of reply' r'.1, r'.2) := by
  cases h with
  | ok c hab => exact .inr ⟨ha hab, rfl⟩
  | error failure c => exact .inr ⟨.same _, rfl⟩
  | ended state c => exact .inr ⟨.ended state, rfl⟩
  | cut cause c r hl => exact .inl ⟨hl, rfl⟩

theorem Carried.acted {rel : α → β → Prop} {r : Except Failure α × Case} {r' : Except Failure β × Case}
    {answer : α → Answer} {answer' : β → Answer} (h : Carried i l s rel r r')
    (ha : ∀ {a b}, rel a b → Reply.Alike i s (.answer (answer a)) (.answer (answer' b))) :
    TurnCarried i l s (.answer (Answer.of answer r).1, (Answer.of answer r).2)
      (.answer (Answer.of answer' r').1, (Answer.of answer' r').2) := by
  have hof {γ : Type} (f : γ → Answer) (r : Except Failure γ × Case) :
      (Reply.answer (Answer.of f r).1, (Answer.of f r).2) = (Reply.of (fun a => .answer (f a)) r.1, r.2) := by
    obtain ⟨r, c⟩ := r
    cases r <;> rfl
  rw [hof, hof]
  exact h.turn ha

theorem Reply.Alike.of_eq (reply : α → Reply) {a b : α} (h : a = b) : Reply.Alike i s (reply a) (reply b) := by
  rw [h]
  exact .same _

namespace Case

theorem carried_act (h : c.limits.analysis.Within s.analysis) (a : Action) :
    TurnCarried c.id c.limits.analysis s (c.turn (.act a)) ((c.inSetting s).turn (.act a)) := by
  cases a with
  | fire t sel => exact (carried_fire h t sel).acted (.of_eq fun f => .answer (.fired f))
  | fireNamed transition places =>
    exact (carried_fireNamed h transition places).acted (.of_eq fun f => .answer (.fired f))
  | step router =>
    exact (carried_step h router).acted (.of_eq fun f => .answer (Option.elim f .idle .fired))
  | run router patience =>
    refine (carried_drive router.steady _ patience h).acted ?_
    rintro o _ ⟨ho, rfl⟩
    exact .rests o ho
  | cancel => exact .inr ⟨.same _, cancel_inSetting c⟩
  | restore d => exact (carried_restore h d).acted (.of_eq fun _ => .answer .done)

theorem carried_ask (h : c.limits.analysis.Within s.analysis) (q : Question) :
    TurnCarried c.id c.limits.analysis s (c.turn (.ask q)) ((c.inSetting s).turn (.ask q)) := by
  cases q with
  | enablement t =>
    have hen := carried_question (i := c.id) (q := fun l => c.net.enablement l c.marking t)
      (c.net.upheld_enablement h c.marking t) c
    exact (hen.map (congrArg Finding.enablement)).turn (.of_eq Reply.finding)
  | enabledTransitions =>
    have hen := carried_question (i := c.id) (q := fun l => c.net.enabledTransitions l c.marking)
      (c.net.upheld_enabledTransitions h c.marking) c
    exact (hen.map (congrArg Finding.transitions)).turn (.of_eq Reply.finding)
  | outcome =>
    have hout : Carried c.id c.limits.analysis s (fun f f' => Reply.Alike c.id s (.finding f) (.finding f'))
        (c.look .outcome, c) ((c.inSetting s).look .outcome, c.inSetting s) :=
      (carried_outcome h).map (by rintro o _ ⟨ho, rfl⟩; exact .outcome o ho)
    exact hout.turn fun ho => ho
  | successors =>
    have hsucc := carried_question (i := c.id)
      (q := fun l => ({ c with limits := { c.limits with analysis := l } } : Case).successors)
      (upheld_successors h) c
    exact (hsucc.map (congrArg Finding.successors)).turn (.of_eq Reply.finding)
  | save => exact .inr ⟨.same _, rfl⟩

theorem carried_turn (h : c.limits.analysis.Within s.analysis) (t : Turn) :
    TurnCarried c.id c.limits.analysis s (c.turn t) ((c.inSetting s).turn t) := by
  cases t with
  | act a => exact carried_act h a
  | ask q => exact carried_ask h q

theorem same_turn (c : Case) (t : Turn) :
    (c.turn t).2.id = c.id ∧ (c.turn t).2.net = c.net ∧ (c.turn t).2.limits = c.limits := by
  cases t with
  | act a => exact (moves_act c a).same
  | ask q => exact ⟨rfl, rfl, rfl⟩

theorem id_afterTurns : ∀ (turns : List Turn) (c : Case), (c.afterTurns turns).id = c.id
  | [], _ => rfl
  | t :: turns, c => (id_afterTurns turns (c.turn t).2).trans (same_turn c t).1

/-- **A case that stands in another setting goes on in the same way**, whatever it is told and asked: either a limit
has cut off a reply that the wider limits of the other setting may give, or all replies and the case at the end are the
same but for the setting. -/
theorem replies_inSetting : ∀ (turns : List Turn) {c : Case}, c.limits.analysis.Within s.analysis →
    (c.limits.analysis ≠ s.analysis ∧ ∃ r ∈ c.replies turns, r.isCutOff = true) ∨
      (List.Forall₂ (Reply.Alike c.id s) (c.replies turns) ((c.inSetting s).replies turns) ∧
        (c.inSetting s).afterTurns turns = (c.afterTurns turns).inSetting s)
  | [], _, _ => .inr ⟨.nil, rfl⟩
  | t :: turns, c, h => by
    obtain ⟨hid, -, hlimits⟩ := same_turn c t
    have hnext : (c.turn t).2.limits.analysis.Within s.analysis := by
      rw [hlimits]
      exact h
    have hrest := replies_inSetting turns hnext
    rw [hid, hlimits] at hrest
    rcases carried_turn h t with ⟨hl, hcut⟩ | ⟨halike, hcase⟩
    · exact .inl ⟨hl, _, List.mem_cons_self, hcut⟩
    · rcases hrest with ⟨hl, r, hr, hcut⟩ | ⟨hreplies, hend⟩
      · exact .inl ⟨hl, r, List.mem_cons_of_mem _ hr, hcut⟩
      · refine .inr ⟨.cons halike ?_, ?_⟩
        · rw [hcase]
          exact hreplies
        · unfold afterTurns at hend ⊢
          rw [List.foldl_cons, List.foldl_cons, hcase]
          exact hend

end Case

end Workflow
