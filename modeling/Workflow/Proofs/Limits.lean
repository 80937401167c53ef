import Workflow.Case.Successors
/-!
# Limits — a limit cuts an answer off and never changes it

The limits are looked at in different places: while the reset net is built, in each round of the search, and when the
choices of an OR-split are listed.  In each of them they do one thing only, they end the analysis with a failure.  So
what is found within some limits is found within wider ones too (`Upheld`), from the single search up to everything
that may be asked of a marking.
-/
namespace Workflow

/-- The other limits allow at least as much. -/
structure AnalysisLimits.Within (l l' : AnalysisLimits) : Prop where
  branches : l.branches ≤ l'.branches
  basis : l.basis ≤ l'.basis
  rounds : l.rounds ≤ l'.rounds

variable {α β : Type} {l l' : AnalysisLimits}

/-- The second answer is the first one again, unless that had been cut off by a limit. -/
def Upheld (r r' : Except Failure α) : Prop := (∃ cause, r = .error (.excess cause)) ∨ r' = r

namespace Upheld

variable {r r' : Except Failure α}

theorem refl (r : Except Failure α) : Upheld r r := .inr rfl

theorem excess (cause : Excess) (r' : Except Failure α) : Upheld (.error (.excess cause)) r' := .inl ⟨cause, rfl⟩

theorem ok {a : α} (h : Upheld r r') (hr : r = .ok a) : r' = .ok a := by
  rcases h with ⟨cause, he⟩ | he
  · rw [hr] at he
    cases he
  · rw [he, hr]

theorem bind {f f' : α → Except Failure β} (h : Upheld r r') (hf : ∀ a, Upheld (f a) (f' a)) :
    Upheld (r >>= f) (r' >>= f') := by
  rcases h with ⟨cause, rfl⟩ | rfl
  · exact excess cause _
  · cases r' with
    | error failure => exact refl _
    | ok a => exact hf a

theorem map (f : α → β) (h : Upheld r r') : Upheld (r.map f) (r'.map f) := by
  rcases h with ⟨cause, rfl⟩ | rfl
  · exact excess cause _
  · exact refl _

theorem mapM {f f' : α → Except Failure β} (hf : ∀ a, Upheld (f a) (f' a)) : ∀ as : List α,
    Upheld (as.mapM f) (as.mapM f')
  | [] => refl _
  | a :: as => by
    rw [List.mapM_cons, List.mapM_cons]
    exact (hf a).bind fun _ => (mapM hf as).bind fun _ => refl _

end Upheld

/-! ## The search -/

namespace Search

variable {s : Search}

theorem takeUp_within (h : s.limits.Within l') : ∀ as basis fresh : List (List Nat),
    s.takeUp as basis fresh = .tooLarge ∨
      { s with limits := l' }.takeUp as basis fresh = s.takeUp as basis fresh
  | [], _, _ => .inr rfl
  | a :: as, basis, fresh => by
    unfold takeUp
    by_cases hsource : below a s.source = true
    · rw [if_pos hsource, if_pos hsource]
      exact .inr rfl
    · rw [if_neg hsource, if_neg hsource]
      by_cases hbasis : basis.any (below · a) = true
      · rw [if_pos hbasis, if_pos hbasis]
        exact takeUp_within h as basis fresh
      · rw [if_neg hbasis, if_neg hbasis]
        dsimp only
        split
        · exact .inl rfl
        · rename_i hsize
          rw [if_neg (fun hlt => hsize (Nat.lt_of_le_of_lt h.basis hlt))]
          exact takeUp_within h as _ _

/-- **A search that has not been cut off goes the same way within wider limits**, round by round. -/
theorem upheld_explore (h : s.limits.Within l') : ∀ {n n' : Nat}, n ≤ n' → ∀ basis fresh : List (List Nat),
    Upheld (s.explore n basis fresh) ({ s with limits := l' }.explore n' basis fresh)
  | n, n', _, basis, [] => by
    cases n <;> cases n' <;> exact .refl _
  | 0, _, _, _, _ :: _ => .excess _ _
  | n + 1, n' + 1, hn, basis, a :: as => by
    unfold explore
    rcases takeUp_within h (minimals (s.candidates (a :: as))) basis [] with htake | htake
    · rw [htake]
      exact .excess _ _
    · have hsame : { s with limits := l' }.takeUp (minimals ({ s with limits := l' }.candidates (a :: as))) basis [] =
          s.takeUp (minimals (s.candidates (a :: as))) basis [] := htake
      rw [hsame]
      cases hround : s.takeUp (minimals (s.candidates (a :: as))) basis [] with
      | covered => exact .refl _
      | tooLarge => exact .excess _ _
      | grown basis' fresh' => exact upheld_explore h (Nat.le_of_succ_le_succ hn) basis' fresh'

theorem upheld_canCover (h : s.limits.Within l') (targets : List Nat) :
    Upheld (s.canCover targets) ({ s with limits := l' }.canCover targets) := by
  unfold canCover
  split
  · dsimp only
    split
    · exact .refl _
    · exact upheld_explore h h.rounds _ _
  · exact .refl _

theorem upheld_firstLive (h : s.limits.Within l') (marked : List PlaceId) : ∀ ps : List PlaceId,
    Upheld (s.firstLive marked ps) ({ s with limits := l' }.firstLive marked ps)
  | [] => .refl _
  | p :: ps => by
    unfold firstLive
    rcases upheld_canCover h (marked ++ [p]) with ⟨cause, hcan⟩ | hcan
    · rw [hcan]
      exact .excess _ _
    · rw [hcan]
      cases s.canCover (marked ++ [p]) with
      | error failure => exact .refl _
      | ok live =>
        cases live with
        | true => exact .refl _
        | false => exact upheld_firstLive h marked ps

end Search

namespace Net

variable (net : Net)

/-! ## The reset net -/

theorem upheld_finishTransitions (h : l.Within l') (t : TransitionId) (split : Connector) :
    Upheld (net.finishTransitions l t split) (net.finishTransitions l' t split) := by
  cases split with
  | and | xor => exact .refl _
  | or =>
    unfold finishTransitions
    by_cases hwide : l.branches < (net.postset t).length
    · dsimp only
      rw [if_pos hwide]
      exact .excess _ _
    · dsimp only
      rw [if_neg hwide, if_neg (fun hlt => hwide (Nat.lt_of_le_of_lt h.branches hlt))]
      exact .refl _

theorem upheld_taskTransitions (h : l.Within l') : ∀ (t : TransitionId) (trs : List Transition),
    Upheld (net.taskTransitions l t trs) (net.taskTransitions l' t trs)
  | _, [] => .refl _
  | t, tr :: trs => by
    unfold taskTransitions
    rcases net.upheld_finishTransitions h t tr.split with ⟨cause, hfinish⟩ | hfinish
    · rw [hfinish]
      exact .excess _ _
    · rw [hfinish]
      split
      · exact .refl _
      · rcases upheld_taskTransitions h (t + 1) trs with ⟨cause, hrest⟩ | hrest
        · rw [hrest]
          exact .excess _ _
        · rw [hrest]
          exact .refl _

theorem upheld_orJoinNet (h : l.Within l') (t : TransitionId) (m : Marking) :
    Upheld (net.orJoinNet l t m) (net.orJoinNet l' t m) := by
  unfold orJoinNet toResetNet
  split
  · exact .refl _
  · split
    · exact ((net.upheld_taskTransitions h 0 net.transitions).map _).map _
    · exact .refl _

/-! ## What is asked of a marking -/

theorem upheld_orJoinVerdict (h : l.Within l') (t : TransitionId) (m : Marking) :
    Upheld (net.orJoinVerdict l t m) (net.orJoinVerdict l' t m) := by
  unfold orJoinVerdict
  rcases net.upheld_orJoinNet h t m with ⟨cause, hnet⟩ | hnet
  · rw [hnet]
    exact .excess _ _
  · rw [hnet]
    cases net.orJoinNet l t m with
    | error failure => exact .refl _
    | ok r =>
      dsimp only
      split
      · exact .refl _
      · have hlive := Search.upheld_firstLive (s := r.search l m.count) h
          ((net.preset t).filter m.isMarked) ((net.preset t).filter (fun p => !m.isMarked p))
        rcases hlive with ⟨cause, hlive⟩ | hlive
        · rw [hlive]
          exact .excess _ _
        · have hsame : (r.search l' m.count).firstLive ((net.preset t).filter m.isMarked)
              ((net.preset t).filter (fun p => !m.isMarked p)) = _ := hlive
          rw [hsame]
          exact .refl _

theorem upheld_enablement (h : l.Within l') (m : Marking) (t : TransitionId) :
    Upheld (net.enablement l m t) (net.enablement l' m t) := by
  unfold enablement
  split
  · exact .refl _
  · exact .refl _
  · exact .refl _
  · dsimp only
    split
    · exact .refl _
    · split
      · exact .refl _
      · exact (net.upheld_orJoinVerdict h t m).map _

theorem upheld_evaluations (h : l.Within l') (m : Marking) :
    Upheld (net.evaluations l m) (net.evaluations l' m) :=
  Upheld.mapM (fun t => (net.upheld_enablement h m t).map _) _

theorem upheld_enabledTransitions (h : l.Within l') (m : Marking) :
    Upheld (net.enabledTransitions l m) (net.enabledTransitions l' m) :=
  (net.upheld_evaluations h m).map _

theorem upheld_blockedTransitions (h : l.Within l') (m : Marking) :
    Upheld (net.blockedTransitions l m) (net.blockedTransitions l' m) :=
  (net.upheld_evaluations h m).map _

theorem upheld_firstEnabledOf (h : l.Within l') (m : Marking) : ∀ ts : List TransitionId,
    Upheld (net.firstEnabledOf l m ts) (net.firstEnabledOf l' m ts)
  | [] => .refl _
  | t :: ts => by
    unfold firstEnabledOf
    rcases net.upheld_enablement h m t with ⟨cause, hen⟩ | hen
    · rw [hen]
      exact .excess _ _
    · rw [hen]
      split
      · exact .refl _
      · exact .refl _
      · exact upheld_firstEnabledOf h m ts

theorem upheld_firstEnabled (h : l.Within l') (m : Marking) :
    Upheld (net.firstEnabled l m) (net.firstEnabled l' m) :=
  net.upheld_firstEnabledOf h m _

theorem upheld_fire (h : l.Within l') (m : Marking) (t : TransitionId) (s : Selection) :
    Upheld (net.fire l m t s) (net.fire l' m t s) := by
  unfold fire
  refine (Upheld.refl _).bind fun _ => (net.upheld_enablement h m t).bind fun e => ?_
  cases e <;> exact .refl _

theorem upheld_admissibleSelections (h : l.Within l') (t : TransitionId) :
    Upheld (net.admissibleSelections l t) (net.admissibleSelections l' t) := by
  unfold admissibleSelections
  split
  · exact .refl _
  · exact .refl _
  · exact .refl _
  · by_cases hwide : l.branches < (net.postset t).length
    · rw [if_pos hwide]
      exact .excess _ _
    · rw [if_neg hwide, if_neg (fun hlt => hwide (Nat.lt_of_le_of_lt h.branches hlt))]
      exact .refl _

end Net

end Workflow
