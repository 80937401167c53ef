import Workflow.Proofs.Lifecycle
import Workflow.Proofs.Waiting
/-!
# Blocking — what is left when nothing is enabled

An OR-join that waits does so for a run of the reset net, and such a run begins with the start of another task, whose
tokens are there already (`exists_start_of_waiting`).  When nothing is enabled, that task can only be an OR-join that
waits itself.  So OR-joins block each other or not at all (`orJoin_never_blocks_alone`), and a net with a single OR-join
comes to rest with AND-joins blocked and nothing else.
-/
namespace Workflow

namespace Net

variable {net : Net} {limits : AnalysisLimits} {t u : TransitionId} {m : Marking} {r : ResetNet} {x : Counts}
  {goal take : List PlaceId} {p : PlaceId} {e : Enablement} {ts : List TransitionId}

/-! ## The candidates and their evaluations -/

theorem mem_candidates : t ∈ net.candidates m ↔ ∃ p ∈ net.preset t, m.isMarked p = true := by
  rw [candidates, List.mem_filter, List.any_eq_true, and_iff_right_iff_imp]
  rintro ⟨p, hp, -⟩
  exact List.mem_range.2 (Graph.lt_of_mem_preset hp).2

theorem lt_of_mem_candidates (h : t ∈ net.candidates m) : t < net.transitions.length :=
  List.mem_range.1 (List.mem_filter.1 h).1

theorem evaluations_ok {l : List (TransitionId × Enablement)} (h : net.evaluations limits m = .ok l) :
    (∀ t ∈ net.candidates m, ∃ e, net.enablement limits m t = .ok e) ∧
      ∀ t e, (t, e) ∈ l ↔ t ∈ net.candidates m ∧ net.enablement limits m t = .ok e := by
  obtain ⟨hall, honly⟩ := mem_of_mapM_ok h
  refine ⟨fun t ht => ?_, fun t e => ⟨fun hmem => ?_, fun ⟨ht, he⟩ => ?_⟩⟩
  · obtain ⟨b, -, hb⟩ := hall t ht
    obtain ⟨e, he, -⟩ := exists_ok_of_map hb
    exact ⟨e, he⟩
  · obtain ⟨t', ht', hb⟩ := honly (t, e) hmem
    obtain ⟨e', he, heq⟩ := exists_ok_of_map hb
    cases heq
    exact ⟨ht', he⟩
  · obtain ⟨b, hmem, hb⟩ := hall t ht
    rw [he] at hb
    cases hb
    exact hmem

/-- **When nothing is enabled**, every transition with a marked input place has been found disabled. -/
theorem disabled_of_enabledTransitions (h : net.enabledTransitions limits m = .ok []) (ht : t ∈ net.candidates m) :
    ∃ w, net.enablement limits m t = .ok (.disabled w) := by
  unfold enabledTransitions at h
  obtain ⟨l, hl, hnil⟩ := exists_ok_of_map h
  obtain ⟨hall, hmem⟩ := evaluations_ok hl
  obtain ⟨e, he⟩ := hall t ht
  cases e with
  | disabled w => exact ⟨w, he⟩
  | enabled take =>
    have hin : (t, Enablement.enabled take) ∈ l.filter (fun e => e.2.isEnabled) :=
      List.mem_filter.2 ⟨(hmem t _).2 ⟨ht, he⟩, rfl⟩
    rw [List.map_eq_nil_iff.1 hnil] at hin
    cases hin

theorem mem_candidates_of_mem_blockedTransitions (h : net.blockedTransitions limits m = .ok ts) (ht : t ∈ ts) :
    t ∈ net.candidates m := by
  unfold blockedTransitions at h
  cases hl : net.evaluations limits m with
  | error failure => rw [hl] at h; cases h
  | ok l =>
    rw [hl] at h
    cases h
    obtain ⟨⟨t', e⟩, hin, rfl⟩ := List.mem_map.1 ht
    exact (((evaluations_ok hl).2 t' e).1 (List.mem_filter.1 hin).1).1

/-! ## Joins that do not wait -/

/-- Who could go ahead in the eager game has a marked input place. -/
theorem mem_candidates_of_marks (htake : take ∈ net.eagerTakes u) (hm : Counts.Marks m.count take) :
    u ∈ net.candidates m := by
  obtain ⟨p, hp⟩ := List.exists_mem_of_ne_nil take (ne_nil_of_mem_eagerTakes htake)
  exact mem_candidates.2 ⟨p, mem_preset_of_mem_eagerTakes htake hp, Marking.isMarked_iff.2 (hm p hp)⟩

/-- **Only an OR-join holds back** when the eager game would let it go ahead. -/
theorem enabled_of_marks (limits : AnalysisLimits) (hjoin : (net.transitions[u]?).map Transition.join ≠ some .or)
    (htake : take ∈ net.eagerTakes u) (hm : Counts.Marks m.count take) :
    ∃ take', net.enablement limits m u = .ok (.enabled take') := by
  unfold eagerTakes at htake
  unfold enablement
  cases hj : (net.transitions[u]?).map Transition.join with
  | none =>
    rw [hj] at htake
    cases htake
  | some join =>
    rw [hj] at htake
    cases join with
    | and =>
      obtain rfl := List.mem_singleton.1 htake
      have hall : (net.preset u).find? (fun p => !m.isMarked p) = none :=
        List.find?_eq_none.2 fun p hp => by simpa using Marking.isMarked_iff.2 (hm p hp)
      dsimp only
      rw [hall]
      exact ⟨_, rfl⟩
    | xor =>
      obtain ⟨q, hq, rfl⟩ := List.mem_map.1 htake
      have hmarked : m.isMarked q = true := Marking.isMarked_iff.2 (hm q (List.mem_singleton.2 rfl))
      dsimp only
      split
      · exact ⟨_, rfl⟩
      · rename_i hnone
        exact absurd hmarked (List.find?_eq_none.1 hnone q hq)
    | or => exact absurd hj hjoin

/-! ## What a waiting join waits for -/

/-- **What is not covered yet can only be covered by a start**, as long as no task is under way. -/
theorem exists_start_of_coverable (hr : net.toResetNet limits = .ok r) (hx : ∀ b, x (net.busyPlace b) = 0)
    (hcover : (r.withoutStartsOf t).Coverable x goal) (hgoal : ¬ x.Marks goal) :
    ∃ u ≠ t, ∃ take ∈ net.eagerTakes u, x.Marks take := by
  obtain ⟨n, y, hrun, hy⟩ := hcover
  cases hrun with
  | nil => exact absurd hy hgoal
  | cons htr hen _ =>
    rcases mem_transitions_withoutStartsOf hr htr with ⟨u, suffix, take, htake, hu, rfl⟩ | ⟨b, suffix, put, hput, rfl⟩
    · exact ⟨u, hu, take, htake, hen⟩
    · have hbusy : 0 < x (net.busyPlace b) := hen _ (List.mem_singleton.2 rfl)
      rw [hx] at hbusy
      exact absurd hbusy (Nat.lt_irrefl 0)

/-- **An OR-join that waits sees another task that can start.** -/
theorem exists_start_of_waiting {w : Option PlaceId} (hjoin : (net.transitions[t]?).map Transition.join = some .or)
    (hsize : m.size = net.places.length) (ht : t ∈ net.candidates m)
    (h : net.enablement limits m t = .ok (.disabled w)) :
    ∃ u ≠ t, ∃ take ∈ net.eagerTakes u, Counts.Marks m.count take := by
  obtain ⟨q, hq, hqm⟩ := mem_candidates.1 ht
  have hne : (net.preset t).filter m.isMarked ≠ [] := List.ne_nil_of_mem (List.mem_filter.2 ⟨hq, hqm⟩)
  rcases enablement_or hjoin h with ⟨hnil, -⟩ | ⟨-, -, he⟩ | ⟨v, hv, -, he⟩
  · exact absurd hnil hne
  · cases he
  · obtain ⟨r, hr, hholds⟩ := orJoinVerdict_holds hv
    cases v with
    | unmarked => exact absurd hholds hne
    | enabled => cases he
    | liveBranch p =>
      refine exists_start_of_coverable hr (count_busyPlace hsize) hholds.2.1 fun hmarks => ?_
      have hp : m.isMarked p = true :=
        Marking.isMarked_iff.2 (hmarks p (List.mem_append_right _ (List.mem_singleton.2 rfl)))
      have hempty := (List.mem_filter.1 hholds.mem_empty).2
      rw [hp] at hempty
      cases hempty

/-! ## When nothing is enabled -/

theorem orJoin_of_marks (hnone : net.enabledTransitions limits m = .ok []) (htake : take ∈ net.eagerTakes u)
    (hm : Counts.Marks m.count take) : (net.transitions[u]?).map Transition.join = some .or := by
  refine Decidable.byContradiction fun hjoin => ?_
  obtain ⟨take', hen⟩ := enabled_of_marks limits hjoin htake hm
  obtain ⟨w, hw⟩ := disabled_of_enabledTransitions hnone (mem_candidates_of_marks htake hm)
  cases hen.symm.trans hw

/-- **OR-joins block each other or not at all**: when nothing is enabled, the task that could start is another OR-join
that waits. -/
theorem exists_other_orJoin (hsize : m.size = net.places.length) (hnone : net.enabledTransitions limits m = .ok [])
    (hjoin : (net.transitions[t]?).map Transition.join = some .or) (ht : t ∈ net.candidates m) :
    ∃ u ≠ t, (net.transitions[u]?).map Transition.join = some .or ∧ u ∈ net.candidates m := by
  obtain ⟨w, hw⟩ := disabled_of_enabledTransitions hnone ht
  obtain ⟨u, hu, take, htake, hm⟩ := exists_start_of_waiting hjoin hsize ht hw
  exact ⟨u, hu, orJoin_of_marks hnone htake hm, mem_candidates_of_marks htake hm⟩

/-- With a single OR-join, only AND-joins are left over. -/
theorem andJoin_of_mem_candidates (hsize : m.size = net.places.length)
    (hnone : net.enabledTransitions limits m = .ok [])
    (hsingle : ∀ t u : TransitionId, (net.transitions[t]?).map Transition.join = some .or →
      (net.transitions[u]?).map Transition.join = some .or → t = u) (hu : u ∈ net.candidates m) :
    (net.transitions[u]?).map Transition.join = some .and := by
  obtain ⟨p, hp, hpm⟩ := mem_candidates.1 hu
  have htr := List.getElem?_eq_getElem (Graph.lt_of_mem_preset hp).2
  cases hjoin : (net.transitions[u]?).map Transition.join with
  | none =>
    rw [htr] at hjoin
    cases hjoin
  | some join =>
    cases join with
    | and => rfl
    | xor =>
      have htake : [p] ∈ net.eagerTakes u := by
        unfold eagerTakes
        rw [hjoin]
        exact List.mem_map.2 ⟨p, hp, rfl⟩
      have hm : Counts.Marks m.count [p] := List.forall_mem_singleton.2 (Marking.isMarked_iff.1 hpm)
      cases hjoin.symm.trans (orJoin_of_marks hnone htake hm)
    | or =>
      obtain ⟨t, ht, hother, -⟩ := exists_other_orJoin hsize hnone hjoin hu
      exact absurd (hsingle t u hother hjoin) ht

end Net

/-! ## The outcome of a case -/

namespace Case

variable {c : Case} {o : Outcome}

/-- An outcome is only told of the case as it then is. -/
theorem outcome_of_act {a : Action} (h : (c.act a).1 = .rests o) : (c.act a).2.outcome = .ok o := by
  cases a with
  | run router patience =>
    rcases hrun : c.runWithPatience router patience with ⟨result, d⟩
    rw [act, hrun] at h ⊢
    cases result with
    | error failure => cases h
    | ok o' =>
      cases h
      exact (drive_ok hrun).1
  | step router =>
    rcases hstep : c.step router with ⟨_ | _ | f, d⟩ <;> rw [act, hstep] at h <;> cases h
  | fire t s => rcases hfire : c.fire t s with ⟨_ | f, d⟩ <;> rw [act, hfire] at h <;> cases h
  | fireNamed transition places =>
    rcases hfire : c.fireNamed transition places with ⟨_ | f, d⟩ <;> rw [act, hfire] at h <;> cases h
  | cancel => cases h
  | restore tokens => rcases hrestore : c.restore tokens with ⟨_ | u, d⟩ <;> rw [act, hrestore] at h <;> cases h

theorem outcome_of_rests : ∀ {actions : List Action} {c : Case}, .rests o ∈ c.answers actions →
    ∃ before, (c.after before).outcome = .ok o
  | [], _, h => by cases h
  | a :: actions, c, h => by
    rcases List.mem_cons.1 h with h | h
    · exact ⟨[a], outcome_of_act h.symm⟩
    · obtain ⟨before, hbefore⟩ := outcome_of_rests h
      exact ⟨a :: before, hbefore⟩

theorem outcome_ok (h : c.outcome = .ok o) : o.state = c.state ∧
    c.net.blockedTransitions c.limits.analysis c.marking = .ok o.blocked := by
  unfold outcome at h
  cases hblocked : c.net.blockedTransitions c.limits.analysis c.marking with
  | error failure => rw [hblocked] at h; cases h
  | ok blocked =>
    rw [hblocked] at h
    cases h
    exact ⟨rfl, rfl⟩

/-- **A case on a net with a single OR-join comes to rest with AND-joins blocked**, and nothing else. -/
theorem Consistent.andJoin_of_mem_blocked {u : TransitionId} (hc : c.Consistent) (h : c.outcome = .ok o)
    (hover : o.state = .completed ∨ o.state = .deadlocked)
    (hsingle : ∀ t u : TransitionId, (c.net.transitions[t]?).map Transition.join = some .or →
      (c.net.transitions[u]?).map Transition.join = some .or → t = u) (hu : u ∈ o.blocked) :
    (c.net.transitions[u]?).map Transition.join = some .and := by
  obtain ⟨hstate, hblocked⟩ := outcome_ok h
  have hnone : c.enabledTransitions = .ok [] := by
    rcases hover with hover | hover
    · exact (hc.completed (hstate.symm.trans hover)).2
    · exact (hc.deadlocked (hstate.symm.trans hover)).2
  exact Net.andJoin_of_mem_candidates hc.size hnone hsingle (Net.mem_candidates_of_mem_blockedTransitions hblocked hu)

end Case

/-- **A single OR-join is never what blocks a case.**  When nothing is enabled and an OR-join has a token before it, so
has another one; and where there is no other one, a case that has come to its end leaves only AND-joins blocked. -/
theorem Net.orJoin_never_blocks_alone (net : Net) :
    (∀ (limits : AnalysisLimits) (m : Marking) (t : TransitionId), m.size = net.places.length →
      net.enabledTransitions limits m = .ok [] → (net.transitions[t]?).map Transition.join = some .or →
      (∃ p ∈ net.preset t, m.isMarked p = true) →
      ∃ u ≠ t, (net.transitions[u]?).map Transition.join = some .or ∧ ∃ p ∈ net.preset u, m.isMarked p = true) ∧
    ((∀ t u : TransitionId, (net.transitions[t]?).map Transition.join = some .or →
        (net.transitions[u]?).map Transition.join = some .or → t = u) →
      ∀ (id : CaseId) (limits : RunLimits) (actions : List Action) (o : Outcome),
      ((Case.launch net id limits).after actions).outcome = .ok o ∨
        .rests o ∈ (Case.launch net id limits).answers actions →
      o.state = .completed ∨ o.state = .deadlocked →
      ∀ u ∈ o.blocked, (net.transitions[u]?).map Transition.join = some .and) := by
  constructor
  · intro limits m t hsize hnone hjoin hmarked
    obtain ⟨u, hu, hother, hcandidate⟩ := exists_other_orJoin hsize hnone hjoin (mem_candidates.2 hmarked)
    exact ⟨u, hu, hother, mem_candidates.1 hcandidate⟩
  · intro hsingle id limits actions o ho hover u hu
    obtain ⟨before, hbefore⟩ : ∃ before, ((Case.launch net id limits).after before).outcome = .ok o :=
      ho.elim (fun h => ⟨actions, h⟩) Case.outcome_of_rests
    obtain ⟨-, hnet, -⟩ := (Case.moves_after (Case.launch net id limits) before).same
    rw [show net = ((Case.launch net id limits).after before).net from hnet.symm] at hsingle ⊢
    exact (Case.consistent_after net id limits before).andJoin_of_mem_blocked hbefore hover hsingle hu

/-- Two OR-joins that wait for each other. -/
def Net.standoff : Net where
  places := [⟨"i", .source⟩, ⟨"x", .internal⟩, ⟨"y", .internal⟩, ⟨"p", .internal⟩, ⟨"q", .internal⟩, ⟨"o", .sink⟩]
  transitions := [⟨"a", .xor, .and⟩, ⟨"t", .or, .xor⟩, ⟨"u", .or, .xor⟩]
  arcs := [⟨0, 0, .input⟩, ⟨1, 0, .output⟩, ⟨2, 0, .output⟩, ⟨1, 1, .input⟩, ⟨3, 1, .input⟩, ⟨4, 1, .output⟩,
    ⟨5, 1, .output⟩, ⟨2, 2, .input⟩, ⟨4, 2, .input⟩, ⟨3, 2, .output⟩, ⟨5, 2, .output⟩]
  source := 0
  sink := 5

/-- Two OR-joins may block each other, but a token that the only OR-join sends round is stuck before the AND-join. -/
theorem Net.standoff_detour_blocked :
    (∃ u ≠ 1, (standoff.transitions[u]?).map Transition.join = some .or ∧
      ∃ p ∈ standoff.preset u, (Marking.mk [0, 1, 1, 0, 0, 0]).isMarked p = true) ∧
    ∃ o, ((Case.launch Case.detour 1 {}).after [.fire 0 (.single 2), .fire 1 (.single 3)]).outcome = .ok o ∧
      o.blocked = [2] ∧ (Case.detour.transitions[2]?).map Transition.join = some .and := by
  have hnone : standoff.enabledTransitions {} ⟨[0, 1, 1, 0, 0, 0]⟩ = .ok [] := rfl
  have hsingle : ∀ t u : TransitionId, (Case.detour.transitions[t]?).map Transition.join = some .or →
      (Case.detour.transitions[u]?).map Transition.join = some .or → t = u := by
    have honly : ∀ t : TransitionId, (Case.detour.transitions[t]?).map Transition.join = some .or → t = 1
      | 0, h => by cases h
      | 1, _ => rfl
      | 2, h => by cases h
      | t + 3, h => by cases h
    exact fun t u ht hu => (honly t ht).trans (honly u hu).symm
  constructor
  · exact (orJoin_never_blocks_alone standoff).1 {} ⟨[0, 1, 1, 0, 0, 0]⟩ 1 rfl hnone rfl ⟨1, by decide, by decide⟩
  · refine ⟨_, rfl, rfl, ?_⟩
    exact (orJoin_never_blocks_alone Case.detour).2 hsingle 1 {} [.fire 0 (.single 2), .fire 1 (.single 3)] _ (.inl rfl)
      (.inr rfl) 2 (List.mem_singleton.2 rfl)

end Workflow
