import Workflow.Proofs.Acceptance
import Workflow.Proofs.Strides
/-!
# Leftovers — the outcome accounts for every token that is left

Where a case is over nothing is enabled, so all transitions with a marked input place are blocked
(`blockedTransitions_of_none`).  Nothing takes from the sink of a workflow net, and from every other place something
does (`exists_mem_preset`): the checks see to that, since from every place there is a way to the sink.  So each place
where tokens are stranded has a transition that is blocked, and none is blocked without such a place
(`outcome_accounts`).
-/
namespace Workflow

theorem Marking.exists_isMarked {m : Marking} (h : m.isEmpty = false) : ∃ p, m.isMarked p = true := by
  obtain ⟨c, hc, hne⟩ := List.all_eq_false.1 h
  obtain ⟨p, hp⟩ := List.mem_iff_getElem?.1 hc
  refine ⟨p, isMarked_iff.2 ?_⟩
  rw [count_of_getElem? hp]
  apply Nat.pos_of_ne_zero
  intro hzero
  apply hne
  rw [UInt32.toNat_inj.1 (hzero.trans UInt32.toNat_zero.symm)]
  rfl

namespace Net

variable {net : Net} {limits : AnalysisLimits} {m : Marking} {t : TransitionId} {p : PlaceId}

theorem isWorkflowNet (net : Net) : net.HasTerminals net.source net.sink ∧ net.Connected net.source net.sink :=
  (Graph.defect?_eq_none_iff net.terminals_eq).1 net.defect?_eq

theorem ne_sink_of_mem_preset (h : p ∈ net.preset t) : p ≠ net.sink := by
  rintro rfl
  exact net.isWorkflowNet.1.not_left _ (.into h)

/-- **From every place but the sink some transition takes.** -/
theorem exists_mem_preset (hp : p < net.places.length) (hsink : p ≠ net.sink) : ∃ t, p ∈ net.preset t := by
  have hway : net.Reaches (.place p) (.place net.sink) := (net.isWorkflowNet.2 (.place p) hp).2
  obtain ⟨e, he⟩ := hway.exists_leads_outOf fun heq => hsink (Element.place.inj heq)
  cases he with
  | into ht => exact ⟨_, ht⟩

/-- **When nothing is enabled, every candidate is blocked.** -/
theorem blockedTransitions_of_none (h : net.enabledTransitions limits m = .ok []) :
    net.blockedTransitions limits m = .ok (net.candidates m) := by
  have hdisabled : ∀ t ∈ net.candidates m, ∃ w, net.enablement limits m t = .ok (.disabled w) := fun t ht =>
    disabled_of_enabledTransitions h ht
  choose! w hw using hdisabled
  unfold blockedTransitions
  rw [evaluations_of_ok hw]
  apply congrArg Except.ok
  dsimp only
  rw [List.filter_map, List.map_map]
  have hall : (net.candidates m).filter ((fun e => !e.2.isEnabled) ∘ fun t => (t, Enablement.disabled (w t))) =
      net.candidates m := List.filter_eq_self.2 fun _ _ => rfl
  rw [hall]
  exact List.map_id' _

end Net

namespace Case

variable {c : Case} {p : PlaceId} {t : TransitionId} {o : Outcome}

/-- What an outcome says of the tokens that `c` has left: where they are stranded, and who is blocked for want of
others. -/
structure Accounts (c : Case) (o : Outcome) : Prop where
  stranded_sorted : o.stranded.Pairwise (· < ·)
  mem_stranded : ∀ p, p ∈ o.stranded ↔ c.marking.isMarked p = true ∧ p ≠ c.net.sink
  blocked_sorted : o.blocked.Pairwise (· < ·)
  mem_blocked : ∀ t, t ∈ o.blocked ↔ ∃ p ∈ o.stranded, p ∈ c.net.preset t
  consumer_blocked : ∀ p ∈ o.stranded, ∃ t ∈ c.net.consumers p, t ∈ o.blocked
  blocked_eq_nil_iff : o.blocked = [] ↔ o.stranded = []

theorem mem_stranded : p ∈ c.stranded ↔ c.marking.isMarked p = true ∧ p ≠ c.net.sink := by
  simp only [stranded, List.mem_filter, Marking.mem_marked, bne_iff_ne]

theorem pairwise_stranded (c : Case) : c.stranded.Pairwise (· < ·) :=
  (List.pairwise_lt_range.filter _).filter _

/-- A token before a transition is never one on the sink. -/
theorem mem_candidates_iff_stranded : t ∈ c.net.candidates c.marking ↔ ∃ p ∈ c.stranded, p ∈ c.net.preset t := by
  rw [Net.mem_candidates]
  constructor
  · rintro ⟨p, hp, hmarked⟩
    exact ⟨p, mem_stranded.2 ⟨hmarked, Net.ne_sink_of_mem_preset hp⟩, hp⟩
  · rintro ⟨p, hp, hpreset⟩
    exact ⟨p, hpreset, (mem_stranded.1 hp).1⟩

theorem exists_candidate (hsize : c.marking.size = c.net.places.length) (hp : p ∈ c.stranded) :
    ∃ t ∈ c.net.consumers p, t ∈ c.net.candidates c.marking := by
  obtain ⟨hmarked, hsink⟩ := mem_stranded.1 hp
  obtain ⟨t, ht⟩ := Net.exists_mem_preset (hsize ▸ Marking.lt_size_of_isMarked hmarked) hsink
  exact ⟨t, Graph.mem_consumers.2 ht, mem_candidates_iff_stranded.2 ⟨p, hp, ht⟩⟩

/-- Where nothing is enabled, the outcome is known and accounts for all tokens. -/
theorem accounts_of_none (hsize : c.marking.size = c.net.places.length) (h : c.enabledTransitions = .ok []) :
    ∃ o, c.outcome = .ok o ∧ c.Accounts o := by
  unfold outcome
  rw [Net.blockedTransitions_of_none h]
  refine ⟨_, rfl, ?_⟩
  constructor
  case stranded_sorted => exact c.pairwise_stranded
  case mem_stranded => exact fun p => mem_stranded
  case blocked_sorted => exact c.net.pairwise_candidates c.marking
  case mem_blocked => exact fun t => mem_candidates_iff_stranded
  case consumer_blocked => exact fun p hp => exists_candidate hsize hp
  case blocked_eq_nil_iff =>
    dsimp only
    rw [List.eq_nil_iff_forall_not_mem, List.eq_nil_iff_forall_not_mem]
    constructor
    · intro hnone p hp
      obtain ⟨t, -, ht⟩ := exists_candidate hsize hp
      exact hnone t ht
    · intro hnone t ht
      obtain ⟨p, hp, -⟩ := mem_candidates_iff_stranded.1 ht
      exact hnone p hp

/-- **The outcome of a case that is over accounts for every token that is left.**  It lists the marked places other than
the sink, and the transitions that take from one of them; there are none of the latter only if there are none of the
former.  So a deadlock with tokens left names both. -/
theorem outcome_accounts {net : Net} {id : CaseId} {limits : RunLimits} {actions : List Action}
    (hc : c = (launch net id limits).after actions) (hover : c.state.isTerminal = true) :
    ∃ o, c.outcome = .ok o ∧ c.Accounts o ∧
      (c.state = .deadlocked → c.marking.isEmpty = false → o.stranded ≠ [] ∧ o.blocked ≠ []) := by
  have hconsistent : c.Consistent := hc ▸ consistent_after net id limits actions
  obtain ⟨o, ho, haccounts⟩ := accounts_of_none hconsistent.size (hconsistent.rests hover)
  refine ⟨o, ho, haccounts, fun hdead hleft => ?_⟩
  obtain ⟨p, hp⟩ := Marking.exists_isMarked hleft
  have hstranded : o.stranded ≠ [] := by
    apply List.ne_nil_of_mem
    apply (haccounts.mem_stranded p).2
    refine ⟨hp, ?_⟩
    rintro rfl
    exact Bool.false_ne_true ((hconsistent.deadlocked hdead).1.symm.trans hp)
  exact ⟨hstranded, mt haccounts.blocked_eq_nil_iff.1 hstranded⟩

/-- The token on `y` is stranded for want of another one before `b`, with nothing on the sink or with a token there. -/
theorem detour_accounted :
    (∃ o, ((launch detour 1 {}).after [.fire 0 (.single 2), .fire 1 (.single 3)]).outcome = .ok o ∧
      ((launch detour 1 {}).after [.fire 0 (.single 2), .fire 1 (.single 3)]).Accounts o ∧
      o.state = .deadlocked ∧ o.stranded = [3] ∧ o.blocked = [2]) ∧
    ∃ o, ((launch detour 1 {}).after [.restore (TokenMap.ofList [("y", 1), ("o", 1)])]).outcome = .ok o ∧
      ((launch detour 1 {}).after [.restore (TokenMap.ofList [("y", 1), ("o", 1)])]).Accounts o ∧
      o.state = .completed ∧ o.stranded = [3] ∧ o.blocked = [2] := by
  constructor
  · obtain ⟨o, ho, haccounts, -⟩ :=
      outcome_accounts (c := (launch detour 1 {}).after [.fire 0 (.single 2), .fire 1 (.single 3)]) rfl rfl
    refine ⟨o, ho, haccounts, ?_⟩
    cases ho
    exact ⟨rfl, rfl, rfl⟩
  · obtain ⟨o, ho, haccounts, -⟩ :=
      outcome_accounts (c := (launch detour 1 {}).after [.restore (TokenMap.ofList [("y", 1), ("o", 1)])]) rfl rfl
    refine ⟨o, ho, haccounts, ?_⟩
    cases ho
    exact ⟨rfl, rfl, rfl⟩

end Case

end Workflow
