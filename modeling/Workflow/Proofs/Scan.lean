import Mathlib.Tactic.Choose
import Workflow.Proofs.Blocking
/-!
# Scan — what is enabled, without looking at everything

An evaluation takes two shortcuts: an OR-join with all its input places marked, or none, is not analysed, and a
transition without a token before it is not looked at.  Neither shows.  Where the analysis has a verdict on every
OR-join, each transition is evaluated as its join alone would have it (`enablement_of_orJoinVerdict`, `exists_decides`),
and the enabled ones are found, all of them and in order (`enabledTransitions_ok`, `shortcuts_agree`).
-/
namespace Workflow

namespace Net

variable {net : Net} {limits : AnalysisLimits} {m : Marking} {t : TransitionId} {e : Enablement} {v : Verdict}
  {b : Bool} {take : List PlaceId} {ts : List TransitionId}

/-! ## Joins by themselves -/

/-- Whether the join of `t` is satisfied: for an OR-join, by analysis in any case. -/
def joinSatisfied (net : Net) (limits : AnalysisLimits) (m : Marking) (t : TransitionId) : Except Failure Bool :=
  match (net.transitions[t]?).map Transition.join with
  | none => .error (.badValue (.noSuchTransition t))
  | some .and => .ok ((net.preset t).all m.isMarked)
  | some .xor => .ok ((net.preset t).any m.isMarked)
  | some .or => (net.orJoinVerdict limits t m).map Verdict.isEnabled

/-- The places from which the join of `t` takes tokens: all, the first marked one, or all marked ones, in order. -/
def joinTake (net : Net) (m : Marking) (t : TransitionId) : List PlaceId :=
  match (net.transitions[t]?).map Transition.join with
  | none => []
  | some .and => net.preset t
  | some .xor => ((net.preset t).find? m.isMarked).toList
  | some .or => (net.preset t).filter m.isMarked

/-- `e` says of `t` what its join says: whether it is satisfied, what it takes, and which empty input place it waits
for. -/
structure Decides (net : Net) (limits : AnalysisLimits) (m : Marking) (t : TransitionId) (e : Enablement) : Prop where
  enabled_iff : e.isEnabled = true ↔ net.joinSatisfied limits m t = .ok true
  take_eq : ∀ take, e = .enabled take → take = net.joinTake m t
  waitFor_empty : ∀ p, e = .disabled (some p) → p ∈ net.preset t ∧ m.isMarked p = false
  waitFor_live : (net.transitions[t]?).map Transition.join = some .or → ∀ p, e = .disabled (some p) →
    ∃ v, net.orJoinVerdict limits t m = .ok v ∧ v.liveBranch? = some p

/-- **The shortcuts for OR-joins do not show**: where there is a verdict, it is what the evaluation says. -/
theorem enablement_of_orJoinVerdict (hjoin : (net.transitions[t]?).map Transition.join = some .or)
    (hv : net.orJoinVerdict limits t m = .ok v) : net.enablement limits m t =
      .ok (if v.isEnabled then .enabled ((net.preset t).filter m.isMarked) else .disabled v.liveBranch?) := by
  obtain ⟨r, -, hholds⟩ := orJoinVerdict_holds hv
  unfold enablement
  rw [hjoin]
  dsimp only
  by_cases hnil : (net.preset t).filter m.isMarked = []
  · rw [if_pos (List.isEmpty_iff.2 hnil)]
    cases v with
    | unmarked => rfl
    | enabled => exact absurd hnil hholds.1
    | liveBranch p => exact absurd hnil hholds.1
  · rw [if_neg (fun h => hnil (List.isEmpty_iff.1 h))]
    split
    · rename_i hlen
      have hall := List.length_filter_eq_length_iff.1 hlen
      cases v with
      | unmarked => exact absurd hholds hnil
      | enabled => rfl
      | liveBranch p =>
        obtain ⟨hp, hempty⟩ := List.mem_filter.1 hholds.mem_empty
        rw [hall p hp] at hempty
        cases hempty
    · rw [hv]
      rfl

theorem exists_decides_and (hjoin : (net.transitions[t]?).map Transition.join = some .and) :
    ∃ e, net.enablement limits m t = .ok e ∧ net.Decides limits m t e := by
  have hsat : net.joinSatisfied limits m t = .ok ((net.preset t).all m.isMarked) := by simp [joinSatisfied, hjoin]
  unfold enablement
  rw [hjoin]
  dsimp only
  split
  · rename_i q hfind
    have hq := List.mem_of_find?_eq_some hfind
    have hempty : m.isMarked q = false := by simpa using List.find?_some hfind
    have hnot : (net.preset t).all m.isMarked = false := List.all_eq_false.2 ⟨q, hq, by simp [hempty]⟩
    refine ⟨_, rfl, ⟨by simp [Enablement.isEnabled, hsat, hnot], by simp, ?_, by simp [hjoin]⟩⟩
    intro p hp
    cases hp
    exact ⟨hq, hempty⟩
  · rename_i hnone
    have hall : (net.preset t).all m.isMarked = true :=
      List.all_eq_true.2 fun p hp => by simpa using List.find?_eq_none.1 hnone p hp
    refine ⟨_, rfl, ⟨by simp [Enablement.isEnabled, hsat, hall], ?_, by simp, by simp⟩⟩
    intro take htake
    cases htake
    simp [joinTake, hjoin]

theorem exists_decides_xor (hjoin : (net.transitions[t]?).map Transition.join = some .xor) :
    ∃ e, net.enablement limits m t = .ok e ∧ net.Decides limits m t e := by
  have hsat : net.joinSatisfied limits m t = .ok ((net.preset t).any m.isMarked) := by simp [joinSatisfied, hjoin]
  unfold enablement
  rw [hjoin]
  dsimp only
  split
  · rename_i q hfind
    have hany : (net.preset t).any m.isMarked = true :=
      List.any_eq_true.2 ⟨q, List.mem_of_find?_eq_some hfind, List.find?_some hfind⟩
    refine ⟨_, rfl, ⟨by simp [Enablement.isEnabled, hsat, hany], ?_, by simp, by simp⟩⟩
    intro take htake
    cases htake
    simp [joinTake, hjoin, hfind]
  · rename_i hnone
    have hnot : (net.preset t).any m.isMarked = false := List.any_eq_false.2 (List.find?_eq_none.1 hnone)
    exact ⟨_, rfl, ⟨by simp [Enablement.isEnabled, hsat, hnot], by simp, by simp, by simp⟩⟩

theorem exists_decides_or (hjoin : (net.transitions[t]?).map Transition.join = some .or)
    (hv : net.orJoinVerdict limits t m = .ok v) :
    ∃ e, net.enablement limits m t = .ok e ∧ net.Decides limits m t e := by
  have hsat : net.joinSatisfied limits m t = .ok v.isEnabled := by simp [joinSatisfied, hjoin, hv, Except.map]
  refine ⟨_, enablement_of_orJoinVerdict hjoin hv, ?_⟩
  obtain ⟨r, -, hholds⟩ := orJoinVerdict_holds hv
  cases v with
  | unmarked => constructor <;> simp [Enablement.isEnabled, Verdict.isEnabled, Verdict.liveBranch?, hsat]
  | enabled =>
    constructor
    case take_eq =>
      intro take htake
      cases htake
      simp [joinTake, hjoin]
    all_goals simp [Enablement.isEnabled, Verdict.isEnabled, hsat]
  | liveBranch q =>
    constructor
    case waitFor_empty =>
      intro p hp
      cases hp
      simpa using List.mem_filter.1 hholds.mem_empty
    case waitFor_live =>
      intro _ p hp
      cases hp
      exact ⟨_, hv, rfl⟩
    all_goals simp [Enablement.isEnabled, Verdict.isEnabled, hsat]

/-- **Every transition is evaluated as its join has it.** -/
theorem exists_decides (h : net.joinSatisfied limits m t = .ok b) :
    ∃ e, net.enablement limits m t = .ok e ∧ net.Decides limits m t e := by
  unfold joinSatisfied at h
  cases hjoin : (net.transitions[t]?).map Transition.join with
  | none =>
    rw [hjoin] at h
    cases h
  | some join =>
    cases join with
    | and => exact exists_decides_and hjoin
    | xor => exact exists_decides_xor hjoin
    | or =>
      cases hv : net.orJoinVerdict limits t m with
      | error failure =>
        rw [hjoin, hv] at h
        cases h
      | ok v => exact exists_decides_or hjoin hv

/-! ## The candidates are enough -/

/-- A token before a transition lies on a place whose consumers are looked at. -/
theorem mem_candidates_iff_consumer : t ∈ net.candidates m ↔ ∃ p ∈ m.marked, t ∈ net.consumers p := by
  rw [mem_candidates]
  simp only [Marking.mem_marked, Graph.mem_consumers]
  exact exists_congr fun p => and_comm

/-- What is enabled has a token to take. -/
theorem mem_candidates_of_enabled (h : net.enablement limits m t = .ok (.enabled take)) : t ∈ net.candidates m := by
  obtain ⟨-, hmarked, e, he, hsub⟩ := enablement_take h
  exact mem_candidates_of_marks he fun p hp => Marking.isMarked_iff.1 (hmarked p (hsub p hp)).2

theorem pairwise_candidates (net : Net) (m : Marking) : (net.candidates m).Pairwise (· < ·) :=
  List.pairwise_lt_range.filter _

section Evaluated

/-! ### Once every candidate is evaluated -/

variable {e : TransitionId → Enablement}

theorem evaluations_of_ok (h : ∀ t ∈ net.candidates m, net.enablement limits m t = .ok (e t)) :
    net.evaluations limits m = .ok ((net.candidates m).map fun t => (t, e t)) := by
  apply mapM_of_ok
  intro t ht
  rw [h t ht]
  rfl

theorem enabledTransitions_of_ok (h : ∀ t ∈ net.candidates m, net.enablement limits m t = .ok (e t)) :
    net.enabledTransitions limits m = .ok ((net.candidates m).filter fun t => (e t).isEnabled) := by
  unfold enabledTransitions
  rw [evaluations_of_ok h]
  apply congrArg Except.ok
  dsimp only
  rw [List.filter_map, List.map_map]
  exact List.map_id' _

theorem firstEnabledOf_of_ok {take : TransitionId → List PlaceId} : ∀ {ts : List TransitionId},
    (∀ t ∈ ts, net.enablement limits m t = .ok (e t)) → (∀ t ∈ ts, ∀ l, e t = .enabled l → l = take t) →
    net.firstEnabledOf limits m ts = .ok ((ts.filter fun t => (e t).isEnabled).head?.map fun t => (t, take t))
  | [], _, _ => rfl
  | t :: ts, h, htake => by
    obtain ⟨ht, hts⟩ := List.forall_mem_cons.1 h
    obtain ⟨htt, htts⟩ := List.forall_mem_cons.1 htake
    rw [firstEnabledOf, ht]
    cases he : e t with
    | enabled l => simp [Enablement.isEnabled, he, htt l he]
    | disabled w => simpa [Enablement.isEnabled, he] using firstEnabledOf_of_ok hts htts

end Evaluated

theorem exists_evaluation (h : ∀ t ∈ net.candidates m, ∃ e, net.enablement limits m t = .ok e) :
    ∃ e : TransitionId → Enablement, ∀ t ∈ net.candidates m, net.enablement limits m t = .ok (e t) := by
  have : Nonempty Enablement := ⟨.disabled none⟩
  choose! e he using h
  exact ⟨e, he⟩

/-- **The list of enabled transitions is complete and in order.** -/
theorem enabledTransitions_ok (h : net.enabledTransitions limits m = .ok ts) :
    ts.Pairwise (· < ·) ∧ ∀ t, t ∈ ts ↔ ∃ take, net.enablement limits m t = .ok (.enabled take) := by
  have hall : ∀ t ∈ net.candidates m, ∃ e, net.enablement limits m t = .ok e := by
    obtain ⟨l, hl, -⟩ := exists_ok_of_map h
    exact (evaluations_ok hl).1
  obtain ⟨e, he⟩ := exists_evaluation hall
  rw [enabledTransitions_of_ok he] at h
  obtain rfl := Except.ok.inj h
  refine ⟨(net.pairwise_candidates m).filter _, fun t => ?_⟩
  rw [List.mem_filter]
  constructor
  · rintro ⟨ht, hen⟩
    rw [he t ht]
    cases het : e t with
    | enabled take => exact ⟨take, rfl⟩
    | disabled w => simp [Enablement.isEnabled, het] at hen
  · rintro ⟨take, hen⟩
    have ht := mem_candidates_of_enabled hen
    rw [he t ht] at hen
    exact ⟨ht, by simp [Enablement.isEnabled, Except.ok.inj hen]⟩

/-! ## The first enabled transition -/

theorem disabled_of_notMem_candidates (ht : t < net.transitions.length) (h : t ∉ net.candidates m) :
    ∃ w, net.enablement limits m t = .ok (.disabled w) := by
  have hdisabled (hdecided : ∃ e, net.enablement limits m t = .ok e ∧ net.Decides limits m t e) :
      ∃ w, net.enablement limits m t = .ok (.disabled w) := by
    obtain ⟨e, he, -⟩ := hdecided
    cases e with
    | enabled take => exact absurd (mem_candidates_of_enabled he) h
    | disabled w => exact ⟨w, he⟩
  cases hjoin : (net.transitions[t]?).map Transition.join with
  | none =>
    rw [List.getElem?_eq_getElem ht] at hjoin
    cases hjoin
  | some join =>
    cases join with
    | and => exact hdisabled (exists_decides_and hjoin)
    | xor => exact hdisabled (exists_decides_xor hjoin)
    | or =>
      have hnone : (net.preset t).filter m.isMarked = [] :=
        List.filter_eq_nil_iff.2 fun p hp hm => h (mem_candidates.2 ⟨p, hp, hm⟩)
      unfold enablement
      rw [hjoin]
      dsimp only
      rw [hnone]
      exact ⟨none, rfl⟩

/-- What is disabled is passed over. -/
theorem firstEnabledOf_append {us : List TransitionId} : ∀ {ts : List TransitionId},
    (∀ u ∈ ts, ∃ w, net.enablement limits m u = .ok (.disabled w)) →
    net.firstEnabledOf limits m (ts ++ us) = net.firstEnabledOf limits m us
  | [], _ => rfl
  | u :: ts, h => by
    obtain ⟨⟨w, hw⟩, hts⟩ := List.forall_mem_cons.1 h
    rw [List.cons_append, firstEnabledOf, hw]
    exact firstEnabledOf_append hts

theorem firstEnabledOf_ok : ∀ {ts : List TransitionId} {first : Option (TransitionId × List PlaceId)},
    net.firstEnabledOf limits m ts = .ok first →
    (first = none ∧ ∀ u ∈ ts, ∃ w, net.enablement limits m u = .ok (.disabled w)) ∨
    ∃ before t take after, first = some (t, take) ∧ ts = before ++ t :: after ∧
      (∀ u ∈ before, ∃ w, net.enablement limits m u = .ok (.disabled w)) ∧
      net.enablement limits m t = .ok (.enabled take)
  | [], _, h => by
    cases h
    exact .inl ⟨rfl, nofun⟩
  | u :: ts, first, h => by
    unfold firstEnabledOf at h
    split at h
    · cases h
    · rename_i take hen
      cases h
      exact .inr ⟨[], u, take, ts, rfl, rfl, nofun, hen⟩
    · rename_i w hw
      rcases firstEnabledOf_ok h with ⟨rfl, hts⟩ | ⟨before, t, take, after, rfl, rfl, hbefore, hen⟩
      · exact .inl ⟨rfl, List.forall_mem_cons.2 ⟨⟨w, hw⟩, hts⟩⟩
      · exact .inr ⟨u :: before, t, take, after, rfl, rfl, List.forall_mem_cons.2 ⟨⟨w, hw⟩, hbefore⟩, hen⟩

/-- **The first enabled transition is the first of all**: those before it have been found disabled. -/
theorem firstEnabled_eq_some_iff : net.firstEnabled limits m = .ok (some (t, take)) ↔
    net.enablement limits m t = .ok (.enabled take) ∧ ∀ u < t, ∃ w, net.enablement limits m u = .ok (.disabled w) := by
  have hsorted := net.pairwise_candidates m
  unfold firstEnabled
  constructor
  · intro h
    rcases firstEnabledOf_ok h with ⟨hnone, -⟩ | ⟨before, t', take', after, hfirst, heq, hbefore, ht⟩
    · cases hnone
    · cases hfirst
      refine ⟨ht, fun u hu => ?_⟩
      by_cases hcand : u ∈ net.candidates m
      · rw [heq] at hsorted hcand
        rcases List.mem_append.1 hcand with hin | hin
        · exact hbefore u hin
        · have hle : t ≤ u := by
            rcases List.mem_cons.1 hin with rfl | hin
            · exact Nat.le_refl u
            · exact Nat.le_of_lt ((List.pairwise_cons.1 (List.pairwise_append.1 hsorted).2.1).1 u hin)
          exact absurd hu (Nat.not_lt_of_le hle)
      · have htlt := lt_of_mem_candidates (mem_candidates_of_enabled ht)
        exact disabled_of_notMem_candidates (Nat.lt_trans hu htlt) hcand
  · rintro ⟨ht, hbefore⟩
    obtain ⟨before, after, heq⟩ := List.append_of_mem (mem_candidates_of_enabled ht)
    rw [heq] at hsorted ⊢
    have hpassed : ∀ u ∈ before, ∃ w, net.enablement limits m u = .ok (.disabled w) := fun u hu =>
      hbefore u ((List.pairwise_append.1 hsorted).2.2 u hu t List.mem_cons_self)
    rw [firstEnabledOf_append hpassed, firstEnabledOf, ht]

/-- Once all candidates are evaluated, the first of the enabled ones is known. -/
theorem firstEnabled_of_enabledTransitions (h : net.enabledTransitions limits m = .ok ts) :
    ∃ first, net.firstEnabled limits m = .ok first ∧ first.map Prod.fst = ts.head? := by
  have hall : ∀ t ∈ net.candidates m, ∃ e, net.enablement limits m t = .ok e := by
    obtain ⟨l, hl, -⟩ := exists_ok_of_map h
    exact (evaluations_ok hl).1
  obtain ⟨e, he⟩ := exists_evaluation hall
  rw [enabledTransitions_of_ok he] at h
  obtain rfl := Except.ok.inj h
  have htake : ∀ t ∈ net.candidates m, ∀ l, e t = .enabled l → l = (e t).take?.getD [] := by
    intro t _ l hl
    rw [hl]
    rfl
  refine ⟨_, firstEnabledOf_of_ok he htake, ?_⟩
  rw [Option.map_map]
  exact Option.map_id'

/-- **No first one, none at all.** -/
theorem firstEnabled_eq_none_iff : net.firstEnabled limits m = .ok none ↔ net.enabledTransitions limits m = .ok [] := by
  constructor
  · intro h
    rcases firstEnabledOf_ok h with ⟨-, hdisabled⟩ | ⟨before, t, take, after, hfirst, -⟩
    · obtain ⟨e, he⟩ := exists_evaluation fun t ht => (hdisabled t ht).elim fun w hw => ⟨_, hw⟩
      rw [enabledTransitions_of_ok he]
      refine congrArg Except.ok (List.filter_eq_nil_iff.2 fun t ht hen => ?_)
      obtain ⟨w, hw⟩ := hdisabled t ht
      rw [Except.ok.inj ((he t ht).symm.trans hw)] at hen
      cases hen
    · cases hfirst
  · intro h
    obtain ⟨first, hfirst, hhead⟩ := firstEnabled_of_enabledTransitions h
    rw [hfirst, Option.map_eq_none_iff.1 hhead]

/-! ## All transitions -/

theorem enabled_iff_joinSatisfied (h : net.joinSatisfied limits m t = .ok b) :
    (∃ take, net.enablement limits m t = .ok (.enabled take)) ↔ b = true := by
  obtain ⟨e, he, hdecides⟩ := exists_decides h
  have hiff := hdecides.enabled_iff
  rw [h] at hiff
  rw [he]
  cases e with
  | enabled take => simpa [Enablement.isEnabled] using hiff
  | disabled w => simpa [Enablement.isEnabled] using hiff

/-- **The shortcuts change nothing.**  If the join of every transition can be decided by itself, every transition is
evaluated, with the answer of its join; and of the consumers of marked places, the only transitions that are looked at,
those are found enabled whose join is satisfied, and so is the first of them with what its join takes. -/
theorem shortcuts_agree (h : ∀ t < net.transitions.length, ∃ b, net.joinSatisfied limits m t = .ok b) :
    (∀ t < net.transitions.length, ∃ e, net.enablement limits m t = .ok e ∧ net.Decides limits m t e) ∧
    (∀ t, t ∈ net.candidates m ↔ ∃ p ∈ m.marked, t ∈ net.consumers p) ∧
    ∃ ts, net.enabledTransitions limits m = .ok ts ∧ ts.Pairwise (· < ·) ∧
      (∀ t, t ∈ ts ↔ net.joinSatisfied limits m t = .ok true) ∧
      net.firstEnabled limits m = .ok (ts.head?.map fun t => (t, net.joinTake m t)) := by
  have hdecides : ∀ t < net.transitions.length, ∃ e, net.enablement limits m t = .ok e ∧ net.Decides limits m t e := by
    intro t ht
    obtain ⟨b, hb⟩ := h t ht
    exact exists_decides hb
  obtain ⟨e, he⟩ := exists_evaluation fun t ht => (hdecides t (lt_of_mem_candidates ht)).imp fun _ => And.left
  have hts := enabledTransitions_of_ok he
  obtain ⟨hsorted, hmem⟩ := enabledTransitions_ok hts
  refine ⟨hdecides, fun t => mem_candidates_iff_consumer, _, hts, hsorted, fun t => ?_, ?_⟩
  · rw [hmem]
    by_cases ht : t < net.transitions.length
    · obtain ⟨b, hb⟩ := h t ht
      rw [enabled_iff_joinSatisfied hb, hb, Except.ok.injEq]
    · have hnone : (net.transitions[t]?).map Transition.join = none := by simpa using ht
      simp [enablement, joinSatisfied, hnone]
  · refine firstEnabledOf_of_ok he fun t ht l hl => ?_
    obtain ⟨e', he', hdec⟩ := hdecides t (lt_of_mem_candidates ht)
    obtain rfl : e t = e' := Except.ok.inj ((he t ht).symm.trans he')
    exact hdec.take_eq l hl

/-- While the question is open, `k` and `b` can fire, and the offer waits for the answer. -/
theorem offer_scanned : offer.enabledTransitions {} ⟨[0, 1, 1, 0, 1, 0, 0, 0]⟩ = .ok [1, 2] ∧
    offer.firstEnabled {} ⟨[0, 1, 1, 0, 1, 0, 0, 0]⟩ = .ok (some (1, [2])) ∧
    offer.joinSatisfied {} ⟨[0, 1, 1, 0, 1, 0, 0, 0]⟩ 3 = .ok false ∧
    offer.Decides {} ⟨[0, 1, 1, 0, 1, 0, 0, 0]⟩ 3 (.disabled (some 5)) := by
  have hall : ∀ t < offer.transitions.length, ∃ b, offer.joinSatisfied {} ⟨[0, 1, 1, 0, 1, 0, 0, 0]⟩ t = .ok b
    | 0, _ => ⟨false, rfl⟩
    | 1, _ => ⟨true, rfl⟩
    | 2, _ => ⟨true, rfl⟩
    | 3, _ => ⟨false, rfl⟩
    | 4, _ => ⟨false, rfl⟩
  have hts : offer.enabledTransitions {} ⟨[0, 1, 1, 0, 1, 0, 0, 0]⟩ = .ok [1, 2] := rfl
  have hwaits : offer.enablement {} ⟨[0, 1, 1, 0, 1, 0, 0, 0]⟩ 3 = .ok (.disabled (some 5)) := rfl
  obtain ⟨hdecides, -, ts, hts', -, hmem, hfirst⟩ := shortcuts_agree hall
  cases hts.symm.trans hts'
  obtain ⟨e, he, hoffer⟩ := hdecides 3 (by decide)
  cases hwaits.symm.trans he
  obtain ⟨b, hb⟩ := hall 3 (by decide)
  cases b with
  | false => exact ⟨hts, hfirst, hb, hoffer⟩
  | true => exact absurd ((hmem 3).2 hb) (by decide)

end Net

end Workflow
