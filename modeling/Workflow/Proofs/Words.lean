import Mathlib.Algebra.Group.Nat.Defs
import Workflow.Proofs.Predecessor
import Workflow.Proofs.Rounds
import Workflow.ResetNet.Words
/-!
# Words — counts never leave their words

One round of a search adds at most one token to a count: the fresh markings come from the round before, and a transition
has one arc at most from each input place.  So no count in round `k` is above `k + 1` (`WorksOut.le`), whatever the
source holds, and a search of fewer than 2³² - 1 rounds can be made in words of 32 bits (`canCoverInWords?_eq`).
-/
namespace Workflow

/-! ## The numbers of a search -/

namespace ResetNet

variable {net : Net} {l : AnalysisLimits} {r : ResetNet} {places : List Nat} {tr : ResetTransition}

theorem PartOf.remnantOf_restrict (h : PartOf net l r)
    (hr : ∃ whole origins, net.toResetNet l = .ok whole ∧ r.RemnantOf whole origins) (c : Restriction) :
    ∃ whole origins, net.toResetNet l = .ok whole ∧ (r.restrict c).RemnantOf whole origins := by
  obtain ⟨whole, origins, hwhole, hremnant⟩ := hr
  obtain ⟨origins', hremnant'⟩ := hremnant.restrict h.wellFormed c
  exact ⟨whole, origins', hwhole, hremnant'⟩

/-- Every part of a reset net is made up of places and transitions of the whole. -/
theorem PartOf.exists_remnantOf (h : PartOf net l r) :
    ∃ whole origins, net.toResetNet l = .ok whole ∧ r.RemnantOf whole origins := by
  induction h with
  | whole hr => exact ⟨_, _, hr, Net.remnantOf_whole hr⟩
  | withoutStartsOf t h ih => exact h.remnantOf_restrict ih (.withoutStartsOf t)
  | restrictBackward targets h ih => exact h.remnantOf_restrict ih (.backward targets)
  | restrictForward marked h ih => exact h.remnantOf_restrict ih (.forward marked)

theorem PartOf.alive_nodup (h : PartOf net l r) : r.alive.Nodup := by
  obtain ⟨whole, origins, hwhole, hremnant⟩ := h.exists_remnantOf
  have halive := hremnant.alive_sublist
  rw [(Net.taskTransitions_of_toResetNet hwhole).2.1] at halive
  exact List.nodup_range.sublist halive

theorem lt_of_mem_renumber {i : Nat} (h : i ∈ r.renumber places) : i < r.alive.length := by
  obtain ⟨p, -, hi⟩ := List.mem_filterMap.1 h
  exact (List.idxOf?_eq_some_iff.1 hi).1

theorem mem_renumber_iff (hr : r.alive.Nodup) {i : Nat} (hi : i < r.alive.length) :
    i ∈ r.renumber places ↔ r.alive[i] ∈ places := by
  unfold renumber
  rw [List.mem_filterMap]
  constructor
  · rintro ⟨p, hp, hidx⟩
    obtain ⟨_, rfl, _⟩ := List.idxOf?_eq_some_iff.1 hidx
    exact hp
  · intro hp
    refine ⟨_, hp, List.idxOf?_eq_some_iff.2 ⟨hi, rfl, fun j hj heq => ?_⟩⟩
    exact Nat.ne_of_lt hj (hr.getElem_inj_iff.1 heq)

theorem nodup_renumber (h : places.Nodup) : (r.renumber places).Nodup := by
  refine h.filterMap fun p q i hp hq => ?_
  obtain ⟨_, hi, -⟩ := List.idxOf?_eq_some_iff.1 hp
  obtain ⟨_, hi', -⟩ := List.idxOf?_eq_some_iff.1 hq
  exact hi.symm.trans hi'

/-- Under the numbers of a search, the effect on a number is the effect on the place that has it. -/
theorem map_effectOn_numbered (hr : r.alive.Nodup) (tr : ResetTransition) :
    (List.range r.alive.length).map (r.numbered tr).effectOn = r.alive.map tr.effectOn := by
  refine List.ext_getElem (by simp) fun i _ hi => ?_
  have hi : i < r.alive.length := by simpa using hi
  have hcontains (places : List Nat) : (r.renumber places).contains i = places.contains r.alive[i] := by
    rw [Bool.eq_iff_iff, List.contains_iff_mem, List.contains_iff_mem, mem_renumber_iff hr hi]
  rw [List.getElem_map, List.getElem_map, List.getElem_range]
  unfold ResetTransition.effectOn numbered
  dsimp only
  rw [hcontains, hcontains, hcontains]

theorem PartOf.resets_nodup (h : PartOf net l r) (htr : tr ∈ r.transitions) : tr.resets.Nodup := by
  obtain ⟨whole, origins, hwhole, hremnant⟩ := h.exists_remnantOf
  rw [hremnant.transitions_eq] at htr
  obtain ⟨origin, horigin, rfl⟩ := List.mem_map.1 htr
  refine List.Nodup.filter _ ?_
  rcases Net.mem_toResetNet hwhole (hremnant.origins_sublist.subset horigin) with
    ⟨t, suffix, take, -, rfl⟩ | ⟨t, suffix, put, -, rfl⟩
  · exact List.nodup_nil
  · exact nodup_eraseDups _

/-- **The transitions of a search have one arc of a kind at most to each place.** -/
theorem PartOf.numbered (h : PartOf net l r) (htr : tr ∈ r.transitions) :
    (r.numbered tr).Numbered r.alive.length := by
  obtain ⟨whole, origins, hwhole, hremnant⟩ := h.exists_remnantOf
  obtain ⟨-, hpreset, hpostset⟩ := hremnant.arcs hwhole tr htr
  exact ⟨nodup_renumber hpreset, nodup_renumber hpostset, nodup_renumber (h.resets_nodup htr),
    fun _ => lt_of_mem_renumber, fun _ => lt_of_mem_renumber, fun _ => lt_of_mem_renumber⟩

end ResetNet

/-! ## One addition after the other -/

theorem putInWord?_map {n p : Nat} {x : Counts} (hp : p < n) (hlt : x p + 1 < UInt32.size) :
    putInWord? ((List.range n).map x) p = some (putToken ((List.range n).map x) p) := by
  have hget : ((List.range n).map x)[p]? = some (x p) := by
    rw [List.getElem?_map, List.getElem?_range hp, Option.map_some]
  unfold putInWord?
  rw [hget]
  exact if_pos hlt

/-- **Each addition is made on a place of its own**, so all of them fit their words if each one does. -/
theorem foldlM_putInWord? (n : Nat) : ∀ {places : List Nat} (x : Counts), places.Nodup →
    (∀ p ∈ places, p < n ∧ x p + 1 < UInt32.size) →
    places.foldlM putInWord? ((List.range n).map x) = some (places.foldl putToken ((List.range n).map x))
  | [], _, _, _ => rfl
  | p :: places, x, hnodup, hfits => by
    obtain ⟨hp, hnodup⟩ := List.nodup_cons.1 hnodup
    obtain ⟨⟨hpn, hplt⟩, hfits⟩ := List.forall_mem_cons.1 hfits
    rw [List.foldlM_cons, putInWord?_map hpn hplt, List.foldl_cons, putToken, modify_map]
    refine foldlM_putInWord? n _ hnodup fun q hq => ⟨(hfits q hq).1, ?_⟩
    have hne : q ≠ p := fun heq => hp (heq ▸ hq)
    rw [if_neg hne]
    exact (hfits q hq).2

theorem ofList_le {a : List Nat} {k : Nat} (h : ∀ n ∈ a, n ≤ k) (p : Nat) : Counts.ofList a p ≤ k := by
  unfold Counts.ofList
  by_cases hp : p < a.length
  · rw [List.getD_eq_getElem _ _ hp]
    exact h _ (List.getElem_mem hp)
  · rw [List.getD_eq_default _ _ (Nat.le_of_not_lt hp)]
    exact Nat.zero_le k

/-- **Undoing fits in words** as long as one token more would fit on each place. -/
theorem undoInWords?_eq {tr : ResetTransition} {a : List Nat} {k : Nat} (h : tr.Numbered a.length)
    (ha : ∀ n ∈ a, n ≤ k) (hk : k + 1 < UInt32.size) : tr.undoInWords? a = some (tr.undo? a) := by
  have htaken : tr.postset.foldl takeToken a = (List.range a.length).map fun p =>
      if p ∈ tr.postset then Counts.ofList a p - 1 else Counts.ofList a p := by
    conv_lhs => rw [← map_ofList a]
    exact foldl_modify _ _ _ h.postset_nodup
  unfold ResetTransition.undoInWords? ResetTransition.undo?
  split
  · rfl
  · rw [htaken, foldlM_putInWord? _ _ h.preset_nodup fun p hp => ⟨h.preset_lt p hp, ?_⟩, Option.map_some]
    have hle := ofList_le ha p
    split <;> omega

/-! ## Round by round -/

theorem mapM_of_some {α β : Type} {f : α → Option β} {g : α → β} : ∀ {l : List α}, (∀ a ∈ l, f a = some (g a)) →
    l.mapM f = some (l.map g)
  | [], _ => rfl
  | a :: l, h => by
    obtain ⟨ha, hl⟩ := List.forall_mem_cons.1 h
    rw [List.mapM_cons, ha, mapM_of_some hl]
    rfl

section

variable {net : Net} {l limits : AnalysisLimits} {r : ResetNet} {source : Counts} {targets : List Nat}
  {goal a b : List Nat} {basis fresh : List (List Nat)} {k : Nat}

/-- What a search keeps after so many rounds is what it has explored by then. -/
theorem Search.After.explored (hr : r.TakesAlive)
    (h : (r.search limits source).After (r.goalOf targets) k basis fresh) :
    Explored r (r.goalOf targets) k basis fresh := by
  induction h with
  | start _ => exact explored_goalOf r targets
  | round _ _ _ htake ih => exact (ih.round hr htake).1

theorem Search.WorksOut.le_rounds {s : Search} (h : s.WorksOut goal k b) : k ≤ s.limits.rounds := by
  cases h with
  | goal => exact Nat.zero_le _
  | predecessor _ hk _ _ _ => exact hk
  | candidate _ hk _ => exact hk
  | kept _ hk _ _ _ => exact hk

/-- **No count in round `k` is above `k + 1`.** -/
theorem Search.WorksOut.le (hr : r.TakesAlive) (h : (r.search limits source).WorksOut (r.goalOf targets) k b) :
    ∀ n ∈ b, n ≤ k + 1 := by
  cases h with
  | goal => exact (explored_goalOf r targets).fresh_le _ List.mem_cons_self
  | predecessor hafter _ ha _ hpre => exact predecessor?_le hpre ((hafter.explored hr).fresh_le _ ha)
  | candidate hafter _ hb => exact le_of_mem_candidates (hafter.explored hr) b hb
  | @kept k basis fresh found basis' fresh' _ hafter _ hfound htake hb =>
    have h := hafter.explored hr
    have hcand : ∀ a ∈ (r.search limits source).candidates fresh, a.length = r.alive.length :=
      length_of_mem_candidates h
    have hmem : ∀ a ∈ found, a ∈ (r.search limits source).candidates fresh := fun a ha =>
      mem_of_mem_minimals hcand (hfound.subset ha)
    obtain ⟨-, -, hfresh, hbasis, -⟩ := Search.takeUp_grown htake (fun a ha => hcand a (hmem a ha)) h.basis_length
    have hnew : b ∈ fresh' → ∀ n ∈ b, n ≤ k + 2 := fun hb =>
      le_of_mem_candidates h b (hmem b ((hfresh b hb).resolve_left List.not_mem_nil))
    rcases hb with hb | hb
    · rcases hbasis b hb with hb | hb
      · exact fun n hn => Nat.le_succ_of_le (h.basis_le b hb n hn)
      · exact hnew hb
    · exact hnew hb

/-- What leads above a marking is found in words as it is found without them. -/
theorem ResetNet.leadsInWords?_eq (hr : ResetNet.PartOf net l r) (hlen : a.length = r.alive.length)
    (ha : ∀ n ∈ a, n ≤ k) (hk : k + 1 < UInt32.size) : r.leadsInWords? a =
      some (((r.search limits source).effects.filterMap (predecessor? · a)).filter (fun b => !below a b)) := by
  have hundo : ∀ tr ∈ r.transitions,
      (r.numbered tr).undoInWords? a = some (predecessor? (r.alive.map tr.effectOn) a) := by
    intro tr htr
    have hnumbered : (r.numbered tr).Numbered a.length := hlen ▸ hr.numbered htr
    rw [undoInWords?_eq hnumbered ha hk, undo?_eq_predecessor? hnumbered, hlen, map_effectOn_numbered hr.alive_nodup]
  have heffects : (r.search limits source).effects = r.transitions.map fun tr => r.alive.map tr.effectOn := rfl
  unfold leadsInWords?
  rw [mapM_of_some hundo, Option.map_some, heffects, List.filterMap_map, List.filterMap_map]
  rfl

/-- **A round in words**: what has been found after `k` rounds leaves room for one token more on each place. -/
theorem ResetNet.mapM_leadsInWords? (hr : ResetNet.PartOf net l r) (h : Explored r goal k basis fresh)
    (hk : k + 2 < UInt32.size) : ∃ found, fresh.mapM r.leadsInWords? = some found ∧
      found.flatten = (r.search limits source).candidates fresh := by
  have hleads : ∀ a ∈ fresh, r.leadsInWords? a =
      some (((r.search limits source).effects.filterMap (predecessor? · a)).filter (fun b => !below a b)) :=
    fun a ha => leadsInWords?_eq hr (h.fresh_length a ha) (h.fresh_le a ha) hk
  exact ⟨_, mapM_of_some hleads, List.flatMap_def.symm⟩

/-- **Round for round, the search in words is the search.** -/
theorem ResetNet.exploreInWords?_eq (hr : ResetNet.PartOf net l r) (hrounds : limits.rounds + 1 < UInt32.size) :
    ∀ {n k : Nat} {basis fresh : List (List Nat)}, k + n = limits.rounds → Explored r goal k basis fresh →
      r.exploreInWords? (r.search limits source) n basis fresh =
        some ((r.search limits source).explore n basis fresh)
  | n, _, _, [], _, _ => by cases n <;> rfl
  | 0, _, _, _ :: _, _, _ => rfl
  | n + 1, k, basis, a :: fresh, hk, h => by
    obtain ⟨found, hfound, hcandidates⟩ : ∃ found, (a :: fresh).mapM r.leadsInWords? = some found ∧
        found.flatten = (r.search limits source).candidates (a :: fresh) := mapM_leadsInWords? hr h (by omega)
    unfold exploreInWords? Search.explore
    rw [hfound, ← hcandidates]
    dsimp only
    cases htake : (r.search limits source).takeUp (minimals found.flatten) basis [] with
    | covered => rfl
    | tooLarge => rfl
    | grown basis' fresh' =>
      rw [hcandidates] at htake
      exact exploreInWords?_eq hr hrounds (by omega) (h.round hr.wellFormed.preset_alive htake).1

theorem ResetNet.canCoverInWords?_eq (hr : ResetNet.PartOf net l r) (hrounds : limits.rounds + 1 < UInt32.size) :
    r.canCoverInWords? limits source targets = some ((r.search limits source).canCover targets) := by
  have hsearch : (r.search limits source).canCover targets =
      if targets.all r.alive.contains then
        if below (r.goalOf targets) (r.alive.map source) then .ok true
        else (r.search limits source).explore limits.rounds [r.goalOf targets] [r.goalOf targets]
      else .ok false := rfl
  unfold canCoverInWords?
  rw [hsearch, exploreInWords?_eq hr hrounds (Nat.zero_add _) (explored_goalOf r targets)]
  split
  · split <;> rfl
  · rfl

end

/-- **Token counts stay within their words.**  In any part of a reset net and for any source and targets, no count that
comes up in round `k` of a search is above `k + 1`.  With at most 2³² - 2 rounds each of them is below 2³², and the
search made in words of 32 bits, with every addition checked, has the answer of the search. -/
theorem counts_fit_words {net : Net} {l limits : AnalysisLimits} {r : ResetNet} (hr : ResetNet.PartOf net l r)
    (hrounds : limits.rounds ≤ 2 ^ 32 - 2) (source : Counts) (targets : List Nat) :
    (∀ k a, (r.search limits source).WorksOut (r.goalOf targets) k a →
      k ≤ limits.rounds ∧ ∀ n ∈ a, n ≤ k + 1 ∧ n < 2 ^ 32) ∧
    r.canCoverInWords? limits source targets = some ((r.search limits source).canCover targets) := by
  refine ⟨fun k a h => ⟨h.le_rounds, fun n hn => ?_⟩, ResetNet.canCoverInWords?_eq hr ?_⟩
  · have hk : k ≤ limits.rounds := h.le_rounds
    have hle := h.le hr.wellFormed.preset_alive n hn
    omega
  · have hsize : UInt32.size = 2 ^ 32 := rfl
    omega

namespace Net

/-- What `u` hands on from `p` to `q` is no longer on `p`, so the join `t` does not wait for it. -/
def handover : Net where
  places := [⟨"i", .source⟩, ⟨"p", .internal⟩, ⟨"q", .internal⟩, ⟨"o", .sink⟩]
  transitions := [⟨"a", .xor, .and⟩, ⟨"u", .xor, .and⟩, ⟨"t", .or, .and⟩]
  arcs := [⟨0, 0, .input⟩, ⟨1, 0, .output⟩, ⟨1, 1, .input⟩, ⟨2, 1, .output⟩, ⟨1, 2, .input⟩, ⟨2, 2, .input⟩,
    ⟨3, 2, .output⟩]
  source := 0
  sink := 3

/-- The first round already asks for two tokens on `p`, one more than the goal has, and so reaches its bound. -/
theorem handover_fits : ∃ r : ResetNet, ResetNet.PartOf handover {} r ∧ ({} : AnalysisLimits).rounds ≤ 2 ^ 32 - 2 ∧
    (r.search {} (Marking.mk [0, 1, 0, 0]).count).WorksOut (r.goalOf [1, 2]) 1 [2, 1, 0] ∧
    (∀ a, (r.search {} (Marking.mk [0, 1, 0, 0]).count).WorksOut (r.goalOf [1, 2]) 1 a → ∀ n ∈ a, n ≤ 2) ∧
    r.canCoverInWords? {} (Marking.mk [0, 1, 0, 0]).count [1, 2] = some (.ok false) := by
  have hall : (handover.orJoinNet {} 2 ⟨[0, 1, 0, 0]⟩).map (fun r =>
      (below (r.goalOf [1, 2]) (r.alive.map (Marking.mk [0, 1, 0, 0]).count),
        (r.search {} (Marking.mk [0, 1, 0, 0]).count).effects.filterMap (predecessor? · (r.goalOf [1, 2])),
        (r.search {} (Marking.mk [0, 1, 0, 0]).count).canCover [1, 2])) =
      .ok (false, [[2, 1, 0], [1, 0, 1]], .ok false) := rfl
  obtain ⟨r, hr, hsearch⟩ := exists_ok_of_map hall
  obtain ⟨hgoal, hboth⟩ := Prod.mk.inj hsearch
  obtain ⟨hleads, hcan⟩ := Prod.mk.inj hboth
  have hpart : ResetNet.PartOf handover {} r := by
    obtain ⟨whole, hwhole, rfl⟩ := orJoinNet_ok hr
    exact .restrictForward _ (.restrictBackward _ (.withoutStartsOf 2 (.whole hwhole)))
  have hrounds : ({} : AnalysisLimits).rounds ≤ 2 ^ 32 - 2 := by decide
  obtain ⟨hsmall, hwords⟩ := counts_fit_words hpart hrounds (Marking.mk [0, 1, 0, 0]).count [1, 2]
  have hfirst : [2, 1, 0] ∈ (r.search {} (Marking.mk [0, 1, 0, 0]).count).effects.filterMap
      (predecessor? · (r.goalOf [1, 2])) := hleads ▸ List.mem_cons_self
  obtain ⟨row, hrow, hpre⟩ := List.mem_filterMap.1 hfirst
  refine ⟨r, hpart, hrounds, ?_, fun a ha n hn => ((hsmall 1 a ha).2 n hn).1, hwords.trans (congrArg some hcan)⟩
  have hfirstRound : 0 < ({} : AnalysisLimits).rounds := by decide
  exact .predecessor (.start hgoal) hfirstRound List.mem_cons_self hrow hpre

end Net

end Workflow
