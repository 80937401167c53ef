import Workflow.Evaluation
import Workflow.Firing.Eager
import Workflow.Proofs.Restriction
/-!
# Conversion — the transitions of a reset net

The starts and finishes of a task spell out the eager game: there is a start for each set of input places that
satisfies the join, and a finish for each set of output places that the split may choose (`mem_toResetNet`,
`exists_start`, `exists_finish`).
-/
namespace Workflow.Net

variable {net : Net} {limits : AnalysisLimits} {t u : TransitionId} {take put : List PlaceId} {p : PlaceId}

/-! ## The eager game touches only the neighbourhood of a transition -/

theorem mem_preset_of_mem_eagerTakes (h : take ∈ net.eagerTakes t) (hp : p ∈ take) : p ∈ net.preset t := by
  unfold eagerTakes at h
  split at h
  · cases h
  · rwa [List.mem_singleton.1 h] at hp
  all_goals
    obtain ⟨q, hq, rfl⟩ := List.mem_map.1 h
    rwa [List.mem_singleton.1 hp]

theorem mem_postset_of_mem_splitChoices (h : put ∈ net.splitChoices t) (hp : p ∈ put) : p ∈ net.postset t := by
  unfold splitChoices at h
  split at h
  · cases h
  · rwa [List.mem_singleton.1 h] at hp
  · obtain ⟨q, hq, rfl⟩ := List.mem_map.1 h
    rwa [List.mem_singleton.1 hp]
  · exact (mem_nonemptyChoices.1 h).1.subset hp

theorem lt_of_mem_eagerTakes (h : take ∈ net.eagerTakes t) : t < net.transitions.length := by
  unfold eagerTakes at h
  cases ht : net.transitions[t]? with
  | none => rw [ht] at h; cases h
  | some tr => exact (List.getElem?_eq_some_iff.1 ht).1

/-- Whoever starts takes a token: every transition has an input place. -/
theorem ne_nil_of_mem_eagerTakes (h : take ∈ net.eagerTakes t) : take ≠ [] := by
  have hpre := preset_ne_nil (lt_of_mem_eagerTakes h)
  unfold eagerTakes at h
  split at h
  · cases h
  · rwa [List.mem_singleton.1 h]
  all_goals
    obtain ⟨q, -, rfl⟩ := List.mem_map.1 h
    exact List.cons_ne_nil q []

theorem lt_of_mem_splitChoices (h : put ∈ net.splitChoices t) : t < net.transitions.length := by
  unfold splitChoices at h
  cases ht : net.transitions[t]? with
  | none => rw [ht] at h; cases h
  | some tr => exact (List.getElem?_eq_some_iff.1 ht).1

/-! ## Task by task -/

theorem mem_startTransitions {tr : Transition} (ht : net.transitions[t]? = some tr) {s : ResetTransition} :
    s ∈ net.startTransitions t tr.join →
      ∃ suffix, ∃ take ∈ net.eagerTakes t, s = net.startTransition t suffix take := by
  unfold startTransitions eagerTakes
  rw [ht, Option.map_some]
  cases tr.join with
  | and => exact fun hs => ⟨_, _, List.mem_singleton.2 rfl, List.mem_singleton.1 hs⟩
  | xor | or =>
    intro hs
    obtain ⟨p, hp, rfl⟩ := List.mem_map.1 hs
    exact ⟨_, _, List.mem_map.2 ⟨p, hp, rfl⟩, rfl⟩

theorem exists_mem_startTransitions {tr : Transition} (ht : net.transitions[t]? = some tr)
    (htake : take ∈ net.eagerTakes t) :
    ∃ suffix, net.startTransition t suffix take ∈ net.startTransitions t tr.join := by
  unfold eagerTakes at htake
  unfold startTransitions
  rw [ht, Option.map_some] at htake
  cases hj : tr.join with
  | and =>
    rw [hj] at htake
    obtain rfl := List.mem_singleton.1 htake
    exact ⟨_, List.mem_singleton.2 rfl⟩
  | xor | or =>
    rw [hj] at htake
    obtain ⟨p, hp, rfl⟩ := List.mem_map.1 htake
    exact ⟨_, List.mem_map.2 ⟨p, hp, rfl⟩⟩

theorem mem_finishTransitions {tr : Transition} (ht : net.transitions[t]? = some tr) {fs : List ResetTransition}
    (hfs : net.finishTransitions limits t tr.split = .ok fs) {s : ResetTransition} :
    s ∈ fs → ∃ suffix, ∃ put ∈ net.splitChoices t, s = net.finishTransition t suffix put := by
  unfold finishTransitions at hfs
  unfold splitChoices
  rw [ht, Option.map_some]
  cases hsplit : tr.split with
  | and =>
    rw [hsplit] at hfs
    cases hfs
    exact fun hs => ⟨_, _, List.mem_singleton.2 rfl, List.mem_singleton.1 hs⟩
  | xor =>
    rw [hsplit] at hfs
    cases hfs
    intro hs
    obtain ⟨p, hp, rfl⟩ := List.mem_map.1 hs
    exact ⟨_, _, List.mem_map.2 ⟨p, hp, rfl⟩, rfl⟩
  | or =>
    rw [hsplit] at hfs
    dsimp only at hfs
    split at hfs
    · cases hfs
    · cases hfs
      intro hs
      obtain ⟨c, hc, rfl⟩ := List.mem_map.1 hs
      exact ⟨_, _, hc, rfl⟩

theorem exists_mem_finishTransitions {tr : Transition} (ht : net.transitions[t]? = some tr) {fs : List ResetTransition}
    (hfs : net.finishTransitions limits t tr.split = .ok fs) (hput : put ∈ net.splitChoices t) :
    ∃ suffix, net.finishTransition t suffix put ∈ fs := by
  unfold finishTransitions at hfs
  unfold splitChoices at hput
  rw [ht, Option.map_some] at hput
  cases hsplit : tr.split with
  | and =>
    rw [hsplit] at hfs hput
    cases hfs
    obtain rfl := List.mem_singleton.1 hput
    exact ⟨_, List.mem_singleton.2 rfl⟩
  | xor =>
    rw [hsplit] at hfs hput
    cases hfs
    obtain ⟨p, hp, rfl⟩ := List.mem_map.1 hput
    exact ⟨_, List.mem_map.2 ⟨p, hp, rfl⟩⟩
  | or =>
    rw [hsplit] at hfs hput
    dsimp only at hfs
    split at hfs
    · cases hfs
    · cases hfs
      exact ⟨_, List.mem_map.2 ⟨put, hput, rfl⟩⟩

/-- **The transitions of all tasks are those of each one**, the tasks being numbered from `t` on. -/
theorem mem_taskTransitions : ∀ {t : TransitionId} {trs : List Transition} {rs : List ResetTransition},
    net.taskTransitions limits t trs = .ok rs →
    (∀ i tr, trs[i]? = some tr → ∃ fs, net.finishTransitions limits (t + i) tr.split = .ok fs) ∧
    ∀ s, s ∈ rs ↔ ∃ i tr, trs[i]? = some tr ∧ (s ∈ net.startTransitions (t + i) tr.join ∨
      ∃ fs, net.finishTransitions limits (t + i) tr.split = .ok fs ∧ s ∈ fs)
  | t, [], rs, h => by
    cases h
    simp
  | t, tr :: trs, rs, h => by
    unfold taskTransitions at h
    split at h
    · cases h
    · rename_i fs hfs
      split at h
      · cases h
      · rename_i rest hrest
        cases h
        obtain ⟨hall, hmem⟩ := mem_taskTransitions hrest
        have hshift : ∀ i : Nat, t + 1 + i = t + (i + 1) := fun i => by rw [Nat.add_right_comm]; rfl
        constructor
        · intro i tr' hi
          cases i with
          | zero =>
            obtain rfl : tr = tr' := by simpa using hi
            exact ⟨fs, hfs⟩
          | succ i => exact hshift i ▸ hall i tr' (by simpa using hi)
        · intro s
          rw [List.mem_append, List.mem_append, hmem]
          constructor
          · rintro ((hs | hs) | ⟨i, tr', hi, hs⟩)
            · exact ⟨0, tr, rfl, .inl hs⟩
            · exact ⟨0, tr, rfl, .inr ⟨fs, hfs, hs⟩⟩
            · exact ⟨i + 1, tr', by simpa using hi, hshift i ▸ hs⟩
          · rintro ⟨i, tr', hi, hs⟩
            cases i with
            | zero =>
              obtain rfl : tr = tr' := by simpa using hi
              rcases hs with hs | ⟨fs', hfs', hs⟩
              · exact .inl (.inl hs)
              · rw [Nat.add_zero, hfs] at hfs'
                cases hfs'
                exact .inl (.inr hs)
            | succ i => exact .inr ⟨i, tr', by simpa using hi, (hshift i).symm ▸ hs⟩

/-! ## The whole net -/

variable {r : ResetNet}

theorem taskTransitions_of_toResetNet (h : net.toResetNet limits = .ok r) :
    net.taskTransitions limits 0 net.transitions = .ok r.transitions ∧
      r.alive = List.range (net.places.length + net.transitions.length) ∧
      r.size = net.places.length + net.transitions.length := by
  unfold toResetNet at h
  obtain ⟨rs, htask, rfl⟩ := exists_ok_of_map h
  exact ⟨htask, rfl, by simp [ResetNet.size]⟩

/-- **A transition of the reset net starts or finishes a task**, in one of the ways of the eager game. -/
theorem mem_toResetNet (h : net.toResetNet limits = .ok r) {s : ResetTransition} (hs : s ∈ r.transitions) :
    (∃ t suffix, ∃ take ∈ net.eagerTakes t, s = net.startTransition t suffix take) ∨
      ∃ t suffix, ∃ put ∈ net.splitChoices t, s = net.finishTransition t suffix put := by
  obtain ⟨i, tr, hi, hs⟩ := ((mem_taskTransitions (taskTransitions_of_toResetNet h).1).2 s).1 hs
  rw [Nat.zero_add] at hs
  rcases hs with hs | ⟨fs, hfs, hs⟩
  · exact .inl ⟨i, mem_startTransitions hi hs⟩
  · exact .inr ⟨i, mem_finishTransitions hi hfs hs⟩

theorem exists_start (h : net.toResetNet limits = .ok r) (htake : take ∈ net.eagerTakes t) :
    ∃ suffix, net.startTransition t suffix take ∈ r.transitions := by
  have ht := List.getElem?_eq_getElem (lt_of_mem_eagerTakes htake)
  obtain ⟨suffix, hs⟩ := exists_mem_startTransitions ht htake
  refine ⟨suffix, ((mem_taskTransitions (taskTransitions_of_toResetNet h).1).2 _).2 ⟨t, _, ht, .inl ?_⟩⟩
  rwa [Nat.zero_add]

theorem exists_finish (h : net.toResetNet limits = .ok r) (hput : put ∈ net.splitChoices t) :
    ∃ suffix, net.finishTransition t suffix put ∈ r.transitions := by
  have ht := List.getElem?_eq_getElem (lt_of_mem_splitChoices hput)
  obtain ⟨hall, hmem⟩ := mem_taskTransitions (taskTransitions_of_toResetNet h).1
  obtain ⟨fs, hfs⟩ := hall t _ ht
  obtain ⟨suffix, hs⟩ := exists_mem_finishTransitions ht (by rwa [Nat.zero_add] at hfs) hput
  exact ⟨suffix, (hmem _).2 ⟨t, _, ht, .inr ⟨fs, hfs, hs⟩⟩⟩

theorem wellFormed_toResetNet (h : net.toResetNet limits = .ok r) : r.WellFormed := by
  obtain ⟨-, halive, hsize⟩ := taskTransitions_of_toResetNet h
  have hmem : ∀ p, p ∈ r.alive ↔ p < net.places.length + net.transitions.length := fun p => by
    rw [halive, List.mem_range]
  have hbusy : ∀ {t : TransitionId}, t < net.transitions.length → net.busyPlace t ∈ r.alive := fun ht =>
    (hmem _).2 (Nat.add_lt_add_left ht _)
  refine ⟨fun p hp => by rw [hsize]; exact (hmem p).1 hp, fun s hs p hp => ?_, fun s hs p hp => ?_⟩
  · rcases mem_toResetNet h hs with ⟨t, suffix, take, htake, rfl⟩ | ⟨t, suffix, put, hput, rfl⟩
    · exact (hmem p).2 (Nat.lt_add_right _ (Graph.lt_of_mem_preset (mem_preset_of_mem_eagerTakes htake hp)).1)
    · rw [List.mem_singleton.1 hp]
      exact hbusy (lt_of_mem_splitChoices hput)
  · rcases mem_toResetNet h hs with ⟨t, suffix, take, htake, rfl⟩ | ⟨t, suffix, put, hput, rfl⟩
    · rw [List.mem_singleton.1 hp]
      exact hbusy (lt_of_mem_eagerTakes htake)
    · exact (hmem p).2 (Nat.lt_add_right _ (Graph.lt_of_mem_postset (mem_postset_of_mem_splitChoices hput hp)).1)

end Workflow.Net
