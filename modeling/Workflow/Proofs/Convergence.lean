import Mathlib.Order.WellQuasiOrder
import Workflow.Proofs.Limits
import Workflow.Proofs.OrJoin
/-!
# Convergence — a search ends by itself

The limits keep an analysis short, but they are not what makes it end.  No number gets smaller from round to round:
counts may grow, and so may the basis.  What cannot go on is that each round finds a marking above none that was found
before, for by Dickson's lemma no sequence of markings over the same places does that for ever
(`wellFounded_outgrows`).  So every net and every marking has limits that are wide enough, and any wider ones give the
same verdict (`orJoinVerdict_converges`).
-/
namespace Workflow

/-! ## What can outgrow what -/

/-- The markings of `bs`, over `n` places, stand for all that those of `as` stand for, and for more. -/
structure Outgrows (n : Nat) (bs as : List (List Nat)) : Prop where
  length : ∀ b ∈ bs, b.length = n
  keeps : ∀ a ∈ as, ∃ b ∈ bs, below b a = true
  gains : ∃ b ∈ bs, ∀ a ∈ as, below a b = false

theorem below_of_getD_le : ∀ {a b : List Nat}, (∀ p < a.length, a.getD p 0 ≤ b.getD p 0) → below a b = true
  | [], _, _ => by simp [below]
  | _ :: _, [], _ => by simp [below]
  | n :: a, m :: b, h => by
    rw [below, Bool.and_eq_true, decide_eq_true_eq]
    exact ⟨h 0 (Nat.zero_lt_succ _), below_of_getD_le fun p hp => h (p + 1) (Nat.succ_lt_succ hp)⟩

/-- **Dickson's lemma**, for counts over `n` places: in any sequence of them, some one lies below a later one. -/
theorem exists_lt_below {n : Nat} (f : Nat → List Nat) (hf : ∀ i, (f i).length = n) :
    ∃ i j, i < j ∧ below (f i) (f j) = true := by
  obtain ⟨i, j, hij, hle⟩ := wellQuasiOrdered_le fun i (p : Fin n) => (f i).getD p 0
  exact ⟨i, j, hij, below_of_getD_le fun p hp => hle ⟨p, hf i ▸ hp⟩⟩

/-- **Outgrowing comes to an end.** -/
theorem wellFounded_outgrows (n : Nat) : WellFounded (Outgrows n) := by
  rw [wellFounded_iff_isEmpty_descending_chain]
  refine ⟨fun ⟨e, he⟩ => ?_⟩
  choose a ha hnew using fun i => (he i).gains
  -- what has been gained once stays, perhaps on the strength of something below it
  have hstays : ∀ i d, ∃ b ∈ e (i + 1 + d), below b (a i) = true := by
    intro i d
    induction d with
    | zero => exact ⟨a i, ha i, below_refl (a i)⟩
    | succ d ih =>
      obtain ⟨b, hb, hbelow⟩ := ih
      obtain ⟨c, hc, hcb⟩ := (he (i + 1 + d)).keeps b hb
      have hlen : b.length = n := by
        rw [Nat.add_right_comm] at hb
        exact (he (i + d)).length b hb
      exact ⟨c, hc, below_trans (((he (i + 1 + d)).length c hc).trans hlen.symm) hcb hbelow⟩
  obtain ⟨i, j, hij, hle⟩ := exists_lt_below a fun i => (he i).length (a i) (ha i)
  obtain ⟨d, rfl⟩ := Nat.exists_eq_add_of_lt hij
  obtain ⟨b, hb, hbelow⟩ := hstays i d
  rw [Nat.add_right_comm] at hb
  have hlen : b.length = (a i).length := by
    rw [(he i).length (a i) (ha i)]
    exact (he (i + d)).length b hb
  exact absurd (below_trans hlen hbelow hle) (Bool.eq_false_iff.1 (hnew _ b hb))

/-! ## One round -/

namespace Search

variable {s : Search}

/-- A basis that can hold all that is taken up does not become too large. -/
theorem takeUp_ne_tooLarge : ∀ {l basis fresh : List (List Nat)}, basis.length + l.length ≤ s.limits.basis →
    s.takeUp l basis fresh ≠ .tooLarge
  | [], basis, fresh, _ => by
    intro h
    cases h
  | a :: l, basis, fresh, h => by
    rw [List.length_cons] at h
    unfold takeUp
    split
    · intro h
      cases h
    · split
      · exact takeUp_ne_tooLarge (by omega)
      · have hfilter := List.length_filter_le (fun b => !below a b) basis
        dsimp only
        rw [if_neg (by rw [List.length_cons]; omega)]
        exact takeUp_ne_tooLarge (by rw [List.length_cons]; omega)

theorem length_of_takeUp_grown {n : Nat} {l basis fresh basis' fresh' : List (List Nat)}
    (h : s.takeUp l basis fresh = .grown basis' fresh') (hl : ∀ a ∈ l, a.length = n)
    (hb : ∀ a ∈ basis, a.length = n) (hf : ∀ a ∈ fresh, a.length = n) : ∀ a ∈ basis', a.length = n := by
  obtain ⟨-, -, hfresh, hbasis, -⟩ := takeUp_grown h hl hb
  exact fun a ha => (hbasis a ha).elim (hb a) fun ha => (hfresh a ha).elim (hf a) (hl a)

/-- **What a round that goes on has gained**: the new basis stands for the old one and for all that is fresh, and
nothing fresh lies above the old one. -/
theorem takeUp_gains {n : Nat} : ∀ {l basis fresh basis' fresh' : List (List Nat)},
    s.takeUp l basis fresh = .grown basis' fresh' → (∀ a ∈ l, a.length = n) → (∀ a ∈ basis, a.length = n) →
    (∀ a ∈ fresh, a.length = n) → (∀ a ∈ basis, ∃ b ∈ basis', below b a = true) ∧
      ∀ a ∈ fresh', a ∈ fresh ∨ (∃ b ∈ basis', below b a = true) ∧ ∀ c ∈ basis, below c a = false
  | [], basis, fresh, basis', fresh', h, _, _, _ => by
    cases h
    exact ⟨fun a ha => ⟨a, ha, below_refl a⟩, fun _ => .inl⟩
  | a :: l, basis, fresh, basis', fresh', h, hl, hb, hf => by
    obtain ⟨ha, hl'⟩ := List.forall_mem_cons.1 hl
    obtain ⟨-, ⟨-, h⟩ | ⟨hnew, h⟩⟩ := takeUp_cons_grown h
    · exact takeUp_gains h hl' hb hf
    · have hb' : ∀ b ∈ a :: basis.filter (fun b => !below a b), b.length = n :=
        List.forall_mem_cons.2 ⟨ha, fun b h => hb b (List.mem_filter.1 h).1⟩
      have hf' : ∀ b ∈ a :: fresh, b.length = n := List.forall_mem_cons.2 ⟨ha, hf⟩
      obtain ⟨hkeeps, hfresh⟩ := takeUp_gains h hl' hb' hf'
      -- what `a` has driven out of the basis lies above whatever stands for `a` now
      obtain ⟨d, hd, hda⟩ := hkeeps a List.mem_cons_self
      have hdlen : d.length = a.length := (length_of_takeUp_grown h hl' hb' hf' d hd).trans ha.symm
      have hkept : ∀ b ∈ basis, ¬ below a b = true → b ∈ a :: basis.filter (fun b => !below a b) :=
        fun b hmem hab => List.mem_cons_of_mem _ (List.mem_filter.2 ⟨hmem, by simpa using hab⟩)
      refine ⟨fun b hmem => ?_, fun b hmem => ?_⟩
      · by_cases hab : below a b = true
        · exact ⟨d, hd, below_trans hdlen hda hab⟩
        · exact hkeeps b (hkept b hmem hab)
      · rcases hfresh b hmem with hmem | ⟨hstands, hnot⟩
        · rcases List.mem_cons.1 hmem with rfl | hmem
          · exact .inr ⟨⟨d, hd, hda⟩, hnew⟩
          · exact .inl hmem
        · refine .inr ⟨hstands, fun c hc => Bool.eq_false_iff.2 fun hcb => ?_⟩
          by_cases hac : below a c = true
          · have hab := below_trans (ha.trans (hb c hc).symm) hac hcb
            exact absurd hab (Bool.eq_false_iff.1 (hnot a List.mem_cons_self))
          · exact absurd hcb (Bool.eq_false_iff.1 (hnot c (hkept c hc hac)))

end Search

section

variable {r : ResetNet} {limits : AnalysisLimits} {source : Counts} {goal : List Nat} {k : Nat}
  {basis fresh basis' fresh' : List (List Nat)}

/-- **A round that finds something outgrows the basis.** -/
theorem Explored.outgrows (hr : r.TakesAlive) (h : Explored r goal k basis fresh)
    (htake : (r.search limits source).takeUp (minimals ((r.search limits source).candidates fresh)) basis [] =
      .grown basis' fresh') (hne : fresh' ≠ []) : Outgrows r.alive.length basis' basis := by
  have hcand : ∀ b ∈ (r.search limits source).candidates fresh, b.length = r.alive.length :=
    length_of_mem_candidates h
  have hmin : ∀ b ∈ minimals ((r.search limits source).candidates fresh), b.length = r.alive.length :=
    fun b hb => hcand b (mem_of_mem_minimals hcand hb)
  obtain ⟨hkeeps, hfresh⟩ := Search.takeUp_gains htake hmin h.basis_length (by simp)
  obtain ⟨a, ha⟩ := List.exists_mem_of_ne_nil fresh' hne
  obtain ⟨⟨b, hb, hba⟩, hnew⟩ := (hfresh a ha).resolve_left List.not_mem_nil
  have hlen := (h.round hr htake).1.basis_length
  refine ⟨hlen, hkeeps, b, hb, fun c hc => Bool.eq_false_iff.2 fun hcb => ?_⟩
  exact absurd (below_trans ((h.basis_length c hc).trans (hlen b hb).symm) hcb hba) (Bool.eq_false_iff.1 (hnew c hc))

/-! ## All rounds -/

/-- **From whatever basis, the search comes to its answer**, and limits beyond those it needs do not change it. -/
theorem explore_converges (hr : r.TakesAlive) (source : Counts) (basis : List (List Nat)) :
    ∀ {k : Nat} {fresh : List (List Nat)}, Explored r goal k basis fresh →
      ∃ N b, ∀ (limits : AnalysisLimits) (n : Nat), N ≤ limits.basis → N ≤ n →
        (r.search limits source).explore n basis fresh = .ok b := by
  induction basis using (wellFounded_outgrows r.alive.length).induction with
  | _ basis ih =>
    intro k fresh h
    cases fresh with
    | nil => exact ⟨0, false, fun _ n _ _ => by cases n <;> rfl⟩
    | cons a l =>
      -- a basis with room for all candidates of this round shows how the round ends within any wider limits
      let wide : AnalysisLimits :=
        ⟨0, basis.length + (minimals ((r.search {} source).candidates (a :: l))).length, 0⟩
      have hroom : (r.search wide source).takeUp (minimals ((r.search wide source).candidates (a :: l))) basis [] ≠
          .tooLarge := Search.takeUp_ne_tooLarge (Nat.le_refl _)
      have hsame : ∀ limits : AnalysisLimits, wide.basis ≤ limits.basis →
          (r.search limits source).takeUp (minimals ((r.search limits source).candidates (a :: l))) basis [] =
            (r.search wide source).takeUp (minimals ((r.search wide source).candidates (a :: l))) basis [] :=
        fun limits hle => by
          have hwithin : wide.Within limits := ⟨Nat.zero_le _, hle, Nat.zero_le _⟩
          exact (Search.takeUp_within (s := r.search wide source) hwithin _ basis []).resolve_left hroom
      cases hround : (r.search wide source).takeUp (minimals ((r.search wide source).candidates (a :: l))) basis [] with
      | tooLarge => exact absurd hround hroom
      | covered =>
        refine ⟨wide.basis + 1, true, fun limits n hbasis hn => ?_⟩
        obtain ⟨n, rfl⟩ := Nat.exists_eq_add_of_le' (Nat.le_trans (Nat.le_add_left 1 _) hn)
        rw [Search.explore, hsame limits (Nat.le_of_succ_le hbasis), hround]
      | grown basis' fresh' =>
        obtain ⟨h', -⟩ := h.round hr hround
        have hrest : ∃ N b, ∀ (limits : AnalysisLimits) (n : Nat), N ≤ limits.basis → N ≤ n →
            (r.search limits source).explore n basis' fresh' = .ok b := by
          by_cases hne : fresh' = []
          · subst hne
            exact ⟨0, false, fun _ n _ _ => by cases n <;> rfl⟩
          · exact ih basis' (h.outgrows hr hround hne) h'
        obtain ⟨N, b, hrest⟩ := hrest
        refine ⟨wide.basis + N + 1, b, fun limits n hbasis hn => ?_⟩
        obtain ⟨n, rfl⟩ := Nat.exists_eq_add_of_le' (Nat.le_trans (Nat.le_add_left 1 _) hn)
        rw [Search.explore, hsame limits (by omega), hround]
        exact hrest limits n (by omega) (by omega)

theorem canCover_converges (hr : r.TakesAlive) (source : Counts) (targets : List Nat) :
    ∃ N b, ∀ limits : AnalysisLimits, N ≤ limits.basis → N ≤ limits.rounds →
      (r.search limits source).canCover targets = .ok b := by
  by_cases halive : ∀ p ∈ targets, p ∈ r.alive
  · have hall : ∀ limits, targets.all (r.search limits source).alive.contains = true := fun limits => by
      simpa [ResetNet.search] using halive
    by_cases hbelow : below (r.goalOf targets) (r.alive.map source) = true
    · refine ⟨0, true, fun limits _ _ => ?_⟩
      unfold Search.canCover
      rw [if_pos (hall limits)]
      exact if_pos hbelow
    · obtain ⟨N, b, hN⟩ := explore_converges hr source _ (explored_goalOf r targets)
      refine ⟨N, b, fun limits hbasis hrounds => ?_⟩
      unfold Search.canCover
      rw [if_pos (hall limits)]
      exact (if_neg hbelow).trans (hN limits limits.rounds hbasis hrounds)
  · exact ⟨0, false, fun _ _ _ => canCover_of_dropped halive⟩

theorem firstLive_converges (hr : r.TakesAlive) (source : Counts) (marked : List PlaceId) : ∀ ps : List PlaceId,
    ∃ N o, ∀ limits : AnalysisLimits, N ≤ limits.basis → N ≤ limits.rounds →
      (r.search limits source).firstLive marked ps = .ok o
  | [] => ⟨0, none, fun _ _ _ => rfl⟩
  | p :: ps => by
    obtain ⟨N, b, hcan⟩ := canCover_converges hr source (marked ++ [p])
    obtain ⟨N', o, hrest⟩ := firstLive_converges hr source marked ps
    refine ⟨N + N', if b then some p else o, fun limits hbasis hrounds => ?_⟩
    unfold Search.firstLive
    rw [hcan limits (by omega) (by omega)]
    cases b with
    | true => rfl
    | false => exact hrest limits (by omega) (by omega)

end

/-! ## The verdict -/

namespace Net

/-- A limit on the branches of OR-splits that none of them reaches plays no part. -/
theorem exists_finishTransitions (net : Net) (t : TransitionId) (split : Connector) :
    ∃ fs, ∀ limits : AnalysisLimits, (split = .or → (net.postset t).length ≤ limits.branches) →
      net.finishTransitions limits t split = .ok fs := by
  cases split with
  | and | xor => exact ⟨_, fun _ _ => rfl⟩
  | or => exact ⟨_, fun _ h => if_neg (Nat.not_lt.2 (h rfl))⟩

theorem exists_taskTransitions (net : Net) : ∀ (t : TransitionId) (trs : List Transition),
    ∃ rs, ∀ limits : AnalysisLimits,
      (∀ i, (trs[i]?).map Transition.split = some .or → (net.postset (t + i)).length ≤ limits.branches) →
      net.taskTransitions limits t trs = .ok rs
  | _, [] => ⟨[], fun _ _ => rfl⟩
  | t, tr :: trs => by
    obtain ⟨fs, hfs⟩ := net.exists_finishTransitions t tr.split
    obtain ⟨rs, hrs⟩ := net.exists_taskTransitions (t + 1) trs
    refine ⟨net.startTransitions t tr.join ++ fs ++ rs, fun limits h => ?_⟩
    have hhere := hfs limits fun hor => h 0 (congrArg some hor)
    have hrest := hrs limits fun i hi => by
      rw [Nat.add_right_comm]
      exact h (i + 1) hi
    rw [taskTransitions, hhere, hrest]

theorem exists_toResetNet (net : Net) : ∃ r, ∀ limits : AnalysisLimits,
    (∀ u, (net.transitions[u]?).map Transition.split = some .or → (net.postset u).length ≤ limits.branches) →
    net.toResetNet limits = .ok r := by
  obtain ⟨rs, hrs⟩ := net.exists_taskTransitions 0 net.transitions
  simp only [Nat.zero_add] at hrs
  exact ⟨_, fun limits h => congrArg (Except.map _) (hrs limits h)⟩

theorem length_postset_le (net : Net) (u : TransitionId) : (net.postset u).length ≤ net.arcs.length := by
  unfold Graph.postset Graph.placesBeside
  rw [List.length_map]
  exact List.length_filter_le _ _

/-- **The analysis converges by itself.**  For every OR-join and every marking there is a number such that the verdict
comes, and is the same, within all limits that let every OR-split be spelled out and leave room for that many minimal
markings and that many rounds. -/
theorem orJoinVerdict_converges (net : Net) (t : TransitionId) (m : Marking)
    (hjoin : (net.transitions[t]?).map Transition.join = some .or) :
    ∃ N v, ∀ limits : AnalysisLimits,
      (∀ u, (net.transitions[u]?).map Transition.split = some .or → (net.postset u).length ≤ limits.branches) →
      N ≤ limits.basis → N ≤ limits.rounds → net.orJoinVerdict limits t m = .ok v := by
  obtain ⟨tr, htr, hor⟩ := Option.map_eq_some_iff.1 hjoin
  obtain ⟨r, hr⟩ := net.exists_toResetNet
  have hwell := wellFormed_toResetNet (hr { branches := net.arcs.length } fun u _ => net.length_postset_le u)
  have htakes := (((hwell.withoutStartsOf t).restrictBackward (net.preset t)).restrictForward m.marked).preset_alive
  obtain ⟨N, o, hlive⟩ := firstLive_converges htakes m.count ((net.preset t).filter m.isMarked)
    ((net.preset t).filter fun p => !m.isMarked p)
  by_cases hnone : ((net.preset t).filter m.isMarked).isEmpty = true
  · refine ⟨0, .unmarked, fun limits hwide _ _ => ?_⟩
    simp only [orJoinVerdict, orJoinNet, htr, if_pos hor, hr limits hwide, Except.map, if_pos hnone]
  · refine ⟨N, o.elim .enabled .liveBranch, fun limits hwide hbasis hrounds => ?_⟩
    simp only [orJoinVerdict, orJoinNet, htr, if_pos hor, hr limits hwide, Except.map, if_neg hnone,
      hlive limits hbasis hrounds]
    cases o <;> rfl

/-- A case `c` that waits for the news `k` of a spring `g`: `w` draws from it as often as it likes. -/
def spring : Net where
  places := [⟨"i", .source⟩, ⟨"c", .internal⟩, ⟨"g", .internal⟩, ⟨"h", .internal⟩, ⟨"k", .internal⟩, ⟨"o", .sink⟩]
  transitions := [⟨"a", .xor, .or⟩, ⟨"w", .xor, .and⟩, ⟨"b", .xor, .and⟩, ⟨"j", .or, .and⟩]
  arcs := [⟨0, 0, .input⟩, ⟨2, 0, .output⟩, ⟨1, 0, .output⟩, ⟨2, 1, .input⟩, ⟨2, 1, .output⟩, ⟨3, 1, .output⟩,
    ⟨3, 2, .input⟩, ⟨4, 2, .output⟩, ⟨1, 3, .input⟩, ⟨4, 3, .input⟩, ⟨5, 3, .output⟩]
  source := 0
  sink := 5

/-- There is no bound on the tokens on `h`, and still there is one on the search. -/
theorem spring_converges : (spring.transitions[3]?).map Transition.join = some .or ∧
    ∃ N, ∀ limits : AnalysisLimits, 2 ≤ limits.branches → N ≤ limits.basis → N ≤ limits.rounds →
      spring.orJoinVerdict limits 3 ⟨[0, 1, 1, 0, 0, 0]⟩ = .ok (.liveBranch 4) := by
  have hwide : ∀ limits : AnalysisLimits, 2 ≤ limits.branches → ∀ u,
      (spring.transitions[u]?).map Transition.split = some .or → (spring.postset u).length ≤ limits.branches
    | _, h, 0, _ => h
    | _, _, 1, h | _, _, 2, h | _, _, 3, h => nomatch h
    | _, _, _ + 4, h => nomatch h
  obtain ⟨N, v, hN⟩ := orJoinVerdict_converges spring 3 ⟨[0, 1, 1, 0, 0, 0]⟩ rfl
  have hdefault : spring.orJoinVerdict {} 3 ⟨[0, 1, 1, 0, 0, 0]⟩ = .ok (.liveBranch 4) := rfl
  -- limits wider than the default ones and wider than needed have to agree with both
  have hwithin : AnalysisLimits.Within {} ⟨12, 50000 + N, 10000 + N⟩ :=
    ⟨Nat.le_refl _, Nat.le_add_right _ _, Nat.le_add_right _ _⟩
  have hboth := (spring.upheld_orJoinVerdict hwithin 3 ⟨[0, 1, 1, 0, 0, 0]⟩).ok hdefault
  have htwo : 2 ≤ 12 := by decide
  rw [hN _ (hwide _ htwo) (Nat.le_add_left _ _) (Nat.le_add_left _ _)] at hboth
  cases hboth
  exact ⟨rfl, N, fun limits hbranches => hN limits (hwide limits hbranches)⟩

end Net

end Workflow
