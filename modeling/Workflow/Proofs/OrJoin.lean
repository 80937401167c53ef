import Workflow.OrJoin
import Workflow.Proofs.Conversion
/-!
# OrJoin — the verdict is exact

The analysis asks its questions of a restricted net and stops at the first answer that settles the matter.  Neither
changes the verdict: it is the one that the whole reset net gives, from which only the starts of the join have been
dropped (`orJoinVerdict_holds`).
-/
namespace Workflow

/-- What a verdict says about the runs of a reset net from `x`, for a join with these marked and these empty input
places. -/
def Verdict.Holds (r : ResetNet) (x : Counts) (marked empty : List PlaceId) : Verdict → Prop
  | .unmarked => marked = []
  | .enabled => marked ≠ [] ∧ ∀ p ∈ empty, ¬ r.Coverable x (marked ++ [p])
  | .liveBranch p => marked ≠ [] ∧ r.Coverable x (marked ++ [p]) ∧
    ∃ before after, empty = before ++ p :: after ∧ ∀ q ∈ before, ¬ r.Coverable x (marked ++ [q])

theorem Verdict.Holds.mem_empty {r : ResetNet} {x : Counts} {marked empty : List PlaceId} {p : PlaceId}
    (h : (Verdict.liveBranch p).Holds r x marked empty) : p ∈ empty := by
  obtain ⟨-, -, before, after, rfl, -⟩ := h
  exact List.mem_append_right _ List.mem_cons_self

theorem Verdict.Holds.isEnabled_iff {r : ResetNet} {x : Counts} {marked empty : List PlaceId} {v : Verdict}
    (h : v.Holds r x marked empty) (hne : marked ≠ []) :
    v.isEnabled = true ↔ ∀ p ∈ empty, ¬ r.Coverable x (marked ++ [p]) := by
  cases v with
  | unmarked => exact absurd h hne
  | enabled => exact ⟨fun _ => h.2, fun _ => rfl⟩
  | liveBranch p =>
    exact ⟨fun hv => (nomatch hv), fun hdead => absurd h.2.1 (hdead p h.mem_empty)⟩

/-- **The first place that can be covered is found**, if there is one: those before it cannot. -/
theorem Search.firstLive_ok {s : Search} {marked : List PlaceId} {live : PlaceId → Prop} :
    ∀ {ps : List PlaceId} {o : Option PlaceId},
    (∀ p ∈ ps, ∀ b, s.canCover (marked ++ [p]) = .ok b → (b = true ↔ live p)) → s.firstLive marked ps = .ok o →
    (o = none → ∀ p ∈ ps, ¬ live p) ∧
      ∀ p, o = some p → live p ∧ ∃ before after, ps = before ++ p :: after ∧ ∀ q ∈ before, ¬ live q
  | [], o, _, h => by
    cases h
    simp
  | p :: ps, o, hs, h => by
    obtain ⟨hp, hps⟩ := List.forall_mem_cons.1 hs
    unfold firstLive at h
    split at h
    · cases h
    · rename_i hcan
      cases h
      refine ⟨by simp, fun q hq => ?_⟩
      cases hq
      exact ⟨(hp true hcan).1 rfl, [], ps, rfl, by simp⟩
    · rename_i hcan
      have hdead : ¬ live p := fun hlive => by simpa using (hp false hcan).2 hlive
      obtain ⟨hnone, hsome⟩ := firstLive_ok hps h
      refine ⟨fun ho => List.forall_mem_cons.2 ⟨hdead, hnone ho⟩, fun q hq => ?_⟩
      obtain ⟨hlive, before, after, rfl, hbefore⟩ := hsome q hq
      exact ⟨hlive, p :: before, after, rfl, List.forall_mem_cons.2 ⟨hdead, hbefore⟩⟩

namespace Net

variable {net : Net} {limits : AnalysisLimits} {t : TransitionId} {m : Marking} {v : Verdict} {r : ResetNet}

theorem orJoinNet_ok (h : net.orJoinNet limits t m = .ok r) : ∃ whole, net.toResetNet limits = .ok whole ∧
    r = ((whole.withoutStartsOf t).restrictBackward (net.preset t)).restrictForward m.marked := by
  unfold orJoinNet at h
  split at h
  · cases h
  · split at h
    · obtain ⟨whole, hr, rfl⟩ := exists_ok_of_map h
      exact ⟨whole, hr, rfl⟩
    · cases h

/-- **The restrictions change no answer** about input places of the join. -/
theorem coverable_restricted_iff {goal : List Nat} (hr : net.toResetNet limits = .ok r)
    (hgoal : ∀ p ∈ goal, p ∈ net.preset t) :
    ((∀ p ∈ goal, p ∈ (((r.withoutStartsOf t).restrictBackward (net.preset t)).restrictForward m.marked).alive) ∧
      (((r.withoutStartsOf t).restrictBackward (net.preset t)).restrictForward m.marked).Coverable m.count goal) ↔
      (r.withoutStartsOf t).Coverable m.count goal := by
  have hwell := (wellFormed_toResetNet hr).withoutStartsOf t
  have halive : ∀ p ∈ goal, p ∈ ((r.withoutStartsOf t).restrictBackward (net.preset t)).alive := fun p hp => by
    refine ResetNet.mem_alive_restrictBackward_of_mem _ (hgoal p hp) ?_
    show p ∈ r.alive
    rw [(taskTransitions_of_toResetNet hr).2.1, List.mem_range]
    exact Nat.lt_add_right _ (Graph.lt_of_mem_preset (hgoal p hp)).1
  have hmarked : ∀ p, 0 < m.count p → p ∈ m.marked := fun p hp =>
    Marking.mem_marked.2 (by simpa [Marking.isMarked] using hp)
  rw [ResetNet.coverable_restrictForward_iff (hwell.restrictBackward _) (fun p _ hp => hmarked p hp) halive]
  exact ResetNet.coverable_restrictBackward_iff hwell halive

/-- **A verdict is true of the reset net without the starts of the join**, not just of the part that was searched. -/
theorem orJoinVerdict_holds (h : net.orJoinVerdict limits t m = .ok v) : ∃ r, net.toResetNet limits = .ok r ∧
    v.Holds (r.withoutStartsOf t) m.count ((net.preset t).filter m.isMarked)
      ((net.preset t).filter (fun p => !m.isMarked p)) := by
  unfold orJoinVerdict at h
  split at h
  · cases h
  · rename_i restricted hnet
    obtain ⟨r, hr, rfl⟩ := orJoinNet_ok hnet
    refine ⟨r, hr, ?_⟩
    dsimp only at h
    generalize hmarked : (net.preset t).filter m.isMarked = marked at h ⊢
    generalize hempty : (net.preset t).filter (fun p => !m.isMarked p) = empty at h ⊢
    by_cases hnil : marked = []
    · rw [if_pos (List.isEmpty_iff.2 hnil)] at h
      cases h
      exact hnil
    · rw [if_neg (fun h => hnil (List.isEmpty_iff.1 h))] at h
      have hwell := (((wellFormed_toResetNet hr).withoutStartsOf t).restrictBackward (net.preset t)).restrictForward
        m.marked
      have hpreset : ∀ p ∈ empty, ∀ q ∈ marked ++ [p], q ∈ net.preset t := by
        subst hmarked hempty
        intro p hp q hq
        rcases List.mem_append.1 hq with hq | hq
        · exact (List.mem_filter.1 hq).1
        · rw [List.mem_singleton.1 hq]
          exact (List.mem_filter.1 hp).1
      have hsearch : ∀ p ∈ empty, ∀ b, ((((r.withoutStartsOf t).restrictBackward (net.preset t)).restrictForward
          m.marked).search limits m.count).canCover (marked ++ [p]) = .ok b →
          (b = true ↔ (r.withoutStartsOf t).Coverable m.count (marked ++ [p])) := fun p hp b hb =>
        (canCover_ok hwell.preset_alive hb).trans (coverable_restricted_iff hr (hpreset p hp))
      split at h
      · cases h
      · rename_i p hfirst
        cases h
        exact ⟨hnil, (Search.firstLive_ok hsearch hfirst).2 p rfl⟩
      · rename_i hfirst
        cases h
        exact ⟨hnil, (Search.firstLive_ok hsearch hfirst).1 rfl⟩

/-! ## The verdict itself -/

theorem count_busyPlace (hsize : m.size = net.places.length) (u : TransitionId) : m.count (net.busyPlace u) = 0 :=
  Marking.count_eq_zero_of_size_le (by rw [hsize]; exact Nat.le_add_right _ _)

/-- **The verdict is exact**: it depends on nothing but what runs of the reset net without the starts of `t`, of any
length and with no task under way at first, can bring about.  The join is enabled when none of them leads a token to an
empty input place with the marked ones still marked, and otherwise the first such place is the live branch. -/
theorem orJoinVerdict_exact (hsize : m.size = net.places.length) (h : net.orJoinVerdict limits t m = .ok v) :
    ∃ r, net.toResetNet limits = .ok r ∧ (∀ u, m.count (net.busyPlace u) = 0) ∧
      ∃ marked empty, marked = (net.preset t).filter m.isMarked ∧
        empty = (net.preset t).filter (fun p => !m.isMarked p) ∧
        (marked = [] → v.isEnabled = false ∧ v.liveBranch? = none) ∧
        (marked ≠ [] →
          (v.isEnabled = true ↔ ∀ p ∈ empty, ¬ (r.withoutStartsOf t).Coverable m.count (marked ++ [p])) ∧
          (v.isEnabled = true → v.liveBranch? = none) ∧
          (v.isEnabled = false → ∃ before p after, empty = before ++ p :: after ∧ v.liveBranch? = some p ∧
            (r.withoutStartsOf t).Coverable m.count (marked ++ [p]) ∧
            ∀ q ∈ before, ¬ (r.withoutStartsOf t).Coverable m.count (marked ++ [q]))) := by
  obtain ⟨r, hr, hv⟩ := orJoinVerdict_holds h
  refine ⟨r, hr, count_busyPlace hsize, _, _, rfl, rfl, fun hnil => ?_, fun hne => ⟨hv.isEnabled_iff hne, ?_⟩⟩
  · cases v with
    | unmarked => exact ⟨rfl, rfl⟩
    | enabled => exact absurd hnil hv.1
    | liveBranch p => exact absurd hnil hv.1
  · cases v with
    | unmarked => exact absurd hv hne
    | enabled => exact ⟨fun _ => rfl, fun hdisabled => nomatch hdisabled⟩
    | liveBranch p =>
      obtain ⟨-, hlive, before, after, hsplit, hbefore⟩ := hv
      exact ⟨fun henabled => (nomatch henabled), fun _ => ⟨before, p, after, hsplit, rfl, hlive, hbefore⟩⟩

/-- An offer `c` that waits for an answer `h`, unless `k` withdraws the question `n` before `b` takes it up. -/
def offer : Net where
  places := [⟨"i", .source⟩, ⟨"c", .internal⟩, ⟨"d", .internal⟩, ⟨"e", .internal⟩, ⟨"n", .internal⟩,
    ⟨"h", .internal⟩, ⟨"f", .internal⟩, ⟨"o", .sink⟩]
  transitions := [⟨"a", .xor, .or⟩, ⟨"k", .or, .and⟩, ⟨"b", .xor, .and⟩, ⟨"t", .or, .and⟩, ⟨"z", .xor, .and⟩]
  arcs := [⟨0, 0, .input⟩, ⟨1, 0, .output⟩, ⟨2, 0, .output⟩, ⟨3, 0, .output⟩, ⟨4, 0, .output⟩,
    ⟨2, 1, .input⟩, ⟨3, 1, .input⟩, ⟨6, 1, .output⟩, ⟨4, 2, .input⟩, ⟨5, 2, .output⟩,
    ⟨1, 3, .input⟩, ⟨5, 3, .input⟩, ⟨7, 3, .output⟩, ⟨6, 4, .input⟩, ⟨7, 4, .output⟩]
  source := 0
  sink := 7
  cancellations := [⟨1, .place 4⟩, ⟨1, .transition 2⟩]

/-- While the question is open, the offer waits for the answer, and some run brings it. -/
theorem offer_waits : offer.orJoinVerdict {} 3 ⟨[0, 1, 1, 0, 1, 0, 0, 0]⟩ = .ok (.liveBranch 5) ∧
    ∃ r, offer.toResetNet {} = .ok r ∧
      (r.withoutStartsOf 3).Coverable (Marking.mk [0, 1, 1, 0, 1, 0, 0, 0]).count [1, 5] := by
  have h : offer.orJoinVerdict {} 3 ⟨[0, 1, 1, 0, 1, 0, 0, 0]⟩ = .ok (.liveBranch 5) := rfl
  obtain ⟨r, hr, -, marked, empty, rfl, rfl, -, hexact⟩ := orJoinVerdict_exact rfl h
  obtain ⟨_, p, _, -, hp, hlive, -⟩ := (hexact (by decide)).2.2 rfl
  cases hp
  exact ⟨h, r, hr, hlive⟩

end Net

end Workflow
