import Workflow.Proofs.Eager
import Workflow.Proofs.Firing
import Workflow.Proofs.OrJoin
/-!
# Waiting — what an OR-join waits for

The analysis asks about runs of the reset net; what matters is what firings can bring about.  A join that is enabled
leaves nothing behind (`noLateBranch_of_enabled`).  A join that waits does so for a token that the eager game can bring,
unless every run that brings it clears an input place of a task that stays under way (`liveBranch_eagerRun_iff`).
Without cancellation the two agree (`isEnabled_iff_no_eagerRun`).
-/
namespace Workflow.Net

variable {net : Net} {limits : AnalysisLimits} {t u : TransitionId} {m m' : Marking} {r : ResetNet} {x y : Counts}
  {goal take : List PlaceId} {p : PlaceId}

/-! ## From the eager game to the reset net and back -/

/-- With no task under way, the eager game brings about what sparing runs do. -/
theorem eagerRun_marks_iff (hr : net.toResetNet limits = .ok r) (hx : ∀ b, x (net.busyPlace b) = 0)
    (hgoal : ∀ p ∈ goal, p < net.places.length) : (∃ y, net.EagerRun t x y ∧ y.Marks goal) ↔
      ∃ y, (r.withoutStartsOf t).SparingRun net x y ∧ y.Marks goal := by
  constructor
  · rintro ⟨y, hrun, hy⟩
    exact ⟨y, hrun.sparingRun hr hx, hy⟩
  · rintro ⟨y, hrun, hy⟩
    have hlag : net.Lags t [] x x := by
      refine ⟨fun e he => ?_, fun u => ?_, fun p _ => ?_⟩
      · cases he
      · rw [hx]
        exact Nat.zero_le _
      · exact Nat.le_refl _
    obtain ⟨z, heager, hz⟩ := SparingRun.eagerRun hr hrun hlag
    exact ⟨z, heager, fun p hp => Nat.lt_of_lt_of_le (hy p hp) (hz p (hgoal p hp))⟩

theorem EagerRun.coverable (hr : net.toResetNet limits = .ok r) (hx : ∀ b, x (net.busyPlace b) = 0)
    (h : net.EagerRun t x y) (hy : y.Marks goal) : (r.withoutStartsOf t).Coverable x goal := by
  obtain ⟨n, hrun⟩ := (h.sparingRun hr hx).run
  exact ⟨n, y, hrun, hy⟩

/-- Where cancellation reaches the tasks under way, the eager game brings about all that the reset net does. -/
theorem eagerRun_marks_iff_coverable (hr : net.toResetNet limits = .ok r) (hx : ∀ b, x (net.busyPlace b) = 0)
    (hgoal : ∀ p ∈ goal, p < net.places.length) (hnet : net.CancelsTasks t) :
    (∃ y, net.EagerRun t x y ∧ y.Marks goal) ↔ (r.withoutStartsOf t).Coverable x goal := by
  constructor
  · rintro ⟨y, hrun, hy⟩
    exact hrun.coverable hr hx hy
  · rintro ⟨n, y, hrun, hy⟩
    exact (eagerRun_marks_iff hr hx hgoal).2 ⟨y, Run.sparingRun hr hnet hrun (hx t), hy⟩

theorem lt_of_mem_goal (hp : p ∈ net.preset t) :
    ∀ q ∈ (net.preset t).filter m.isMarked ++ [p], q < net.places.length := by
  intro q hq
  rcases List.mem_append.1 hq with hq | hq
  · exact (Graph.lt_of_mem_preset (List.mem_filter.1 hq).1).1
  · rw [List.mem_singleton.1 hq]
    exact (Graph.lt_of_mem_preset hp).1

theorem marks_goal_iff : y.Marks ((net.preset t).filter m.isMarked ++ [p]) ↔
    (∀ q ∈ net.preset t, m.isMarked q = true → 0 < y q) ∧ 0 < y p := by
  simp only [Counts.Marks, List.forall_mem_append, List.forall_mem_singleton, List.mem_filter, and_imp]

/-! ## An enabled join leaves nothing behind -/

/-- **An enabled OR-join is not ahead of any token**: whatever other transitions fire, and however they choose, no run
of them marks an input place that was empty while all those the join would take from are marked. -/
theorem noLateBranch_of_enabled (hjoin : (net.transitions[t]?).map Transition.join = some .or)
    (hsize : m.size = net.places.length) (h : net.enablement limits m t = .ok (.enabled take))
    (hrun : net.RunWithout limits t m m') : ¬ ((∀ p ∈ take, m'.isMarked p = true) ∧
      ∃ p ∈ net.preset t, m.isMarked p = false ∧ m'.isMarked p = true) := by
  rintro ⟨htake, p, hp, hempty, hmarked⟩
  obtain ⟨rfl, -, hall | hv⟩ := enablement_or_take hjoin h
  · rw [hall p hp] at hempty
    cases hempty
  · obtain ⟨r, hr, -, hdead⟩ := orJoinVerdict_holds hv
    obtain ⟨y, heager, hy⟩ := hrun.eagerRun (Counts.Covers.refl _)
    refine hdead p (List.mem_filter.2 ⟨hp, by rw [hempty]; rfl⟩) (heager.coverable hr (count_busyPlace hsize) ?_)
    refine hy.marks fun q hq => Marking.isMarked_iff.1 ?_
    rcases List.mem_append.1 hq with hq | hq
    · exact htake q hq
    · rwa [List.mem_singleton.1 hq]

/-- The offer stays alone when `k` fires: it is enabled while `n` and `h` are empty. -/
theorem offer_noLateBranch : ¬ ((∀ p ∈ [1], (Marking.mk [0, 1, 0, 0, 0, 0, 1, 0]).isMarked p = true) ∧
    ∃ p ∈ offer.preset 3, (Marking.mk [0, 1, 1, 1, 0, 0, 0, 0]).isMarked p = false ∧
      (Marking.mk [0, 1, 0, 0, 0, 0, 1, 0]).isMarked p = true) := by
  have hfire : offer.fire {} ⟨[0, 1, 1, 1, 0, 0, 0, 0]⟩ 1 (.single 6) =
      .ok (Firing.ofParts 1 [2, 3] [6] [], ⟨[0, 1, 0, 0, 0, 0, 1, 0]⟩) := rfl
  have hrun : offer.RunWithout {} 3 ⟨[0, 1, 1, 1, 0, 0, 0, 0]⟩ ⟨[0, 1, 0, 0, 0, 0, 1, 0]⟩ :=
    .cons (by decide) hfire (.nil _)
  have hen : offer.enablement {} ⟨[0, 1, 1, 1, 0, 0, 0, 0]⟩ 3 = .ok (.enabled [1]) := rfl
  exact noLateBranch_of_enabled rfl rfl hen hrun

/-! ## What a waiting join waits for -/

/-- **A waiting join waits for a run of the reset net**, and the eager game has such a run exactly if one of them spares
the tasks under way.  When cancellation reaches the tasks under way, there always is one. -/
theorem liveBranch_eagerRun_iff (hsize : m.size = net.places.length)
    (h : net.orJoinVerdict limits t m = .ok (.liveBranch p)) :
    ∃ r goal, net.toResetNet limits = .ok r ∧ goal = (net.preset t).filter m.isMarked ++ [p] ∧
      (r.withoutStartsOf t).Coverable m.count goal ∧
      ((∃ y, net.EagerRun t m.count y ∧ y.Marks goal) ↔
        ∃ y, (r.withoutStartsOf t).SparingRun net m.count y ∧ y.Marks goal) ∧
      (net.CancelsTasks t → ∃ y, net.EagerRun t m.count y ∧ y.Marks goal) := by
  obtain ⟨r, hr, -, hlive, before, after, hsplit, -⟩ := orJoinVerdict_holds h
  have hp : p ∈ net.preset t := by
    have hmem : p ∈ (net.preset t).filter (fun q => !m.isMarked q) := by
      rw [hsplit]
      exact List.mem_append_right _ List.mem_cons_self
    exact (List.mem_filter.1 hmem).1
  exact ⟨r, _, hr, rfl, hlive, eagerRun_marks_iff hr (count_busyPlace hsize) (lt_of_mem_goal hp), fun hnet =>
    (eagerRun_marks_iff_coverable hr (count_busyPlace hsize) (lt_of_mem_goal hp) hnet).2 hlive⟩

theorem offer_liveBranch : ∃ y, offer.EagerRun 3 (Marking.mk [0, 1, 1, 0, 1, 0, 0, 0]).count y ∧ y.Marks [1, 5] := by
  have h : offer.orJoinVerdict {} 3 ⟨[0, 1, 1, 0, 1, 0, 0, 0]⟩ = .ok (.liveBranch 5) := rfl
  obtain ⟨_, _, -, rfl, -, -, heager⟩ := liveBranch_eagerRun_iff rfl h
  exact heager (by decide)

/-- `b` clears `x` and `y`, so it cannot be followed by `u`, but while `u` is under way its token is on neither. -/
def overtaking : Net where
  places := [⟨"i", .source⟩, ⟨"x", .internal⟩, ⟨"y", .internal⟩, ⟨"z", .internal⟩, ⟨"w", .internal⟩, ⟨"o", .sink⟩]
  transitions := [⟨"a", .xor, .and⟩, ⟨"u", .xor, .and⟩, ⟨"b", .xor, .and⟩, ⟨"t", .or, .and⟩]
  arcs := [⟨0, 0, .input⟩, ⟨1, 0, .output⟩, ⟨2, 0, .output⟩, ⟨3, 0, .output⟩, ⟨1, 1, .input⟩, ⟨2, 1, .output⟩,
    ⟨3, 2, .input⟩, ⟨4, 2, .output⟩, ⟨2, 3, .input⟩, ⟨4, 3, .input⟩, ⟨5, 3, .output⟩]
  source := 0
  sink := 5
  cancellations := [⟨2, .place 1⟩, ⟨2, .place 2⟩]

theorem overtaking_eagerFiring (hu : u ≠ 3) (h : overtaking.EagerFiring u x y) :
    (0 < x 0 ∧ y = x.move [0] [1, 2, 3] []) ∨ (0 < x 1 ∧ y = x.move [1] [2] []) ∨
      (0 < x 3 ∧ y = x.move [3] [4] [1, 2]) := by
  obtain ⟨htake, hput, hmarks⟩ := h
  have hlt : u < 4 := lt_of_mem_eagerTakes htake
  match u, hlt with
  | 0, _ =>
    cases List.mem_singleton.1 htake
    cases List.mem_singleton.1 hput
    exact .inl ⟨hmarks 0 (List.mem_singleton.2 rfl), rfl⟩
  | 1, _ =>
    cases List.mem_singleton.1 htake
    cases List.mem_singleton.1 hput
    exact .inr (.inl ⟨hmarks 1 (List.mem_singleton.2 rfl), rfl⟩)
  | 2, _ =>
    cases List.mem_singleton.1 htake
    cases List.mem_singleton.1 hput
    exact .inr (.inr ⟨hmarks 3 (List.mem_singleton.2 rfl), rfl⟩)
  | 3, _ => exact absurd rfl hu

/-- With no token on `i`, a token on `w` means that `x` and `y` have been cleared for good. -/
theorem overtaking_eagerRun (h : overtaking.EagerRun 3 x y) :
    x 0 = 0 ∧ (0 < x 4 → x 1 = 0 ∧ x 2 = 0) → y 0 = 0 ∧ (0 < y 4 → y 1 = 0 ∧ y 2 = 0) := by
  induction h with
  | nil x => exact id
  | @cons u x x' y hu hfire _ ih =>
    rintro ⟨hi, hw⟩
    refine ih ?_
    rcases overtaking_eagerFiring hu hfire with ⟨h0, -⟩ | ⟨h1, rfl⟩ | ⟨h3, rfl⟩
    · omega
    · have : x 4 = 0 := Nat.eq_zero_of_not_pos fun h4 => by have := hw h4; omega
      simp [Counts.move, hi, this]
    · simp [Counts.move, hi]

/-- The join waits for a token on `w` although no eager run brings one with `y` still marked: the run of the reset net
starts `u`, lets `b` pass, and then finishes `u`. -/
theorem overtaking_phantomWait : overtaking.orJoinVerdict {} 3 ⟨[0, 1, 1, 1, 0, 0]⟩ = .ok (.liveBranch 4) ∧
    ¬ ∃ y, overtaking.EagerRun 3 (Marking.mk [0, 1, 1, 1, 0, 0]).count y ∧
      y.Marks ((overtaking.preset 3).filter (Marking.mk [0, 1, 1, 1, 0, 0]).isMarked ++ [4]) := by
  refine ⟨rfl, ?_⟩
  rintro ⟨y, hrun, hy⟩
  obtain ⟨-, hcleared⟩ := overtaking_eagerRun hrun (by decide)
  have hy2 : 0 < y 2 := hy 2 (by decide)
  have hy4 : 0 < y 4 := hy 4 (by decide)
  have := hcleared hy4
  omega

/-! ## Nets without cancellation -/

theorem cancelsTasks_of_cancelsNothing (h : ∀ u ∈ net.transitionIds, net.cancelsNothing u = true) :
    net.CancelsTasks t := by
  intro b u _ _ p _ hcancel
  have hnone := h b (List.mem_range.2 (lt_of_mem_cancelledPlaces hcancel).2)
  simp only [cancelsNothing, Bool.and_eq_true, List.isEmpty_iff] at hnone
  rw [hnone.1] at hcancel
  cases hcancel

/-- **Without cancellation, an OR-join with a token is enabled exactly if it is not ahead of the eager game.** -/
theorem isEnabled_iff_no_eagerRun {e : Enablement} (hnone : ∀ u ∈ net.transitionIds, net.cancelsNothing u = true)
    (hjoin : (net.transitions[t]?).map Transition.join = some .or) (hsize : m.size = net.places.length)
    (hmarked : ∃ p ∈ net.preset t, m.isMarked p = true) (h : net.enablement limits m t = .ok e) :
    e.isEnabled = true ↔ ¬ ∃ y, net.EagerRun t m.count y ∧ (∀ p ∈ net.preset t, m.isMarked p = true → 0 < y p) ∧
      ∃ p ∈ net.preset t, m.isMarked p = false ∧ 0 < y p := by
  obtain ⟨q, hq, hqm⟩ := hmarked
  have hne : (net.preset t).filter m.isMarked ≠ [] := List.ne_nil_of_mem (List.mem_filter.2 ⟨hq, hqm⟩)
  rcases enablement_or hjoin h with ⟨hnil, -⟩ | ⟨-, hall, rfl⟩ | ⟨v, hv, -, rfl⟩
  · exact absurd hnil hne
  · refine ⟨fun _ => ?_, fun _ => rfl⟩
    rintro ⟨y, -, -, p, hp, hempty, -⟩
    rw [hall p hp] at hempty
    cases hempty
  · obtain ⟨r, hr, hholds⟩ := orJoinVerdict_holds hv
    have henabled : (if v.isEnabled then Enablement.enabled ((net.preset t).filter m.isMarked)
        else .disabled v.liveBranch?).isEnabled = v.isEnabled := by
      cases v.isEnabled <;> rfl
    rw [henabled, hholds.isEnabled_iff hne]
    have heager : ∀ p ∈ net.preset t,
        (∃ y, net.EagerRun t m.count y ∧ y.Marks ((net.preset t).filter m.isMarked ++ [p])) ↔
          (r.withoutStartsOf t).Coverable m.count ((net.preset t).filter m.isMarked ++ [p]) := fun p hp =>
      eagerRun_marks_iff_coverable hr (count_busyPlace hsize) (lt_of_mem_goal hp) (cancelsTasks_of_cancelsNothing hnone)
    constructor
    · rintro hdead ⟨y, hrun, hy, p, hp, hempty, hyp⟩
      refine hdead p (List.mem_filter.2 ⟨hp, by rw [hempty]; rfl⟩) ((heager p hp).1 ⟨y, hrun, ?_⟩)
      exact marks_goal_iff.2 ⟨hy, hyp⟩
    · intro hno p hp hlive
      obtain ⟨hp, hempty⟩ := List.mem_filter.1 hp
      obtain ⟨y, hrun, hy⟩ := (heager p hp).2 hlive
      exact hno ⟨y, hrun, (marks_goal_iff.1 hy).1, p, hp, by simpa using hempty, (marks_goal_iff.1 hy).2⟩

/-- A net in which `u` can supply `n` again and again. -/
def supply : Net where
  places := [⟨"i", .source⟩, ⟨"c", .internal⟩, ⟨"l", .internal⟩, ⟨"n", .internal⟩, ⟨"h", .internal⟩, ⟨"o", .sink⟩]
  transitions := [⟨"a", .xor, .and⟩, ⟨"u", .xor, .and⟩, ⟨"b", .xor, .and⟩, ⟨"t", .or, .and⟩]
  arcs := [⟨0, 0, .input⟩, ⟨1, 0, .output⟩, ⟨2, 0, .output⟩, ⟨2, 1, .input⟩, ⟨2, 1, .output⟩, ⟨3, 1, .output⟩,
    ⟨3, 2, .input⟩, ⟨4, 2, .output⟩, ⟨1, 3, .input⟩, ⟨4, 3, .input⟩, ⟨5, 3, .output⟩]
  source := 0
  sink := 5

/-- As long as `l` is marked the join waits, and once it is not, the join is enabled. -/
theorem supply_isEnabled : (∃ y, supply.EagerRun 3 (Marking.mk [0, 1, 1, 0, 0, 0]).count y ∧
      (∀ p ∈ supply.preset 3, (Marking.mk [0, 1, 1, 0, 0, 0]).isMarked p = true → 0 < y p) ∧
      ∃ p ∈ supply.preset 3, (Marking.mk [0, 1, 1, 0, 0, 0]).isMarked p = false ∧ 0 < y p) ∧
    ¬ ∃ y, supply.EagerRun 3 (Marking.mk [0, 1, 0, 0, 0, 0]).count y ∧
      (∀ p ∈ supply.preset 3, (Marking.mk [0, 1, 0, 0, 0, 0]).isMarked p = true → 0 < y p) ∧
      ∃ p ∈ supply.preset 3, (Marking.mk [0, 1, 0, 0, 0, 0]).isMarked p = false ∧ 0 < y p := by
  have hwaits : supply.enablement {} ⟨[0, 1, 1, 0, 0, 0]⟩ 3 = .ok (.disabled (some 4)) := rfl
  have henabled : supply.enablement {} ⟨[0, 1, 0, 0, 0, 0]⟩ 3 = .ok (.enabled [1]) := rfl
  constructor
  · refine Classical.byContradiction fun hno => ?_
    cases (isEnabled_iff_no_eagerRun (by decide) rfl rfl ⟨1, by decide, by decide⟩ hwaits).2 hno
  · exact (isEnabled_iff_no_eagerRun (by decide) rfl rfl ⟨1, by decide, by decide⟩ henabled).1 rfl

end Workflow.Net
