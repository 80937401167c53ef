import Workflow.Proofs.Conversion
/-!
# Eager — the eager game and the reset net

An eager firing is a start followed at once by a finish, so the reset net can do all that the eager game can
(`EagerRun.sparingRun`).  The converse fails: a task that is under way no longer has its tokens on its input places,
where a cancellation would reach them.  It holds for the runs in which no firing clears an input place of a task that
stays under way (`SparingRun.eagerRun`), and the nets in which who cancels an input place of a task also cancels the
task have no other runs (`Run.sparingRun`).
-/
namespace Workflow

theorem countP_erase_add {α : Type} [BEq α] [LawfulBEq α] {l : List α} {a : α} (h : a ∈ l) (f : α → Bool) :
    (l.erase a).countP f + (if f a then 1 else 0) = l.countP f := by
  rw [(List.perm_cons_erase h).countP_eq, List.countP_cons]

/-- No task that is still under way after the firing has an input place that the firing clears. -/
def ResetTransition.Spares (net : Net) (tr : ResetTransition) (x : Counts) : Prop :=
  ∀ u, 0 < tr.fire x (net.busyPlace u) → ∀ p ∈ net.preset u, p ∉ tr.resets

/-- Firings that spare the tasks under way lead from `x` to `y`. -/
inductive ResetNet.SparingRun (net : Net) (r : ResetNet) : Counts → Counts → Prop
  | nil (x : Counts) : SparingRun net r x x
  | cons {tr : ResetTransition} {x y : Counts} : tr ∈ r.transitions → tr.Enabled x → tr.Spares net x →
      SparingRun net r (tr.fire x) y → SparingRun net r x y

theorem ResetNet.SparingRun.run {net : Net} {r : ResetNet} {x y : Counts} (h : r.SparingRun net x y) :
    ∃ n, r.Run n x y := by
  induction h with
  | nil x => exact ⟨0, .nil x⟩
  | cons htr hen _ _ ih =>
    obtain ⟨n, hrun⟩ := ih
    exact ⟨n + 1, .cons htr hen hrun⟩

namespace Net

variable {net : Net} {limits : AnalysisLimits} {t u b : TransitionId} {take put : List PlaceId} {p : PlaceId}
  {suffix : String} {r : ResetNet} {x y z : Counts}

/-! ## What a finish clears -/

theorem mem_cancelledPlaces : p ∈ net.cancelledPlaces b ↔ ⟨b, .place p⟩ ∈ net.cancellations := by
  rw [cancelledPlaces, List.mem_filterMap]
  constructor
  · rintro ⟨⟨c, target⟩, hc, hsome⟩
    cases target with
    | transition u => cases hsome
    | place q =>
      obtain ⟨rfl, rfl⟩ : c = b ∧ q = p := by simpa using hsome
      exact hc
  · exact fun h => ⟨_, h, by simp⟩

theorem lt_of_mem_cancelledPlaces (h : p ∈ net.cancelledPlaces b) :
    p < net.places.length ∧ b < net.transitions.length :=
  (net.cancellations_inBounds _ (mem_cancelledPlaces.1 h)).symm

theorem ne_busyPlace (hp : p < net.places.length) (u : TransitionId) : p ≠ net.busyPlace u := by
  intro h
  rw [h, busyPlace] at hp
  exact absurd hp (Nat.not_lt.2 (Nat.le_add_right _ _))

theorem lt_or_eq_busyPlace (net : Net) (p : Nat) : p < net.places.length ∨ ∃ u, p = net.busyPlace u :=
  (Nat.lt_or_ge p net.places.length).imp_right fun hp => ⟨p - net.places.length, (Nat.add_sub_cancel' hp).symm⟩

theorem busyPlace_inj : net.busyPlace t = net.busyPlace u ↔ t = u :=
  Nat.add_left_cancel_iff

theorem mem_resetPlaces {q : Nat} : q ∈ net.resetPlaces b ↔ q ∈ net.cancelledPlaces b ∨
    ∃ u ∈ net.cancelledTransitions b, net.busyPlace u = q := by
  rw [resetPlaces, List.mem_eraseDups, List.mem_append, List.mem_map]

/-- Among the places of the net, a finish clears those that are cancelled. -/
theorem mem_resetPlaces_iff (hp : p < net.places.length) : p ∈ net.resetPlaces b ↔ p ∈ net.cancelledPlaces b := by
  rw [mem_resetPlaces]
  refine ⟨fun h => h.resolve_right ?_, .inl⟩
  rintro ⟨u, -, hu⟩
  exact ne_busyPlace hp u hu.symm

theorem busyPlace_mem_resetPlaces (hu : u ∈ net.cancelledTransitions b) : net.busyPlace u ∈ net.resetPlaces b :=
  mem_resetPlaces.2 (.inr ⟨u, hu, rfl⟩)

/-! ## Which transitions are left without the starts of the join -/

theorem mem_withoutStartsOf {tr : ResetTransition} : tr ∈ (r.withoutStartsOf t).transitions ↔
    tr ∈ r.transitions ∧ ¬ (tr.task = t ∧ tr.phase = .start) := by
  simp [ResetNet.withoutStartsOf, Decidable.imp_iff_not_or]

/-- **Starts of the other tasks, and all finishes.** -/
theorem mem_transitions_withoutStartsOf (hr : net.toResetNet limits = .ok r) {tr : ResetTransition}
    (htr : tr ∈ (r.withoutStartsOf t).transitions) :
    (∃ u suffix, ∃ take ∈ net.eagerTakes u, u ≠ t ∧ tr = net.startTransition u suffix take) ∨
      ∃ b suffix, ∃ put ∈ net.splitChoices b, tr = net.finishTransition b suffix put := by
  obtain ⟨hmem, hkept⟩ := mem_withoutStartsOf.1 htr
  rcases mem_toResetNet hr hmem with ⟨u, suffix, take, htake, rfl⟩ | hfinish
  · exact .inl ⟨u, suffix, take, htake, fun hu => hkept ⟨hu, rfl⟩, rfl⟩
  · exact .inr hfinish

/-! ## Firing a start and a finish, place by place -/

theorem fire_start_condition (hp : p < net.places.length) : (net.startTransition u suffix take).fire x p =
    x p - if p ∈ take then 1 else 0 := by
  unfold ResetTransition.fire startTransition Counts.move
  rw [if_neg List.not_mem_nil, if_neg (fun h => ne_busyPlace hp u (List.mem_singleton.1 h)), Nat.add_zero]

theorem fire_start_busy (htake : take ∈ net.eagerTakes u) (b : TransitionId) :
    (net.startTransition u suffix take).fire x (net.busyPlace b) =
      x (net.busyPlace b) + if b = u then 1 else 0 := by
  have hnot : net.busyPlace b ∉ take := fun h =>
    ne_busyPlace (Graph.lt_of_mem_preset (mem_preset_of_mem_eagerTakes htake h)).1 b rfl
  unfold ResetTransition.fire startTransition Counts.move
  rw [if_neg List.not_mem_nil, if_neg hnot, Nat.sub_zero]
  simp only [List.mem_singleton, busyPlace_inj]

theorem fire_finish_condition (hp : p < net.places.length) : (net.finishTransition b suffix put).fire x p =
    if p ∈ net.cancelledPlaces b then 0 else x p + if p ∈ put then 1 else 0 := by
  unfold ResetTransition.fire finishTransition Counts.move
  rw [if_neg (fun h => ne_busyPlace hp b (List.mem_singleton.1 h)), Nat.sub_zero]
  simp only [mem_resetPlaces_iff hp]

theorem fire_finish_busy (hput : put ∈ net.splitChoices b) (u : TransitionId) :
    (net.finishTransition b suffix put).fire x (net.busyPlace u) =
      if net.busyPlace u ∈ net.resetPlaces b then 0 else x (net.busyPlace u) - if u = b then 1 else 0 := by
  have hnot : net.busyPlace u ∉ put := fun h =>
    ne_busyPlace (Graph.lt_of_mem_postset (mem_postset_of_mem_splitChoices hput h)).1 u rfl
  unfold ResetTransition.fire finishTransition Counts.move
  rw [if_neg hnot, Nat.add_zero]
  simp only [List.mem_singleton, busyPlace_inj]

/-! ## An eager firing is a start and a finish -/

theorem move_busyPlace (htake : take ∈ net.eagerTakes u) (hput : put ∈ net.splitChoices u) (b : TransitionId) :
    x.move take put (net.cancelledPlaces u) (net.busyPlace b) = x (net.busyPlace b) := by
  have h1 : net.busyPlace b ∉ take := fun h =>
    ne_busyPlace (Graph.lt_of_mem_preset (mem_preset_of_mem_eagerTakes htake h)).1 b rfl
  have h2 : net.busyPlace b ∉ put := fun h =>
    ne_busyPlace (Graph.lt_of_mem_postset (mem_postset_of_mem_splitChoices hput h)).1 b rfl
  have h3 : net.busyPlace b ∉ net.cancelledPlaces u := fun h => ne_busyPlace (lt_of_mem_cancelledPlaces h).1 b rfl
  unfold Counts.move
  rw [if_neg h3, if_neg h1, if_neg h2, Nat.sub_zero, Nat.add_zero]

/-- **The start and the finish of a task make up its eager firing**, when no task is under way. -/
theorem fire_finish_start {suffix' : String} (htake : take ∈ net.eagerTakes u) (hput : put ∈ net.splitChoices u)
    (hx : ∀ b, x (net.busyPlace b) = 0) :
    (net.finishTransition u suffix' put).fire ((net.startTransition u suffix take).fire x) =
      x.move take put (net.cancelledPlaces u) := by
  funext p
  rcases net.lt_or_eq_busyPlace p with hp | ⟨b, rfl⟩
  · rw [fire_finish_condition hp, fire_start_condition hp]
    rfl
  · rw [fire_finish_busy hput, fire_start_busy htake, move_busyPlace htake hput, hx, Nat.zero_add, Nat.sub_self,
      ite_self]

/-- **The reset net can do what the eager game can**, and it spares the tasks under way, for there never are any. -/
theorem EagerRun.sparingRun (hr : net.toResetNet limits = .ok r) (h : net.EagerRun t x y)
    (hx : ∀ b, x (net.busyPlace b) = 0) : (r.withoutStartsOf t).SparingRun net x y := by
  induction h with
  | nil x => exact .nil x
  | @cons u x _ y hu hfire _ ih =>
    obtain @⟨take, put, _, htake, hput, hmarks⟩ := hfire
    obtain ⟨suffix, hstart⟩ := exists_start hr htake
    obtain ⟨suffix', hfinish⟩ := exists_finish hr hput
    have hmove : (net.finishTransition u suffix' put).fire ((net.startTransition u suffix take).fire x) =
        x.move take put (net.cancelledPlaces u) := fire_finish_start htake hput hx
    have hx' : ∀ b, x.move take put (net.cancelledPlaces u) (net.busyPlace b) = 0 := fun b => by
      rw [move_busyPlace htake hput, hx]
    refine .cons (mem_withoutStartsOf.2 ⟨hstart, fun h => hu h.1⟩) hmarks (fun _ _ _ _ => List.not_mem_nil) ?_
    refine .cons (mem_withoutStartsOf.2 ⟨hfinish, fun h => nomatch h.2⟩) (fun p hp => ?_) (fun b hb => ?_) ?_
    · rw [List.mem_singleton.1 hp, fire_start_busy htake, if_pos rfl]
      exact Nat.succ_pos _
    · rw [hmove, hx' b] at hb
      exact absurd hb (Nat.lt_irrefl 0)
    · rw [hmove]
      exact ih hx'

/-! ## The eager game lags behind -/

/-- The eager game in `z` has not yet fired the tasks that the reset net in `x` has started: what is left of the tokens
that these `pending` starts took still lies on the input places. -/
structure Lags (net : Net) (t : TransitionId) (pending : List (TransitionId × List PlaceId)) (x z : Counts) : Prop where
  takes : ∀ e ∈ pending, e.1 ≠ t ∧ e.2 ∈ net.eagerTakes e.1
  busy : ∀ u, x (net.busyPlace u) ≤ pending.countP (fun e => e.1 == u)
  held : ∀ p, p < net.places.length → x p + pending.countP (fun e => e.2.contains p) ≤ z p

variable {pending : List (TransitionId × List PlaceId)}

/-- A start is put off. -/
theorem Lags.start (h : net.Lags t pending x z) (hu : u ≠ t) (htake : take ∈ net.eagerTakes u) (hen : x.Marks take) :
    net.Lags t ((u, take) :: pending) ((net.startTransition u suffix take).fire x) z where
  takes := List.forall_mem_cons.2 ⟨⟨hu, htake⟩, h.takes⟩
  busy b := by
    have := h.busy b
    rw [fire_start_busy htake, List.countP_cons]
    by_cases hb : b = u
    · subst hb
      simpa using this
    · simpa [hb, Ne.symm hb] using this
  held p hp := by
    have := h.held p hp
    rw [fire_start_condition hp, List.countP_cons]
    by_cases hmem : p ∈ take
    · have := hen p hmem
      simp only [hmem, List.contains_iff_mem, if_true]
      omega
    · simpa [hmem] using this

/-- The starts whose tasks are still under way in `x`. -/
def stillUnderWay (net : Net) (x : Counts) (pending : List (TransitionId × List PlaceId)) :
    List (TransitionId × List PlaceId) :=
  pending.filter (fun e => 0 < x (net.busyPlace e.1))

theorem countP_stillUnderWay (hu : 0 < x (net.busyPlace u)) :
    (net.stillUnderWay x pending).countP (fun e => e.1 == u) = pending.countP (fun e => e.1 == u) := by
  rw [stillUnderWay, List.countP_filter]
  refine List.countP_congr fun e _ => ?_
  simp only [Bool.and_eq_true, beq_iff_eq, decide_eq_true_eq, and_iff_left_iff_imp]
  rintro rfl
  exact hu

/-- **A finish brings the eager firing that was put off.**  Of the starts still pending, those whose tasks have been
cancelled are forgotten. -/
theorem Lags.finish (h : net.Lags t pending x z) (hput : put ∈ net.splitChoices b) (hen : 0 < x (net.busyPlace b))
    (hspares : (net.finishTransition b suffix put).Spares net x) : ∃ pending' z', b ≠ t ∧ net.EagerFiring b z z' ∧
      net.Lags t pending' ((net.finishTransition b suffix put).fire x) z' := by
  obtain ⟨⟨b', take⟩, he, hb'⟩ : ∃ e ∈ pending, e.1 = b := by
    simpa using List.countP_pos_iff.1 (Nat.lt_of_lt_of_le hen (h.busy b))
  obtain rfl : b = b' := hb'.symm
  obtain ⟨hb, htake⟩ := h.takes _ he
  have hmarks : z.Marks take := fun p hp => by
    have hheld := h.held p (Graph.lt_of_mem_preset (mem_preset_of_mem_eagerTakes htake hp)).1
    rw [← countP_erase_add he, if_pos (List.contains_iff_mem.2 hp)] at hheld
    omega
  have hbusy : ∀ u, (net.finishTransition b suffix put).fire x (net.busyPlace u) ≤
      x (net.busyPlace u) - if u = b then 1 else 0 := fun u => by
    rw [fire_finish_busy hput]
    split
    · exact Nat.zero_le _
    · exact Nat.le_refl _
  refine ⟨net.stillUnderWay ((net.finishTransition b suffix put).fire x) (pending.erase (b, take)), _, hb,
    .mk htake hput hmarks, ⟨fun e hmem => ?_, fun u => ?_, fun p hp => ?_⟩⟩
  · exact h.takes e (List.mem_of_mem_erase (List.mem_filter.1 hmem).1)
  · rcases Nat.eq_zero_or_pos ((net.finishTransition b suffix put).fire x (net.busyPlace u)) with hu | hu
    · rw [hu]
      exact Nat.zero_le _
    · have hle := h.busy u
      rw [← countP_erase_add he] at hle
      simp only [beq_iff_eq, eq_comm (a := b)] at hle
      rw [countP_stillUnderWay hu]
      have := hbusy u
      omega
  · rw [fire_finish_condition hp, Counts.move]
    by_cases hcancel : p ∈ net.cancelledPlaces b
    -- a task still under way is spared, so none that is still pending took from the place cleared
    · rw [if_pos hcancel, if_pos hcancel, Nat.zero_add, Nat.le_zero, List.countP_eq_zero]
      intro e hmem hpe
      obtain ⟨hmem, hway⟩ := List.mem_filter.1 hmem
      refine hspares e.1 (by simpa using hway) p ?_ ((mem_resetPlaces_iff hp).2 hcancel)
      exact mem_preset_of_mem_eagerTakes (h.takes e (List.mem_of_mem_erase hmem)).2 (List.contains_iff_mem.1 hpe)
    · rw [if_neg hcancel, if_neg hcancel]
      have hheld := h.held p hp
      rw [← countP_erase_add he] at hheld
      have hkept : (net.stillUnderWay ((net.finishTransition b suffix put).fire x) (pending.erase (b, take))).countP
          (fun e => e.2.contains p) ≤ (pending.erase (b, take)).countP (fun e => e.2.contains p) :=
        List.filter_sublist.countP_le
      simp only [List.contains_iff_mem] at hheld hkept ⊢
      omega

/-- **Runs that spare the tasks under way are matched by the eager game**, with as many tokens on every place. -/
theorem SparingRun.eagerRun (hr : net.toResetNet limits = .ok r) (h : (r.withoutStartsOf t).SparingRun net x y) :
    ∀ {pending : List (TransitionId × List PlaceId)} {z : Counts}, net.Lags t pending x z →
      ∃ z', net.EagerRun t z z' ∧ ∀ p, p < net.places.length → y p ≤ z' p := by
  induction h with
  | nil x =>
    intro pending z hlag
    exact ⟨z, .nil z, fun p hp => Nat.le_trans (Nat.le_add_right _ _) (hlag.held p hp)⟩
  | cons htr hen hspares _ ih =>
    intro pending z hlag
    rcases mem_transitions_withoutStartsOf hr htr with ⟨u, suffix, take, htake, hu, rfl⟩ | ⟨b, suffix, put, hput, rfl⟩
    · exact ih (hlag.start hu htake hen)
    · obtain ⟨pending', z', hb, hfire, hlag'⟩ := hlag.finish hput (hen _ (List.mem_singleton.2 rfl)) hspares
      obtain ⟨z'', hrun, hz''⟩ := ih hlag'
      exact ⟨z'', .cons hb hfire hrun, hz''⟩

/-! ## When every run spares the tasks under way -/

/-- Whoever cancels an input place of a task cancels the task as well, `t` left out on both sides. -/
def CancelsTasks (net : Net) (t : TransitionId) : Prop :=
  ∀ b u, b ≠ t → u ≠ t → ∀ p ∈ net.preset u, p ∈ net.cancelledPlaces b → u ∈ net.cancelledTransitions b

theorem cancelsTasks_iff : net.CancelsTasks t ↔ net.transitionIds.all (fun b => net.transitionIds.all (fun u =>
    b == t || u == t || (net.preset u).all (fun p =>
      !(net.cancelledPlaces b).contains p || (net.cancelledTransitions b).contains u))) = true := by
  simp only [List.all_eq_true, Bool.or_eq_true, Bool.not_eq_true', beq_iff_eq, List.contains_iff_mem,
    ← Bool.not_eq_true, ← Decidable.imp_iff_not_or, or_assoc]
  constructor
  · intro h b _ u _
    refine Decidable.or_iff_not_imp_left.2 fun hb => Decidable.or_iff_not_imp_left.2 fun hu => ?_
    exact h b u hb hu
  · intro h b u hb hu p hp hcancel
    have hmem := h b (List.mem_range.2 (lt_of_mem_cancelledPlaces hcancel).2) u
      (List.mem_range.2 (Graph.lt_of_mem_preset hp).2)
    exact (hmem.resolve_left hb).resolve_left hu p hp hcancel

instance (net : Net) (t : TransitionId) : Decidable (net.CancelsTasks t) :=
  decidable_of_iff _ cancelsTasks_iff.symm

theorem Run.sparingRun {n : Nat} (hr : net.toResetNet limits = .ok r) (hnet : net.CancelsTasks t)
    (h : (r.withoutStartsOf t).Run n x y) (hx : x (net.busyPlace t) = 0) :
    (r.withoutStartsOf t).SparingRun net x y := by
  induction h with
  | nil x => exact .nil x
  | @cons tr n x y htr hen _ ih =>
    rcases mem_transitions_withoutStartsOf hr htr with ⟨u, suffix, take, htake, hu, rfl⟩ | ⟨b, suffix, put, hput, rfl⟩
    · refine .cons htr hen (fun _ _ _ _ => List.not_mem_nil) (ih ?_)
      rw [fire_start_busy htake, hx, if_neg (Ne.symm hu)]
    · have hb : b ≠ t := by
        rintro rfl
        exact absurd (hen _ (List.mem_singleton.2 rfl)) (by rw [hx]; exact Nat.lt_irrefl 0)
      have hx' : (net.finishTransition b suffix put).fire x (net.busyPlace t) = 0 := by
        rw [fire_finish_busy hput, hx, Nat.zero_sub, ite_self]
      refine .cons htr hen (fun u hu p hp hreset => ?_) (ih hx')
      have hut : u ≠ t := by
        rintro rfl
        rw [hx'] at hu
        exact Nat.lt_irrefl 0 hu
      have hcancel := (mem_resetPlaces_iff (Graph.lt_of_mem_preset hp).1).1 hreset
      rw [fire_finish_busy hput, if_pos (busyPlace_mem_resetPlaces (hnet b u hb hut p hp hcancel))] at hu
      exact Nat.lt_irrefl 0 hu

end Net

end Workflow
