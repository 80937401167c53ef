import Workflow.Proofs.Refusal
import Workflow.Proofs.Restoring
/-!
# Strides — a run keeps to its limit and tells the truth

The loop of a run has four ways out, and their order matters: patience is looked at before a step, the limit after it,
and only while something is still enabled.  Whatever happens, the run is a row of strides with one of the four endings
behind it (`drive_runsTo`), and what it answers is how the case then stands (`run_truthful`).
-/
namespace Workflow.Case

variable {router : Router} {routing : Routing} {c d e : Case} {f : Firing} {fs gs : List Firing} {m : Marking}
  {failure : Failure} {patience : Option Nat} {n k left : Nat} {result : Except Failure Outcome} {o : Outcome}

/-! ## One stride -/

theorem stride_iff : c.Stride router f d ↔ c.step router = (.ok (some f), d) := by
  constructor
  · rintro ⟨m, hnext, hsettle⟩
    obtain ⟨hactive, t, take, s, hfirst, hroute, hfire⟩ := nextFiring_iff.1 hnext
    unfold step
    rw [if_neg (not_isTerminal hactive), hfirst]
    dsimp only
    rw [hroute]
    dsimp only
    rw [fire_of_ok hactive hfire, hsettle]
    rfl
  · intro h
    cases stepsTo_of_step h with
    | @fires _ m state hnext hstate =>
      refine ⟨m, hnext, ?_⟩
      unfold settle
      rw [hstate]

theorem Stride.active (h : c.Stride router f d) : c.state = .active := by
  obtain ⟨m, hnext, -⟩ := h
  exact (nextFiring_iff.1 hnext).1

/-- A stride adds its firing to the log, and nothing else. -/
theorem Stride.logged (h : c.Stride router f d) : d.steps = c.steps + 1 ∧ d.changes = c.changes ++ f.changes := by
  obtain ⟨m, -, hsettle⟩ := h
  obtain ⟨state, -, rfl⟩ := settle_ok hsettle
  exact ⟨rfl, rfl⟩

theorem Stride.limits_eq (h : c.Stride router f d) : d.limits = c.limits := by
  obtain ⟨m, -, hsettle⟩ := h
  obtain ⟨state, -, rfl⟩ := settle_ok hsettle
  rfl

/-- **After a stride the case is settled**: it is over, or something is known to be enabled. -/
theorem Stride.settled (h : c.Stride router f d) :
    (d.state.isTerminal = true ∧ d.firstEnabled = .ok none) ∨
      (d.state = .active ∧ ∃ first, d.firstEnabled = .ok (some first)) := by
  obtain ⟨m, hnext, hsettle⟩ := h
  have hactive : (c.record f m).state = .active := (nextFiring_iff.1 hnext).1
  obtain ⟨state, hstate, rfl⟩ := settle_ok hsettle
  rcases settledState_ok hstate with ⟨hne, -⟩ | ⟨⟨t, ts, hen⟩, rfl⟩ | ⟨hnone, rfl⟩
  · exact absurd hactive hne
  · obtain ⟨first, hfirst, hhead⟩ := Net.firstEnabled_of_enabledTransitions hen
    obtain ⟨first, rfl, -⟩ := Option.map_eq_some_iff.1 hhead
    exact .inr ⟨rfl, first, hfirst⟩
  · refine .inl ⟨?_, Net.firstEnabled_eq_none_iff.2 hnone⟩
    dsimp only
    split <;> rfl

/-! ## Several strides -/

theorem Strides.logged (h : Strides routing fs c d) :
    d.steps = c.steps + fs.length ∧ d.changes = c.changes ++ fs.flatMap Firing.changes := by
  induction h with
  | nil c => exact ⟨rfl, by simp⟩
  | cons hstride _ ih =>
    obtain ⟨hsteps, hchanges⟩ := hstride.logged
    rw [ih.1, ih.2, hsteps, hchanges, List.flatMap_cons, List.length_cons]
    refine ⟨by omega, ?_⟩
    apply Array.toList_inj.1
    simp only [Array.toList_appendList, List.append_assoc]

theorem Strides.limits_eq (h : Strides routing fs c d) : d.limits = c.limits := by
  induction h with
  | nil c => rfl
  | cons hstride _ ih => exact ih.trans hstride.limits_eq

/-- The first strides of a row, and those with the routers of the steps after them. -/
theorem strides_append : Strides routing (fs ++ gs) c e ↔
    ∃ d, Strides routing fs c d ∧ Strides (routing.after fs.length) gs d e := by
  induction fs generalizing routing c with
  | nil =>
    refine ⟨fun h => ⟨c, .nil c, h⟩, ?_⟩
    rintro ⟨d, hnil, h⟩
    cases hnil
    exact h
  | cons f fs ih =>
    constructor
    · intro h
      cases h with
      | cons hstride h =>
        obtain ⟨d, hd, he⟩ := ih.1 h
        exact ⟨d, .cons hstride hd, he⟩
    · rintro ⟨d, hd, he⟩
      cases hd with
      | cons hstride hd => exact .cons hstride (ih.2 ⟨d, hd, he⟩)

/-- A row of strides, divided after the first `n`. -/
theorem Strides.split (h : Strides routing fs c e) (hn : n ≤ fs.length) :
    ∃ d, Strides routing (fs.take n) c d ∧ Strides (routing.after n) (fs.drop n) d e ∧ (fs.take n).length = n := by
  have hlen : (fs.take n).length = n := by rw [List.length_take, Nat.min_eq_left hn]
  rw [← List.take_append_drop n fs] at h
  obtain ⟨d, hd, he⟩ := strides_append.1 h
  rw [hlen] at he
  exact ⟨d, hd, he, hlen⟩

/-- Only an active case makes strides. -/
theorem Strides.eq_or_active (h : Strides routing fs c d) : d = c ∨ c.state = .active := by
  cases h with
  | nil => exact .inl rfl
  | cons hstride _ => exact .inr hstride.active

/-! ## What is left of a run after some strides -/

theorem drive_stride (h : c.Stride (routing 0) f d) :
    drive routing (left + 1) (patience.map (· + 1)) c = drive (routing.after 1) left patience d := by
  have hpatience : (patience.map (· + 1) == some 0) = false := by cases patience <;> rfl
  have hback : (patience.map (· + 1)).map (· - 1) = patience := by cases patience <;> rfl
  conv_lhs => unfold drive
  rw [hpatience, Bool.and_false, if_neg Bool.false_ne_true, stride_iff.1 h]
  dsimp only
  rw [hback]

/-- **A run goes on from where its strides have led**, with as many strides and as much patience as are left. -/
theorem drive_strides (h : Strides routing fs c d) : ∀ (left : Nat) (patience : Option Nat),
    drive routing (left + fs.length) (patience.map (· + fs.length)) c =
      drive (routing.after fs.length) left patience d := by
  induction h with
  | nil c =>
    intro left patience
    have hsame : patience.map (· + ([] : List Firing).length) = patience := by cases patience <;> rfl
    rw [hsame]
    rfl
  | @cons routing f fs c d e hstride _ ih =>
    intro left patience
    have hmap : patience.map (· + (f :: fs).length) = (patience.map (· + fs.length)).map (· + 1) := by
      cases patience <;> rfl
    rw [hmap]
    exact (drive_stride hstride).trans (ih left patience)

/-- **The limit cuts a run off only if something is left to do.** -/
theorem drive_all (h : Strides routing fs c d) (hfs : fs.length = left + 1) (patience : Option Nat) :
    drive routing left (patience.map (· + fs.length)) c =
      if d.state = .active then (.error (.stepLimit d.limits.steps), d) else (d.outcome, d) := by
  rcases List.eq_nil_or_concat fs with rfl | ⟨gs, f, rfl⟩
  · cases hfs
  rw [List.concat_eq_append] at h
  obtain ⟨x, hx, hlast⟩ := strides_append.1 h
  cases hlast with
  | cons hstride hnil =>
    cases hnil
    have hleft : left = 0 + gs.length := by simpa using hfs.symm
    have hmap : patience.map (· + (gs.concat f).length) = (patience.map (· + 1)).map (· + gs.length) := by
      cases patience with
      | none => rfl
      | some k => simp [Nat.add_comm, Nat.add_left_comm]
    have hpatience : (patience.map (· + 1) == some 0) = false := by cases patience <;> rfl
    rw [hmap, hleft, drive_strides hx]
    unfold drive
    rw [hpatience, Bool.and_false, if_neg Bool.false_ne_true, stride_iff.1 hstride]
    dsimp only
    rcases hstride.settled with ⟨hover, hnone⟩ | ⟨hactive, first, hfirst⟩
    · rw [hnone, if_neg]
      intro hactive
      rw [hactive] at hover
      cases hover
    · rw [hfirst, if_pos hactive]

theorem run_of_strides (h : Strides routing fs c d) (hfs : fs.length = max 1 c.limits.steps) (patience : Option Nat) :
    c.runWithRouting routing (patience.map (· + fs.length)) =
      if d.state = .active then (.error (.stepLimit c.limits.steps), d) else (d.outcome, d) := by
  have hleft : fs.length = c.limits.steps - 1 + 1 := by omega
  have hall := drive_all h hleft patience
  rwa [h.limits_eq] at hall

/-! ## The four endings -/

/-- An ending is the same one stride earlier, with one stride and one more patience to go. -/
theorem Ending.succ (h : Ending (routing.after 1) n patience k e result d) :
    Ending routing (n + 1) (patience.map (· + 1)) (k + 1) e result d := by
  have hmem (hk : ∀ l ∈ patience, k < l) : ∀ l ∈ patience.map (· + 1), k + 1 < l := by
    intro l hl
    obtain ⟨l', hl', rfl⟩ := Option.map_eq_some_iff.1 hl
    exact Nat.succ_lt_succ (hk l' hl')
  cases h with
  | rests hleft hstep => exact .rests (fun ha => ⟨Nat.succ_lt_succ (hleft ha).1, hmem (hleft ha).2⟩) hstep
  | cancelled hpatience hk ha => exact .cancelled (by rw [hpatience]; rfl) (Nat.succ_lt_succ hk) ha
  | cutOff hk hfirst => exact .cutOff (congrArg (· + 1) hk) hfirst
  | failed hk hpatience hstep => exact .failed (Nat.succ_lt_succ hk) (hmem hpatience) hstep

theorem Ending.runsTo (h : Ending routing n patience 0 c result d) : RunsTo routing n patience c result d :=
  ⟨[], c, .nil c, Nat.zero_le n, fun _ _ => Nat.zero_le _, h⟩

/-- A run is one stride longer, and needs one patience more. -/
theorem RunsTo.cons (hstride : c.Stride (routing 0) f e) (h : RunsTo (routing.after 1) n patience e result d) :
    RunsTo routing (n + 1) (patience.map (· + 1)) c result d := by
  obtain ⟨fs, x, hstrides, hlen, hk, hend⟩ := h
  refine ⟨f :: fs, x, .cons hstride hstrides, Nat.succ_le_succ hlen, fun k hmem => ?_, hend.succ⟩
  obtain ⟨l, hl, rfl⟩ := Option.map_eq_some_iff.1 hmem
  exact Nat.succ_le_succ (hk l hl)

/-- **A run is a row of strides with one of the four endings behind it**: by recursion on the strides that are left. -/
theorem drive_runsTo : ∀ (routing : Routing) (left : Nat) (patience : Option Nat) {c : Case},
    drive routing left patience c = (result, d) → RunsTo routing (left + 1) patience c result d
  | routing, left, patience, c, h => by
    unfold drive at h
    split at h
    · rename_i hcancel
      obtain ⟨hactive, hpatience⟩ := Bool.and_eq_true_iff.1 hcancel
      cases h
      have hactive : c.state = .active := active_of_not_isTerminal (by simpa using hactive)
      exact (Ending.cancelled (eq_of_beq hpatience) (Nat.succ_pos left) hactive).runsTo
    · rename_i hgo
      -- An active case is only here because its patience lasts for another step.
      have hpatient (hactive : c.state = .active) : ∀ k ∈ patience, 0 < k := by
        intro k hk
        refine Nat.pos_of_ne_zero fun hzero => hgo ?_
        rw [hactive, hk, hzero]
        rfl
      split at h
      · rename_i failure d' hstep
        cases h
        have hactive : c.state = .active := by
          refine active_of_not_isTerminal fun hover => ?_
          cases hstep.symm.trans (step_of_isTerminal hover (routing 0))
        exact (Ending.failed (Nat.succ_pos left) (hpatient hactive) hstep).runsTo
      · rename_i d' hstep
        cases h
        exact (Ending.rests (fun ha => ⟨Nat.succ_pos left, hpatient ha⟩) hstep).runsTo
      · rename_i f c' hstep
        have hstride := stride_iff.2 hstep
        have hsame : (patience.map (· - 1)).map (· + 1) = patience := by
          cases patience with
          | none => rfl
          | some k => exact congrArg some (Nat.succ_pred_eq_of_pos (hpatient hstride.active k rfl))
        rw [← hsame]
        split at h
        · rename_i left
          exact (drive_runsTo (routing.after 1) left _ h).cons hstride
        · refine RunsTo.cons hstride (Ending.runsTo ?_)
          rcases hstride.settled with ⟨hover, hnone⟩ | ⟨-, first, hfirst⟩
          · rw [hnone] at h
            cases h
            exact .rests (fun ha => absurd hover (not_isTerminal ha)) (step_of_isTerminal hover _)
          · rw [hfirst] at h
            cases h
            exact .cutOff rfl hfirst

theorem runWithRouting_runsTo (h : c.runWithRouting routing patience = (result, d)) :
    RunsTo routing (max 1 c.limits.steps) patience c result d := by
  have hn : c.limits.steps - 1 + 1 = max 1 c.limits.steps := by omega
  exact hn ▸ drive_runsTo _ _ _ h

/-! ## What is known of a case that is over -/

/-- An outcome reports the case as it stands. -/
theorem outcome_reports (h : c.outcome = .ok o) :
    o.case = c.id ∧ o.state = c.state ∧ o.steps = c.steps ∧ o.marking = c.marking := by
  obtain ⟨blocked, -, rfl⟩ := exists_ok_of_map h
  exact ⟨rfl, rfl, rfl, rfl⟩

/-- Once all candidates are evaluated, the outcome is known. -/
theorem exists_outcome {ts : List TransitionId} (h : c.enabledTransitions = .ok ts) : ∃ o, c.outcome = .ok o := by
  obtain ⟨l, hl, -⟩ := exists_ok_of_map h
  unfold outcome Net.blockedTransitions
  rw [hl]
  exact ⟨_, rfl⟩

/-- Nothing is enabled in a case that is over. -/
theorem Consistent.rests (hc : c.Consistent) (hover : c.state.isTerminal = true) : c.enabledTransitions = .ok [] := by
  cases hstate : c.state with
  | active =>
    rw [hstate] at hover
    cases hover
  | completed => exact (hc.completed hstate).2
  | deadlocked => exact (hc.deadlocked hstate).2
  | cancelled => exact enabledTransitions_of_isEmpty (hc.cancelled hstate)

theorem Consistent.active_of_firstEnabled {first : TransitionId × List PlaceId} (hc : c.Consistent)
    (hfirst : c.firstEnabled = .ok (some first)) : c.state = .active := by
  refine active_of_not_isTerminal fun hover => ?_
  cases hfirst.symm.trans (Net.firstEnabled_eq_none_iff.2 (hc.rests hover))

/-- A step that does not fire leaves a case that is over. -/
theorem isTerminal_of_step (h : c.step router = (.ok none, d)) : d.state.isTerminal = true ∧ d.steps = c.steps := by
  cases stepsTo_of_step h with
  | ended hover => exact ⟨hover, rfl⟩
  | rests _ _ hover => exact ⟨hover, rfl⟩

/-- A step that fails leaves the case active, with one firing more at most. -/
theorem active_of_step (h : c.step router = (.error failure, d)) : d.state = .active ∧ d.steps ≤ c.steps + 1 := by
  cases stepsTo_of_step h with
  | refused hactive => exact ⟨hactive, Nat.le_succ _⟩
  | unsettled hnext => exact ⟨(nextFiring_iff.1 hnext).1, Nat.le_refl _⟩

/-! ## The run tells the truth -/

theorem steps_cancel (c : Case) : c.cancel.steps = c.steps := by
  unfold cancel
  split <;> rfl

/-- **A run that answers has come to the end of the case, and one that fails has not.** -/
theorem Ending.answers (h : Ending routing n patience k e result d) (hd : d.Consistent) :
    (d.state.isTerminal = true ∧ ∃ o, d.outcome = .ok o ∧ result = .ok o) ∨
      (d.state = .active ∧ ∃ failure, result = .error failure) := by
  cases h with
  | rests _ hstep =>
    have hover := (isTerminal_of_step hstep).1
    obtain ⟨o, ho⟩ := exists_outcome (hd.rests hover)
    exact .inl ⟨hover, o, ho, ho⟩
  | cancelled _ _ ha =>
    have hover : e.cancel.state.isTerminal = true := by
      rw [state_cancel]
      rfl
    obtain ⟨o, ho⟩ := exists_outcome (hd.rests hover)
    exact .inl ⟨hover, o, ho, ho⟩
  | cutOff _ hfirst => exact .inr ⟨hd.active_of_firstEnabled hfirst, _, rfl⟩
  | failed _ _ hstep => exact .inr ⟨(active_of_step hstep).1, _, rfl⟩

/-- The firing that a failing step leaves behind is one that was still allowed. -/
theorem Ending.steps_le (h : Ending routing n patience k e result d) (hn : k ≤ n) (hk : ∀ l ∈ patience, k ≤ l) :
    d.steps + k ≤ e.steps + n ∧ ∀ l ∈ patience, d.steps + k ≤ e.steps + l := by
  cases h with
  | rests _ hstep =>
    rw [(isTerminal_of_step hstep).2]
    exact ⟨Nat.add_le_add_left hn _, fun l hl => Nat.add_le_add_left (hk l hl) _⟩
  | cancelled =>
    rw [steps_cancel]
    exact ⟨Nat.add_le_add_left hn _, fun l hl => Nat.add_le_add_left (hk l hl) _⟩
  | cutOff => exact ⟨Nat.add_le_add_left hn _, fun l hl => Nat.add_le_add_left (hk l hl) _⟩
  | failed hlt hpatient hstep =>
    obtain ⟨-, hle⟩ := active_of_step hstep
    refine ⟨by omega, fun l hl => ?_⟩
    have := hpatient l hl
    omega

/-- Only a run that has made all its strides speaks of its limit, unless the router of the next step speaks of one. -/
theorem Ending.of_stepLimit {l : Nat} (h : Ending routing n patience k e (.error (.stepLimit l)) d)
    (hd : d.Consistent) : d = e ∧
      ((k = n ∧ l = e.limits.steps ∧ ∃ first, e.firstEnabled = .ok (some first)) ∨
        k < n ∧ (∀ j ∈ patience, k < j) ∧ e.Unrouted (routing k) (.stepLimit l)) := by
  generalize hr : (.error (.stepLimit l) : Except Failure Outcome) = r at h
  rcases h.answers hd with ⟨-, o, -, ho⟩ | ⟨hactive, -⟩
  · cases hr.trans ho
  cases h with
  | rests _ hstep => exact absurd (isTerminal_of_step hstep).1 (not_isTerminal hactive)
  | cancelled => cases hactive.symm.trans e.state_cancel
  | cutOff hk hfirst =>
    cases hr
    exact ⟨rfl, .inl ⟨hk, rfl, _, hfirst⟩⟩
  | failed hk hpatient hstep =>
    cases hr
    rcases step_failure hstep with ⟨rfl, hrouter⟩ | hfiring
    · exact ⟨rfl, .inr ⟨hk, hpatient, hrouter⟩⟩
    · exact hfiring.elim

theorem RunsTo.bounded (h : RunsTo routing n patience c result d) :
    d.steps ≤ c.steps + n ∧ ∀ k ∈ patience, d.steps ≤ c.steps + k := by
  obtain ⟨fs, e, hstrides, hlen, hk, hend⟩ := h
  obtain ⟨hle, hlek⟩ := hend.steps_le hlen hk
  rw [hstrides.logged.1] at hle hlek
  refine ⟨by omega, fun k hmem => ?_⟩
  have := hlek k hmem
  omega

theorem RunsTo.answers (h : RunsTo routing n patience c result d) (hd : d.Consistent) :
    (d.state.isTerminal = true ∧ ∃ o, d.outcome = .ok o ∧ result = .ok o) ∨
      (d.state = .active ∧ ∃ failure, result = .error failure) := by
  obtain ⟨fs, e, -, -, -, hend⟩ := h
  exact hend.answers hd

theorem RunsTo.cutOff {l : Nat} (h : RunsTo routing n patience c (.error (.stepLimit l)) d) (hd : d.Consistent) :
    (l = c.limits.steps ∧ d.state = .active ∧ (∃ first, d.firstEnabled = .ok (some first)) ∧
      ∃ fs, Strides routing fs c d ∧ fs.length = n) ∨
    ∃ fs, Strides routing fs c d ∧ fs.length < n ∧ (∀ k ∈ patience, fs.length < k) ∧
      d.Unrouted (routing fs.length) (.stepLimit l) := by
  obtain ⟨fs, e, hstrides, -, -, hend⟩ := h
  obtain ⟨rfl, ⟨hfs, hl, first, hfirst⟩ | ⟨hfs, hpatient, hrouter⟩⟩ := hend.of_stepLimit hd
  · have hlimit : l = c.limits.steps := hl.trans (congrArg RunLimits.steps hstrides.limits_eq)
    exact .inl ⟨hlimit, hd.active_of_firstEnabled hfirst, ⟨first, hfirst⟩, fs, hstrides, hfs⟩
  · exact .inr ⟨fs, hstrides, hfs, hpatient, hrouter⟩

/-- A run that may not make as many strides as it could is cut off. -/
theorem error_of_strides (h : Strides routing fs c e) (hfs : max 1 c.limits.steps ≤ fs.length) (ha : e.state = .active) :
    ∃ d, c.runWithRouting routing (some fs.length) = (.error (.stepLimit c.limits.steps), d) := by
  obtain ⟨x, hx, hrest, hlen⟩ := h.split hfs
  have hxa : x.state = .active := hrest.eq_or_active.elim (fun he => he ▸ ha) fun h => h
  have hback : (some (fs.length - max 1 c.limits.steps)).map (· + max 1 c.limits.steps) = some fs.length :=
    congrArg some (Nat.sub_add_cancel hfs)
  have hall := run_of_strides hx hlen (some (fs.length - max 1 c.limits.steps))
  rw [hlen, hback, if_pos hxa] at hall
  exact ⟨x, hall⟩

/-- **A case whose patience comes to an end before its limit is cancelled.** -/
theorem run_cancelled (h : Strides routing fs c e) (hfs : fs.length < max 1 c.limits.steps) (ha : e.state = .active) :
    c.runWithRouting routing (some fs.length) = (e.cancel.outcome, e.cancel) := by
  have hleft : c.limits.steps - 1 = c.limits.steps - 1 - fs.length + fs.length := by omega
  have hpatience : (some fs.length : Option Nat) = (some 0).map (· + fs.length) := by simp
  unfold runWithRouting
  rw [hleft, hpatience, drive_strides h]
  unfold drive
  rw [ha]
  rfl

/-- A run that answers has been within its limit when its patience came to an end. -/
theorem cancelled_of_strides (hrun : c.runWithRouting routing (some fs.length) = (result, d))
    (h : Strides routing fs c e) (ha : e.state = .active) (hcut : fs.length < max 1 c.limits.steps ∨ ∃ o, result = .ok o) :
    result = e.cancel.outcome ∧ d = e.cancel := by
  have hlt : fs.length < max 1 c.limits.steps := by
    rcases hcut with hlt | ⟨o, ho⟩
    · exact hlt
    · refine Nat.lt_of_not_le fun hle => ?_
      obtain ⟨d', hd'⟩ := error_of_strides h hle ha
      cases ho.symm.trans (congrArg Prod.fst (hrun.symm.trans hd'))
  exact Prod.mk.inj (hrun.symm.trans (run_cancelled h hlt ha))

/-- **A run ends within its limit and tells the truth**, also where its router is another one in each step.  It is a row
of strides, each of them what a step makes, within the limit and the patience, and one of the four endings.  If it
answers, the case is over, and the answer is how it stands; a case that was over before is left alone.  If it fails by
its limit, it has made exactly the strides it may, and something is still enabled; and if it speaks of a limit before
that, these are the words of the router of the step that failed.  And if its patience is at an end before its limit, the
case is cancelled. -/
theorem run_truthful {net : Net} {id : CaseId} {limits : RunLimits} {actions : List Action}
    (hc : c = (launch net id limits).after actions) (hrun : c.runWithRouting routing patience = (result, d)) :
    Truthful routing (max 1 limits.steps) patience c result d ∧
      ∀ (router : Router) (x : Case) (f : Firing) (y : Case),
        x.Stride router f y ↔ x.step router = (.ok (some f), y) := by
  obtain rfl : c.limits = limits := hc ▸ (moves_after (launch net id limits) actions).same.2.2
  have hconsistent : c.Consistent := hc ▸ consistent_after net id c.limits actions
  have hd : d.Consistent := by
    have hmoves := moves_of_advances (advances_drive routing (c.limits.steps - 1) patience c)
    rw [show drive routing (c.limits.steps - 1) patience c = (result, d) from hrun] at hmoves
    exact hmoves.keeps Move.consistent hconsistent
  have h := runWithRouting_runsTo hrun
  refine ⟨⟨h, h.bounded, ?_, ?_, ?_, ?_, ?_⟩, fun _ _ _ _ => stride_iff⟩
  · rcases h.answers hd with ⟨hover, o, -, rfl⟩ | ⟨hactive, failure, rfl⟩
    · exact iff_of_true ⟨o, rfl⟩ hover
    · exact iff_of_false (fun ⟨o, ho⟩ => by cases ho) (not_isTerminal hactive)
  · rintro o rfl
    rcases h.answers hd with ⟨-, o', ho, heq⟩ | ⟨-, failure, heq⟩
    · cases heq
      exact ⟨ho, outcome_reports ho⟩
    · cases heq
  · intro hover
    obtain rfl : d = c := (congrArg Prod.snd hrun).symm.trans (run_of_isTerminal hover routing patience)
    rcases h.answers hd with ⟨-, o, -, heq⟩ | ⟨hactive, -⟩
    · exact ⟨rfl, o, heq⟩
    · exact absurd hover (not_isTerminal hactive)
  · rintro l rfl
    exact h.cutOff hd
  · rintro fs e hstrides rfl hactive hcut
    obtain ⟨rfl, rfl⟩ := cancelled_of_strides hrun hstrides hactive hcut
    have hempty := hd.cancelled e.state_cancel
    exact ⟨rfl, e.state_cancel, hempty, exists_outcome (enabledTransitions_of_isEmpty hempty)⟩

/-- Asked about `a`, the router speaks of a limit of seven.  The run passes that on, although it may make ten thousand
strides and has not made one of them. -/
theorem detour_foreign_limit :
    (launch detour 1 {}).run (Router.failing (.stepLimit 7)) = (.error (.stepLimit 7), launch detour 1 {}) ∧
    (launch detour 1 {}).limits.steps = 10000 ∧
    ¬ ∃ fs, Strides (Router.failing (.stepLimit 7)).steady fs (launch detour 1 {}) (launch detour 1 {}) ∧
      fs.length = max 1 (launch detour 1 {}).limits.steps := by
  refine ⟨rfl, rfl, ?_⟩
  rintro ⟨fs, hstrides, hlen⟩
  have hsteps : (launch detour 1 {}).steps = (launch detour 1 {}).steps + fs.length := hstrides.logged.1
  have hmax : 1 ≤ max 1 (launch detour 1 {}).limits.steps := Nat.le_max_left 1 _
  omega

/-- With a limit of one, a run is cut off before `j` fires; with a patience of one, the case is cancelled there. -/
theorem detour_truthful : ∃ d e : Case, ∃ o : Outcome,
    (launch detour 1 { steps := 1 }).runWithPatience .standard (some 1) = (.error (.stepLimit 1), d) ∧
    d.state = .active ∧ (∃ first, d.firstEnabled = .ok (some first)) ∧ d.marking = ⟨[0, 1, 1, 0, 0]⟩ ∧
    (launch detour 1 {}).runWithPatience .standard (some 1) = (.ok o, e) ∧
    e = d.cancel.withStepLimit 10000 ∧ e.state = .cancelled ∧ e.marking.isEmpty = true ∧ o.state = .cancelled := by
  have hcut : (launch detour 1 { steps := 1 }).runWithPatience .standard (some 1) = (.error (.stepLimit 1),
      (launch detour 1 { steps := 1 }).record (.ofParts 0 [0] [1, 2] []) ⟨[0, 1, 1, 0, 0]⟩) := rfl
  have hpatience : ∃ o, (launch detour 1 {}).runWithPatience .standard (some 1) = (.ok o,
      ((launch detour 1 {}).record (.ofParts 0 [0] [1, 2] []) ⟨[0, 1, 1, 0, 0]⟩).cancel) := ⟨_, rfl⟩
  obtain ⟨o, hpatience⟩ := hpatience
  have hfirst : (launch detour 1 {}).step .standard = (.ok (some (.ofParts 0 [0] [1, 2] [])),
      (launch detour 1 {}).record (.ofParts 0 [0] [1, 2] []) ⟨[0, 1, 1, 0, 0]⟩) := rfl
  have hlaunch (limits : RunLimits) : launch detour 1 limits = (launch detour 1 limits).after [] := rfl
  obtain ⟨hlimit, -⟩ := run_truthful (hlaunch _) hcut
  obtain ⟨hpatient, -⟩ := run_truthful (hlaunch _) hpatience
  obtain ⟨-, hstate, hempty, -⟩ := hpatient.cancelled _ _ (.cons (stride_iff.2 hfirst) (.nil _)) rfl rfl (.inl (by decide))
  obtain ⟨-, -, ho, -⟩ := hpatient.outcome o rfl
  rcases hlimit.cutOff 1 rfl with ⟨-, hactive, hleft, -⟩ | ⟨fs, -, -, -, ⟨t, take, -, -, hfails⟩⟩
  · exact ⟨_, _, o, hcut, hactive, hleft, rfl, hpatience, rfl, hstate, hempty, ho.trans hstate⟩
  · unfold Router.steady Router.standard at hfails
    split at hfails <;> cases hfails

end Workflow.Case
