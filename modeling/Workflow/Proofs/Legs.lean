import Workflow.Proofs.Strides
/-!
# Legs — a run that is cut off can be taken up again

The limit on the firings of a run is there to stop it, not to steer it.  A run that is cut off stands between two
strides, where the longer run passes as well, so the next one goes on from there as if nothing had happened
(`exists_legs`).  Run again and again, the case comes to the same end as under a limit that is wide enough
(`run_in_legs`).
-/
namespace Workflow.Case

variable {router : Router} {routing : Routing} {c d e : Case} {f : Firing} {fs : List Firing} {o : Outcome}
  {n k left : Nat}

/-! ## The limit does not steer -/

theorem settle_withStepLimit {α : Type} (c : Case) (n : Nat) (a : α) :
    (c.withStepLimit n).settle a = ((c.settle a).1, (c.settle a).2.withStepLimit n) := by
  have hstate : (c.withStepLimit n).settledState = c.settledState := rfl
  unfold settle
  rw [hstate]
  cases c.settledState <;> rfl

theorem fire_withStepLimit (c : Case) (n : Nat) (t : TransitionId) (s : Selection) :
    (c.withStepLimit n).fire t s = ((c.fire t s).1, (c.fire t s).2.withStepLimit n) := by
  have htry : (c.withStepLimit n).tryFire t s = c.tryFire t s := rfl
  unfold fire
  rw [htry]
  rcases c.tryFire t s with failure | ⟨f, m⟩
  · rfl
  · exact settle_withStepLimit (c.record f m) n f

/-- **A step is the same under any limit on the run** it is taken in. -/
theorem step_withStepLimit (c : Case) (n : Nat) (router : Router) :
    (c.withStepLimit n).step router = ((c.step router).1, (c.step router).2.withStepLimit n) := by
  have hstate : (c.withStepLimit n).state = c.state := rfl
  have hfirst : (c.withStepLimit n).firstEnabled = c.firstEnabled := rfl
  have hroute (t : TransitionId) : router (c.withStepLimit n).net t (c.withStepLimit n).marking =
      router c.net t c.marking := rfl
  unfold step
  rw [hstate, hfirst]
  split
  · rfl
  · rcases c.firstEnabled with failure | _ | ⟨t, take⟩
    · rfl
    · exact settle_withStepLimit c n none
    · dsimp only
      rw [hroute]
      cases router c.net t c.marking with
      | error failure => rfl
      | ok s =>
        dsimp only
        rw [fire_withStepLimit]

theorem Stride.withStepLimit (h : c.Stride router f d) (n : Nat) :
    (c.withStepLimit n).Stride router f (d.withStepLimit n) := by
  rw [stride_iff, step_withStepLimit, stride_iff.1 h]

theorem Strides.withStepLimit (h : Strides routing fs c d) (n : Nat) :
    Strides routing fs (c.withStepLimit n) (d.withStepLimit n) := by
  induction h with
  | nil c => exact .nil _
  | cons hstride _ ih => exact .cons (hstride.withStepLimit n) ih

/-! ## One run after the other -/

theorem drive_of_rests (h : c.step (routing 0) = (.ok none, d)) (left : Nat) :
    drive routing left none c = (d.outcome, d) := by
  unfold drive
  rw [show (none == some 0) = false from rfl, Bool.and_false, if_neg Bool.false_ne_true, h]

/-- A run without end to its patience that answers has come to rest. -/
theorem Ending.step_of_ok (h : Ending routing n none k e (.ok o) d) :
    e.step (routing k) = (.ok none, d) ∧ d.outcome = .ok o := by
  generalize hr : (.ok o : Except Failure Outcome) = r at h
  cases h with
  | rests _ hstep => exact ⟨hstep, rfl⟩
  | cancelled hpatience => cases hpatience
  | cutOff => cases hr
  | failed => cases hr

/-- **A row of strides that ends at rest is made in legs**, by induction on the strides that are left.  The last leg ends
at rest, also if it has made all the strides it may. -/
theorem exists_legs (hn : 0 < n) (hd : e.step router = (.ok none, d)) (ho : d.outcome = .ok o) :
    ∀ {fs : List Firing} {c : Case}, c.limits.steps = n → Strides router.steady fs c e →
      ∃ k x, Legs router k c x ∧ x.run router = (.ok o, d) ∧ k * n ≤ fs.length
  | fs, c, hc, h => by
    by_cases hlt : fs.length < n
    · have hleft : c.limits.steps - 1 = n - 1 - fs.length + fs.length := by omega
      have hrun : c.run router = (.ok o, d) := by
        have hdrive := drive_strides h (n - 1 - fs.length) none
        unfold run runWithPatience runWithRouting
        rw [hleft]
        exact hdrive.trans ((drive_of_rests hd _).trans (by rw [ho]))
      exact ⟨0, c, .nil c, hrun, by omega⟩
    · obtain ⟨x, hx, hrest, hlen⟩ := h.split (Nat.le_of_not_lt hlt)
      have hrun : c.run router = if x.state = .active then (.error (.stepLimit c.limits.steps), x)
          else (x.outcome, x) := run_of_strides hx (by omega) none
      by_cases hactive : x.state = .active
      · rw [if_pos hactive] at hrun
        have hlength : (fs.drop n).length = fs.length - n := List.length_drop
        obtain ⟨k, y, hlegs, hy, hk⟩ := exists_legs hn hd ho ((congrArg RunLimits.steps hx.limits_eq).trans hc) hrest
        refine ⟨k + 1, y, .cons hrun hlegs, hy, ?_⟩
        rw [Nat.succ_mul]
        omega
      · rw [if_neg hactive] at hrun
        obtain rfl : e = x := hrest.eq_or_active.resolve_right hactive
        have hover : e.state.isTerminal = true := by_contra fun hover => hactive (active_of_not_isTerminal hover)
        cases (step_of_isTerminal hover router).symm.trans hd
        exact ⟨0, c, .nil c, hrun.trans (by rw [ho]), by omega⟩
  termination_by fs => fs.length

/-- **Cutting a run by its limit does not change it.**  If a case comes to rest under one limit, then under any other,
run again and again for as long as it is cut off, it comes to rest as well, with the same outcome and marking, in the
same state, after the same steps and with the same log; and it is cut off only as often as the limit goes into the
firings. -/
theorem run_in_legs {N : Nat} (hn : 0 < n) (hrun : (c.withStepLimit N).run router = (.ok o, d)) :
    ∃ k e d', Legs router k (c.withStepLimit n) e ∧ e.run router = (.ok o, d') ∧
      d'.marking = d.marking ∧ d'.state = d.state ∧ d'.steps = d.steps ∧ d'.changes = d.changes ∧
      c.steps + k * n ≤ d.steps := by
  obtain ⟨fs, e, hstrides, -, -, hend⟩ := runWithRouting_runsTo hrun
  obtain ⟨hstep, ho⟩ := hend.step_of_ok
  rw [Router.steady_apply] at hstep
  have hstep' : (e.withStepLimit n).step router = (.ok none, d.withStepLimit n) := by
    rw [step_withStepLimit, hstep]
  obtain ⟨k, x, hlegs, hx, hk⟩ := exists_legs hn hstep' ho (c := c.withStepLimit n) rfl (hstrides.withStepLimit n)
  refine ⟨k, x, d.withStepLimit n, hlegs, hx, rfl, rfl, rfl, rfl, ?_⟩
  rw [(isTerminal_of_step hstep).2, hstrides.logged.1]
  exact Nat.add_le_add_left hk c.steps

/-- One firing at a time, the case still gets stuck before `b`. -/
theorem detour_in_legs : ∃ (k : Nat) (d e d' : Case) (o : Outcome),
    ((launch detour 1 {}).withStepLimit 9).run .standard = (.ok o, d) ∧ o.state = .deadlocked ∧ o.blocked = [2] ∧
    Legs .standard k ((launch detour 1 {}).withStepLimit 1) e ∧ e.run .standard = (.ok o, d') ∧
    d'.marking = ⟨[0, 0, 0, 1, 0]⟩ ∧ d'.state = .deadlocked ∧ d'.steps = 2 ∧
    d'.changes = #[.consume 0 0, .produce 1 0, .produce 2 0, .consume 1 1, .consume 2 1, .produce 3 1] ∧ k ≤ 2 := by
  have hrun : ((launch detour 1 {}).withStepLimit 9).run .standard =
      (.ok ⟨1, .deadlocked, 2, ⟨[0, 0, 0, 1, 0]⟩, [3], [2]⟩,
        { ((launch detour 1 {}).withStepLimit 9) with
          marking := ⟨[0, 0, 0, 1, 0]⟩, state := .deadlocked, steps := 2,
          changes := #[.consume 0 0, .produce 1 0, .produce 2 0, .consume 1 1, .consume 2 1, .produce 3 1] }) := rfl
  obtain ⟨k, e, d', hlegs, hlast, hmarking, hstate, hsteps, hchanges, hk⟩ := run_in_legs Nat.one_pos hrun
  have hle : 0 + k * 1 ≤ 2 := hk
  exact ⟨k, _, e, d', _, hrun, rfl, rfl, hlegs, hlast, hmarking, hstate, hsteps, hchanges, by omega⟩

end Workflow.Case
