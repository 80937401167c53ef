import Workflow.Proofs.Crew
/-!
# Apart — running several cases is running each of them

To run cases one after the other is one schedule among many (`exists_schedule`), and to list them in another order is
another one from the same start.  All schedules have the same end, unless a case fails; so neither the order of the list
nor that of the laps has any influence (`runAll_apart`).
-/
namespace Workflow

namespace Casebook

variable {b : Casebook} {id : CaseId} {c d : Case} {router : Router}

/-! ## Any book, once more -/

theorem Reached.update {α : Type} {op : Case → Except Failure α × Case} (h : b.Reached) (id : CaseId)
    (hop : ∀ c : Case, ∃ a, (c.act a).2 = (op c).2) : (b.update id op).2.Reached := by
  unfold Casebook.update
  split
  · exact h
  · rename_i c hfind
    obtain ⟨a, ha⟩ := hop c
    dsimp only
    rw [← ha]
    exact h.act a hfind

theorem Reached.handle (h : b.Reached) (r : Request) : (b.handle r).2.Reached := by
  cases r with
  | launch net => exact h.launch net
  | remove id => exact h.remove id
  | ids => exact h
  | ask id e =>
    cases e with
    | fire t s => exact h.update id fun c => ⟨.fire t s, Case.snd_of _ _⟩
    | restore tokens => exact h.update id fun c => ⟨.restore tokens, Case.snd_of _ _⟩
    | cancel => exact h.update id fun c => ⟨.cancel, rfl⟩
    | run router => exact h.update id fun c => ⟨.run router none, Case.snd_of _ _⟩
    | state | outcome | enabledTransitions | enablement | save => exact h

/-- Every history of requests makes such a book. -/
theorem reached_after (limits : RunLimits) (rs : List Request) : (after { limits } rs).Reached := by
  induction rs using List.reverseRecOn with
  | nil => exact .new limits
  | append_singleton rs r ih =>
    rw [after_append]
    exact ih.handle r

theorem Reached.runEach {ids : List CaseId} {patience : Option Nat} (h : b.Reached) :
    (Casebook.runEach router patience ids b).2.Reached := by
  induction ids generalizing b patience with
  | nil => exact h
  | cons id ids ih =>
    have hupdate : (b.update id (fun c => c.runWithPatience router patience)).2.Reached :=
      h.update id fun c => ⟨.run router patience, Case.snd_of _ _⟩
    unfold Casebook.runEach
    split
    · rename_i o b' heq
      rw [heq] at hupdate
      exact ih hupdate
    · rename_i failure b' heq
      rw [heq] at hupdate
      exact ih hupdate

/-- So does running several cases. -/
theorem Reached.runAll (h : b.Reached) (ids : List CaseId) (router : Router) (calledOff : Bool) :
    (b.runAll ids router calledOff).2.Reached := by
  unfold Casebook.runAll
  split
  · exact h
  · exact h.runEach

end Casebook

namespace Crew

variable {router : Router} {s : Crew} {b : Casebook} {id : CaseId} {ids : List CaseId} {c d : Case} {calledOff : Bool}
  {result : Except Failure Outcome} {failure : Failure}

/-! ## One after the other is a schedule -/

/-- A job that is given one lap after the other finishes its run. -/
theorem events_drive : ∀ {left : Nat} {s : Crew} {rest : Multiset (CaseId × Job)} {c : Case},
    s.jobs = (id, .working left) ::ₘ rest → s.book.find id = .ok c →
    Case.drive router.steady left (patienceFor s.calledOff) c = (result, d) →
    ∃ k, Events router k s { s with book := s.book.replace d, jobs := (id, .finished result) ::ₘ rest }
  | left, s, rest, c, hjobs, hfind, hdrive => by
    rcases hlap : c.lap router s.calledOff left with ⟨job, c'⟩
    have hleads := (Case.leads_lap hlap).trans hdrive
    have hless := Case.pending_lap hlap
    have hevent := Event.lap hjobs hfind hlap
    cases job with
    | finished result' =>
      cases hleads
      exact ⟨1, hevent.events⟩
    | working left' =>
      have hid : c'.id = id := (Case.id_lap hlap).trans (Casebook.id_of_find hfind).2
      have hfind' : (s.book.replace c').find id = .ok c' := by
        rw [Casebook.find_replace, if_pos hid.symm, hfind]
        rfl
      have hlt : left' < left := Nat.lt_of_add_lt_add_right hless
      obtain ⟨k, hk⟩ := events_drive (s := { s with book := s.book.replace c', jobs := (id, .working left') ::ₘ rest })
        rfl hfind' hleads
      dsimp only at hk
      rw [Casebook.replace_replace _ (Case.id_drive hleads).symm] at hk
      exact ⟨k + 1, .cons hevent hk⟩

/-- The first of the cases is run, and the book is still sound. -/
theorem events_run (router : Router) (hb : s.book.Sound) (hjobs : s.jobs = fresh s.book (id :: ids))
    (hid : id ∈ s.book.ids) :
    ∃ result d, s.book.update id (fun c => c.runWithPatience router (patienceFor s.calledOff)) =
        (result, s.book.replace d) ∧ (s.book.replace d).Sound ∧
      ∃ k, Events router k s { s with book := s.book.replace d, jobs := (id, .finished result) ::ₘ fresh s.book ids } := by
  obtain ⟨c, hfind⟩ := Casebook.exists_find hid
  have hc := (Casebook.id_of_find hfind).1
  rcases hrun : c.runWithPatience router (patienceFor s.calledOff) with ⟨result, d⟩
  have hdrive := hrun
  unfold Case.runWithPatience Case.runWithRouting at hdrive
  have hmoves := Case.moves_of_advances (Case.advances_drive router.steady (c.limits.steps - 1) (patienceFor s.calledOff) c)
  rw [hdrive] at hmoves
  rw [hb.limits_eq c hc] at hdrive
  refine ⟨result, d, ?_, hb.replace hc hmoves, events_drive hjobs hfind hdrive⟩
  unfold Casebook.update
  rw [hfind]
  dsimp only
  rw [hrun]

/-- Once a case has failed, the others are run with the run called off. -/
theorem exists_events_discard (router : Router) (failure : Failure) : ∀ {ids : List CaseId} {s : Crew}, s.book.Sound →
    (∀ id ∈ ids, id ∈ s.book.ids) → s.jobs = fresh s.book ids → s.failure? = some failure → s.calledOff = true →
    ∃ k t, Events router k s t ∧ t.jobs = 0 ∧ t.collected = .error failure ∧
      t.book = (Casebook.runEach router (some 0) ids s.book).2
  | [], s, _, _, hjobs, hfailure, _ => by
    refine ⟨0, s, .nil s, hjobs, ?_, rfl⟩
    unfold collected
    rw [hfailure]
  | id :: ids, s, hb, hknown, hjobs, hfailure, hcalled => by
    obtain ⟨hid, hids⟩ := List.forall_mem_cons.1 hknown
    obtain ⟨result, d, hupdate, hd, k, hk⟩ := events_run router hb hjobs hid
    have hrest : ∀ i ∈ ids, i ∈ (s.book.replace d).ids := fun i hi => (Casebook.ids_replace _ _).symm ▸ hids i hi
    obtain ⟨k', t, ht, hdone, hfailed, hbook⟩ := exists_events_discard router failure
      (s := { s with book := s.book.replace d, jobs := fresh s.book ids }) hd hrest rfl hfailure hcalled
    refine ⟨_, t, hk.trans (.cons (.discard rfl hfailure) ht), hdone, hfailed, hbook.trans ?_⟩
    rw [hcalled] at hupdate
    rw [Casebook.runEach, show (some 0 : Option Nat) = patienceFor true from rfl, hupdate]
    cases result <;> rfl

/-- **The cases are run one after the other**, by induction on the list. -/
theorem exists_events_runEach (router : Router) : ∀ {ids : List CaseId} {s : Crew}, s.book.Sound →
    (∀ id ∈ ids, id ∈ s.book.ids) → s.jobs = fresh s.book ids → s.failure? = none →
    ∃ k t, Events router k s t ∧ t.jobs = 0 ∧
      t.collected = (Casebook.runEach router (patienceFor s.calledOff) ids s.book).1.map (s.outcomes ++ ·) ∧
      t.book = (Casebook.runEach router (patienceFor s.calledOff) ids s.book).2
  | [], s, _, _, hjobs, hfailure => by
    refine ⟨0, s, .nil s, hjobs, ?_, rfl⟩
    unfold collected
    rw [hfailure, Casebook.runEach]
    exact congrArg Except.ok (List.append_nil _).symm
  | id :: ids, s, hb, hknown, hjobs, hfailure => by
    obtain ⟨hid, hids⟩ := List.forall_mem_cons.1 hknown
    obtain ⟨result, d, hupdate, hd, k, hk⟩ := events_run router hb hjobs hid
    have hrest : ∀ i ∈ ids, i ∈ (s.book.replace d).ids := fun i hi => (Casebook.ids_replace _ _).symm ▸ hids i hi
    rw [Casebook.runEach, hupdate]
    cases result with
    | error failure =>
      obtain ⟨k', t, ht, hdone, hfailed, hbook⟩ := exists_events_discard router failure
        (s := { s with book := s.book.replace d, jobs := fresh s.book ids, failure? := some failure, calledOff := true })
        hd hrest rfl rfl rfl
      exact ⟨_, t, hk.trans (.cons (.fail rfl hfailure) ht), hdone, hfailed, hbook⟩
    | ok o =>
      obtain ⟨k', t, ht, hdone, hcollected, hbook⟩ := exists_events_runEach router
        (s := { s with book := s.book.replace d, jobs := fresh s.book ids, outcomes := s.outcomes ++ [o] })
        hd hrest rfl hfailure
      refine ⟨_, t, hk.trans (.cons (.collect rfl hfailure) ht), hdone, hcollected.trans ?_, hbook⟩
      dsimp only
      rcases Casebook.runEach router (patienceFor s.calledOff) ids (s.book.replace d) with ⟨failure | os, b'⟩
      · rfl
      · exact congrArg Except.ok (List.append_assoc _ _ _)

/-- **Running cases one after the other is a schedule of the crew.** -/
theorem exists_schedule (hb : b.Sound) (hknown : ∀ id ∈ ids, id ∈ b.ids) (router : Router) (calledOff : Bool) :
    ∃ k t, Events router k (start b ids calledOff) t ∧ t.jobs = 0 ∧
      b.runAll ids router calledOff = (t.answer, t.book) := by
  obtain ⟨k, t, ht, hdone, hcollected, hbook⟩ :=
    exists_events_runEach router (s := start b ids calledOff) hb hknown rfl rfl
  have hall : ids.find? (fun id => !b.ids.contains id) = none :=
    List.find?_eq_none.2 fun id hid => by simpa using hknown id hid
  refine ⟨k, t, ht, hdone, ?_⟩
  unfold Casebook.runAll answer
  rw [hall, hcollected, hbook]
  dsimp only [start]
  rw [show (if calledOff then some 0 else none) = patienceFor calledOff from rfl]
  rcases Casebook.runEach router (patienceFor calledOff) ids b with ⟨failure | os, b'⟩ <;> rfl

end Crew

/-! ## The order has no influence -/

/-- A run that has been called off cancels the case, unless it is over. -/
theorem Case.run_calledOff {c : Case} (hc : c.Consistent) (router : Router) :
    (c.state = .active ∧ ∃ o, c.runWithPatience router (some 0) = (.ok o, c.cancel)) ∨
      (c.state.isTerminal = true ∧ ∃ o, c.runWithPatience router (some 0) = (.ok o, c)) := by
  by_cases hover : c.state.isTerminal = true
  · obtain ⟨o, ho⟩ := exists_outcome (hc.rests hover)
    exact .inr ⟨hover, o, by rw [runWithPatience_of_isTerminal hover, ho]⟩
  · have hactive := active_of_not_isTerminal hover
    have hcancel : c.cancel.Consistent := (Move.cancel (by rw [hactive]; exact nofun)).consistent hc
    obtain ⟨o, ho⟩ := exists_outcome (enabledTransitions_of_isEmpty (hcancel.cancelled c.state_cancel))
    have hpos : 0 < max 1 c.limits.steps := Nat.lt_of_lt_of_le Nat.one_pos (Nat.le_max_left _ _)
    have hrun : c.runWithPatience router (some 0) = (c.cancel.outcome, c.cancel) := run_cancelled (.nil c) hpos hactive
    exact .inl ⟨hactive, o, hrun.trans (by rw [ho])⟩

namespace Casebook

variable {b : Casebook} {ids ids' : List CaseId} {router : Router} {calledOff : Bool}

theorem runAll_of_unknown (h : ∃ id ∈ ids, id ∉ b.ids) (router : Router) (calledOff : Bool) :
    ∃ before id after, ids = before ++ id :: after ∧ (∀ i ∈ before, i ∈ b.ids) ∧ id ∉ b.ids ∧
      b.runAll ids router calledOff = (.error (.noSuchCase id), b) := by
  cases hfind : ids.find? (fun id => !b.ids.contains id) with
  | none =>
    obtain ⟨id, hid, hunknown⟩ := h
    exact absurd (List.find?_eq_none.1 hfind id hid) (by simpa using hunknown)
  | some id =>
    obtain ⟨hid, before, after, heq, hbefore⟩ := List.find?_eq_some_iff_append.1 hfind
    refine ⟨before, id, after, heq, fun i hi => by simpa using hbefore i hi, by simpa using hid, ?_⟩
    unfold runAll
    rw [hfind]

theorem EachRuns.mem_ids {patience : Option Nat} (h : b.EachRuns router patience ids) : ∀ id ∈ ids, id ∈ b.ids :=
  fun id hid => (h id hid).elim fun _ hc => mem_ids_of_find hc.1

theorem runAll_runApart (hb : b.Sound) (hids : ids.Nodup) (hrun : b.EachRuns router (patienceFor calledOff) ids) :
    ∃ os b', b.runAll ids router calledOff = (.ok os, b') ∧ b.RunApart router (patienceFor calledOff) ids os b' := by
  obtain ⟨k, t, ht, hdone, heq⟩ := Crew.exists_schedule hb hrun.mem_ids router calledOff
  obtain ⟨os, hos, hapart⟩ := (ht.onCourse (Crew.onCourse_start hb hrun) hids hrun).runApart hids hdone
  exact ⟨os, t.book, by rw [heq, hos], hapart⟩

/-- Whatever the schedule, the end is that of the runs by themselves. -/
theorem RunApart.of_schedule {os : List Outcome} {b' : Casebook} {k : Nat} {s : Crew}
    (h : b.RunApart router (patienceFor calledOff) ids os b') (hb : b.Sound) (hids : ids.Nodup)
    (hrun : b.EachRuns router (patienceFor calledOff) ids) (hs : Crew.Events router k (.start b ids calledOff) s)
    (hdone : s.jobs = 0) : s.answer = .ok os ∧ s.book = b' := by
  obtain ⟨os', hos', hapart⟩ := (hs.onCourse (Crew.onCourse_start hb hrun) hids hrun).runApart hids hdone
  obtain ⟨rfl, rfl⟩ := h.unique hapart hb.nodup_ids
  exact ⟨hos', rfl⟩

/-- Another order of the list is another schedule from the same start. -/
theorem RunApart.of_perm {os : List Outcome} {b' : Casebook} (h : b.RunApart router (patienceFor calledOff) ids os b')
    (hb : b.Sound) (hids : ids.Nodup) (hrun : b.EachRuns router (patienceFor calledOff) ids) (hperm : ids'.Perm ids) :
    b.runAll ids' router calledOff = (.ok os, b') := by
  have hstart : Crew.start b ids' calledOff = .start b ids calledOff := by
    unfold Crew.start Crew.fresh
    rw [Multiset.coe_eq_coe.2 hperm]
  obtain ⟨k, t, ht, hdone, heq⟩ :=
    Crew.exists_schedule hb (fun id hid => hrun.mem_ids id (hperm.mem_iff.1 hid)) router calledOff
  obtain ⟨hanswer, hbook⟩ := h.of_schedule hb hids hrun (hstart ▸ ht) hdone
  rw [heq, hanswer, hbook]

theorem Sound.eachRuns_calledOff (hb : b.Sound) (hknown : ∀ id ∈ ids, id ∈ b.ids) (router : Router) :
    b.EachRuns router (some 0) ids := by
  intro id hid
  obtain ⟨c, hc⟩ := exists_find (hknown id hid)
  rcases Case.run_calledOff (hb.consistent c (id_of_find hc).1) router with ⟨-, o, ho⟩ | ⟨-, o, ho⟩
  · exact ⟨c, hc, o, _, ho⟩
  · exact ⟨c, hc, o, _, ho⟩

theorem RunApart.of_calledOff {os : List Outcome} {b' : Casebook} {id : CaseId}
    (h : b.RunApart router (some 0) ids os b') (hb : b.Sound) (hid : id ∈ ids) :
    ∃ c d, b.find id = .ok c ∧ b'.find id = .ok d ∧
      (c.state = .active → d.state = .cancelled ∧ d.marking.isEmpty = true ∧ d.steps = c.steps ∧
        d.changes = c.changes.push .reset) ∧
      (c.state.isTerminal = true → d = c) := by
  obtain ⟨o, ho, rfl⟩ := List.mem_map.1 (h.cases.mem_iff.2 hid)
  obtain ⟨c, d, hc, hrun, hd⟩ := h.alone o ho
  refine ⟨c, d, hc, hd, ?_⟩
  rcases Case.run_calledOff (hb.consistent c (id_of_find hc).1) router with ⟨hactive, o', ho'⟩ | ⟨hover, o', ho'⟩
  · cases hrun.symm.trans ho'
    have hne : c.state ≠ .cancelled := by
      rw [hactive]
      exact nofun
    refine ⟨fun _ => ?_, fun hover => ?_⟩
    · rw [Case.cancel_eq hne]
      exact ⟨rfl, c.marking.isEmpty_clear, rfl, rfl⟩
    · exact absurd hover (Case.not_isTerminal hactive)
  · cases hrun.symm.trans ho'
    exact ⟨fun hactive => absurd hover (Case.not_isTerminal hactive), fun _ => rfl⟩

/-- **Running several cases is running each of them, in any order.**  A number that is not in the book is the answer, and
nothing has been started.  If no run fails by itself, there is an outcome for each of the cases, by ascending number, and
each of them has come to where it would have come by itself; and so it is with the list in any other order, and under
every schedule, none of which goes on for ever or gets stuck.  If the run has been called off beforehand, the active
cases are cancelled without a firing, and those that are over stay as they were. -/
theorem runAll_apart (hb : b.Reached) (hids : ids.Nodup) (router : Router) (calledOff : Bool) :
    ((∃ id ∈ ids, id ∉ b.ids) → ∃ before id after, ids = before ++ id :: after ∧ (∀ i ∈ before, i ∈ b.ids) ∧
      id ∉ b.ids ∧ b.runAll ids router calledOff = (.error (.noSuchCase id), b)) ∧
    (b.EachRuns router (patienceFor calledOff) ids → ∃ os b', b.runAll ids router calledOff = (.ok os, b') ∧
      b.RunApart router (patienceFor calledOff) ids os b' ∧
      (∀ ids', ids'.Perm ids → b.runAll ids' router calledOff = (.ok os, b')) ∧
      ∀ k s, Crew.Events router k (.start b ids calledOff) s → k ≤ (Crew.start b ids calledOff).pending ∧
        (s.jobs = 0 → s.answer = .ok os ∧ s.book = b') ∧ (s.jobs ≠ 0 → ∃ t, Crew.Event router s t)) ∧
    (calledOff = true → (∀ id ∈ ids, id ∈ b.ids) → ∃ os b', b.runAll ids router calledOff = (.ok os, b') ∧
      ∀ id ∈ ids, ∃ c d, b.find id = .ok c ∧ b'.find id = .ok d ∧
        (c.state = .active → d.state = .cancelled ∧ d.marking.isEmpty = true ∧ d.steps = c.steps ∧
          d.changes = c.changes.push .reset) ∧
        (c.state.isTerminal = true → d = c)) := by
  have hsound := hb.sound
  refine ⟨fun h => runAll_of_unknown h router calledOff, fun hrun => ?_, ?_⟩
  · obtain ⟨os, b', hall, hapart⟩ := runAll_runApart hsound hids hrun
    refine ⟨os, b', hall, hapart, fun ids' hperm => hapart.of_perm hsound hids hrun hperm, fun k s hs => ⟨?_, ?_, ?_⟩⟩
    · exact Nat.le_trans (Nat.le_add_right _ _) hs.pending_le
    · exact hapart.of_schedule hsound hids hrun hs
    · exact (hs.onCourse (Crew.onCourse_start hsound hrun) hids hrun).exists_event
  · rintro rfl hknown
    have hrun : b.EachRuns router (patienceFor true) ids := hsound.eachRuns_calledOff hknown router
    obtain ⟨os, b', hall, hapart⟩ := runAll_runApart hsound hids hrun
    exact ⟨os, b', hall, fun id hid => hapart.of_calledOff hsound hid⟩

/-- Of three cases the third has been cancelled. -/
def detours : Casebook := after {} [.launch Case.detour, .launch Net.offer, .launch Case.detour, .ask 3 .cancel]

/-- The first case and the third are run, in either order, and the second is not; if the run has been called off, the
first is cancelled as well. -/
theorem detours_apart : ∃ os b' os' b'',
    (∃ id, id ∉ detours.ids ∧ detours.runAll [3, 7, 1] .standard false = (.error (.noSuchCase id), detours)) ∧
    detours.runAll [3, 1] .standard false = (.ok os, b') ∧ detours.runAll [1, 3] .standard false = (.ok os, b') ∧
    os.Pairwise (fun o o' => o.case < o'.case) ∧ (os.map Outcome.case).Perm [3, 1] ∧
    b'.find 2 = detours.find 2 ∧ (b'.find 1).map Case.marking = .ok ⟨[0, 0, 0, 1, 0]⟩ ∧
    detours.runAll [1, 3] .standard true = (.ok os', b'') ∧ (b''.find 1).map Case.state = .ok .cancelled ∧
    b''.find 3 = detours.find 3 := by
  have hb : detours.Reached := reached_after {} _
  obtain ⟨hunknown, -, -⟩ := runAll_apart hb (show [3, 7, 1].Nodup by decide) .standard false
  obtain ⟨-, hruns, -⟩ := runAll_apart hb (show [3, 1].Nodup by decide) .standard false
  obtain ⟨-, -, hoff⟩ := runAll_apart hb (show [1, 3].Nodup by decide) .standard true
  obtain ⟨-, id, -, -, -, hid, hnone⟩ := hunknown ⟨7, by decide, by decide⟩
  obtain ⟨os, b', hall, hapart, hperm, -⟩ := hruns
    (List.forall_mem_cons.2 ⟨⟨_, rfl, _, _, rfl⟩, List.forall_mem_cons.2 ⟨⟨_, rfl, _, _, rfl⟩, nofun⟩⟩)
  obtain ⟨os', b'', hcancelled, hends⟩ := hoff rfl (by decide)
  have hfirst : detours.find 1 = .ok (Case.launch Case.detour 1 {}) := rfl
  have hthird : detours.find 3 = .ok (Case.launch Case.detour 3 {}).cancel := rfl
  have hstuck : ((Case.launch Case.detour 1 {}).runWithPatience .standard (patienceFor false)).2.marking =
      ⟨[0, 0, 0, 1, 0]⟩ := rfl
  obtain ⟨o, ho, hcase⟩ := List.mem_map.1 (hapart.cases.mem_iff.2 (show 1 ∈ [3, 1] by decide))
  obtain ⟨c, d, hc, hrun, hd⟩ := hapart.alone o ho
  obtain ⟨c₁, d₁, hc₁, hd₁, hactive, -⟩ := hends 1 (by decide)
  obtain ⟨c₃, d₃, hc₃, hd₃, -, hover⟩ := hends 3 (by decide)
  rw [hcase] at hc hd
  cases hfirst.symm.trans hc
  cases hfirst.symm.trans hc₁
  cases hthird.symm.trans hc₃
  rw [hrun] at hstuck
  refine ⟨os, b', os', b'', ⟨id, hid, hnone⟩, hall, hperm [1, 3] (List.Perm.swap _ _ _), hapart.ascending,
    hapart.cases, hapart.others 2 (by decide), ?_, hcancelled, ?_, ?_⟩
  · rw [hd, ← hstuck]
    rfl
  · rw [hd₁, ← (hactive rfl).1]
    rfl
  · rw [hd₃, hthird, hover rfl]

end Casebook

end Workflow
