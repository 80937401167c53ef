import Mathlib.Data.List.Sort
import Workflow.Casebook.Crew
import Workflow.Proofs.Isolation
import Workflow.Proofs.Strides
/-!
# Crew — cases that are run side by side stay out of each other's way

A lap of one case changes nothing in another, and what is left of a run after a lap is the rest of that same run.  So
whatever the schedule, each job stays on the course that its case would take by itself (`Event.onCourse`), every event
brings the end nearer (`Event.pending_lt`), and the end is the same for all (`OnCourse.runApart`, `RunApart.unique`).
-/
namespace Workflow

namespace Casebook

variable {b b' : Casebook} {id : CaseId} {c d : Case}

/-! ## Any book -/

/-- What holds of any book. -/
structure Sound (b : Casebook) : Prop where
  ascending : b.ids.Pairwise (· < ·)
  below : ∀ id ∈ b.ids, id < b.nextId
  limits_eq : ∀ c ∈ b.cases, c.limits = b.limits
  consistent : ∀ c ∈ b.cases, c.Consistent

theorem Sound.nodup_ids (h : b.Sound) : b.ids.Nodup := h.ascending.imp Nat.ne_of_lt

theorem Sound.replace (h : b.Sound) (hc : c ∈ b.cases) (hd : c.Moves d) : (b.replace d).Sound := by
  obtain ⟨hid, -, hlimits⟩ := hd.same
  have hmem : d.id ∈ b.ids := hid ▸ List.mem_map_of_mem hc
  refine ⟨(b.ids_replace d).symm ▸ h.ascending, (b.ids_replace d).symm ▸ h.below, fun e he => ?_, fun e he => ?_⟩
  · rcases (mem_cases_replace hmem).1 he with rfl | ⟨he, -⟩
    · exact hlimits.trans (h.limits_eq c hc)
    · exact h.limits_eq e he
  · rcases (mem_cases_replace hmem).1 he with rfl | ⟨he, -⟩
    · exact hd.keeps Case.Move.consistent (h.consistent c hc)
    · exact h.consistent e he

theorem Sound.launch (h : b.Sound) (net : Net) : (b.launch net).2.Sound := by
  have hids : (b.launch net).2.ids = b.ids ++ [b.nextId] := List.map_append
  refine ⟨?_, ?_, ?_, ?_⟩
  · rw [hids, List.pairwise_append]
    refine ⟨h.ascending, List.pairwise_singleton _ _, fun i hi j hj => ?_⟩
    rw [List.mem_singleton.1 hj]
    exact h.below i hi
  · intro i hi
    rw [hids, List.mem_append, List.mem_singleton] at hi
    rcases hi with hi | rfl
    · exact Nat.lt_succ_of_lt (h.below i hi)
    · exact Nat.lt_succ_self _
  · intro c hc
    rcases List.mem_append.1 hc with hc | hc
    · exact h.limits_eq c hc
    · rw [List.mem_singleton.1 hc]
      rfl
  · intro c hc
    rcases List.mem_append.1 hc with hc | hc
    · exact h.consistent c hc
    · rw [List.mem_singleton.1 hc]
      exact Case.consistent_launch _ _ _

theorem Sound.remove (h : b.Sound) (id : CaseId) : (b.remove id).2.Sound := by
  unfold Casebook.remove
  split
  · exact h
  · have hsub : (b.cases.filter (fun c => c.id != id)).Sublist b.cases := List.filter_sublist
    exact ⟨h.ascending.sublist (hsub.map _), fun i hi => h.below i ((hsub.map _).subset hi),
      fun c hc => h.limits_eq c (hsub.subset hc), fun c hc => h.consistent c (hsub.subset hc)⟩

theorem Reached.sound (h : b.Reached) : b.Sound := by
  induction h with
  | new limits => exact ⟨.nil, nofun, nofun, nofun⟩
  | launch net _ ih => exact ih.launch net
  | remove id _ ih => exact ih.remove id
  | act a _ hfind ih => exact ih.replace ((find_ok_iff ih.nodup_ids).1 hfind).1 (Case.moves_act _ a)

/-! ## Looking up and replacing -/

theorem find_replace (b : Casebook) (d : Case) (id : CaseId) :
    (b.replace d).find id = if id = d.id then (b.find id).map (fun _ => d) else b.find id := by
  have hsame : (fun c : Case => c.id == id) ∘ (fun c => if c.id = d.id then d else c) = fun c => c.id == id := by
    funext c
    rw [Function.comp_apply]
    split
    · rename_i h
      rw [h]
    · rfl
  unfold find replace
  dsimp only
  rw [List.find?_map, hsame]
  cases hfind : b.cases.find? (fun c => c.id == id) with
  | none =>
    rw [Option.map_none]
    exact (ite_self _).symm
  | some c =>
    have hid : c.id = id := by simpa using List.find?_some hfind
    rw [Option.map_some, hid]
    by_cases hd : id = d.id
    · rw [if_pos hd, if_pos hd]
      rfl
    · rw [if_neg hd, if_neg hd]

theorem id_of_find (h : b.find id = .ok c) : c ∈ b.cases ∧ c.id = id := by
  unfold find at h
  split at h
  · rename_i c' hfind
    cases h
    exact ⟨List.mem_of_find?_eq_some hfind, by simpa using List.find?_some hfind⟩
  · cases h

theorem mem_ids_of_find (h : b.find id = .ok c) : id ∈ b.ids :=
  List.mem_map.2 ⟨c, id_of_find h⟩

theorem exists_find (h : id ∈ b.ids) : ∃ c, b.find id = .ok c := by
  unfold find
  split
  · exact ⟨_, rfl⟩
  · rename_i hnone
    obtain ⟨c, hc, hid⟩ := List.mem_map.1 h
    exact absurd (List.find?_eq_none.1 hnone c hc) (by simp [hid])

theorem replace_replace (b : Casebook) (h : c.id = d.id) : (b.replace c).replace d = b.replace d := by
  unfold replace
  dsimp only
  rw [List.map_map]
  congr 1
  refine List.map_congr_left fun e _ => ?_
  rw [Function.comp_apply, h]
  by_cases he : e.id = d.id
  · rw [if_pos he, if_pos h, if_pos he]
  · rw [if_neg he, if_neg he]

/-- Two books are the same if they hold the same cases under the same numbers. -/
theorem eq_of_find (hids : b'.ids = b.ids) (hnodup : b.ids.Nodup) (hfind : ∀ id ∈ b.ids, b'.find id = b.find id)
    (hsame : b'.limits = b.limits ∧ b'.nextId = b.nextId) : b' = b := by
  have hlength : b'.cases.length = b.cases.length := by
    rw [← List.length_map (f := Case.id), ← List.length_map (f := Case.id)]
    exact congrArg List.length hids
  have hcases : b'.cases = b.cases := by
    refine List.ext_getElem hlength fun i hi hi' => ?_
    have hid : b'.cases[i].id = b.cases[i].id := by
      have h := congrArg (fun l => l[i]?) hids
      simpa [ids, hi, hi'] using h
    have hmem : b.cases[i].id ∈ b.ids := List.mem_map_of_mem (List.getElem_mem hi')
    have hfound := hfind _ hmem
    rw [(find_ok_iff hnodup).2 ⟨List.getElem_mem hi', rfl⟩,
      (find_ok_iff (hids ▸ hnodup)).2 ⟨List.getElem_mem hi, hid⟩] at hfound
    exact Except.ok.inj hfound
  obtain ⟨hlimits, hnext⟩ := hsame
  cases b
  cases b'
  cases hcases
  cases hlimits
  cases hnext
  rfl

end Casebook

/-! ## One lap -/

namespace Case

open Relation (ReflTransGen)

variable {c d : Case} {router : Router} {calledOff : Bool} {left : Nat} {job : Job}

theorem advances_lap (c : Case) (router : Router) (calledOff : Bool) (left : Nat) :
    ReflTransGen Advance c (c.lap router calledOff left).2 := by
  have hstep := advances_step c router
  unfold lap
  split
  · exact advances_cancel c
  · split
    · rename_i hs
      rwa [hs] at hstep
    · rename_i hs
      rwa [hs] at hstep
    · rename_i c' hs
      rw [hs] at hstep
      split
      · exact hstep
      · split <;> exact hstep

theorem id_lap (h : c.lap router calledOff left = (job, d)) : d.id = c.id := by
  have hsame := (moves_of_advances (advances_lap c router calledOff left)).same.1
  rwa [h] at hsame

/-- **A run is a lap and the rest of the run.** -/
theorem leads_lap (h : c.lap router calledOff left = (job, d)) :
    job.leads router calledOff d = drive router.steady left (patienceFor calledOff) c := by
  have hcalled : (patienceFor calledOff == some 0) = calledOff := by cases calledOff <;> rfl
  have hpatience : (patienceFor calledOff).map (· - 1) = patienceFor calledOff := by cases calledOff <;> rfl
  unfold lap at h
  unfold drive
  rw [hcalled, Router.steady_apply, Router.after_steady]
  by_cases hcancel : (!c.state.isTerminal && calledOff) = true
  · rw [if_pos hcancel] at h ⊢
    cases h
    rfl
  · rw [if_neg hcancel] at h ⊢
    rcases hstep : c.step router with ⟨failure | _ | f, c'⟩ <;> rw [hstep] at h
    · cases h
      rfl
    · cases h
      rfl
    · cases left with
      | succ left =>
        cases h
        dsimp only
        rw [hpatience]
        rfl
      | zero =>
        dsimp only at h ⊢
        rcases hfirst : c'.firstEnabled with failure | _ | first <;> rw [hfirst] at h <;> cases h <;> rfl

theorem pending_lap (h : c.lap router calledOff left = (job, d)) : job.pending < left + 2 := by
  unfold lap at h
  split at h
  · cases h
    exact Nat.succ_lt_succ (Nat.succ_pos _)
  · split at h
    · cases h
      exact Nat.succ_lt_succ (Nat.succ_pos _)
    · cases h
      exact Nat.succ_lt_succ (Nat.succ_pos _)
    · split at h
      · cases h
        exact Nat.lt_succ_self _
      · split at h <;> cases h <;> exact Nat.one_lt_two

/-- A case that is over has nothing to run. -/
theorem runWithPatience_of_isTerminal (h : c.state.isTerminal = true) (router : Router) (patience : Option Nat) :
    c.runWithPatience router patience = (c.outcome, c) := by
  unfold runWithPatience runWithRouting drive
  rw [h, step_of_isTerminal h]
  rfl

theorem id_drive {routing : Routing} {patience : Option Nat} {result : Except Failure Outcome}
    (h : drive routing left patience c = (result, d)) : d.id = c.id := by
  have hsame := (moves_of_advances (advances_drive routing left patience c)).same.1
  rwa [h] at hsame

/-- The outcome of a run is that of the case it has run. -/
theorem case_of_runWithPatience {patience : Option Nat} {o : Outcome}
    (h : c.runWithPatience router patience = (.ok o, d)) : o.case = c.id :=
  (outcome_reports (drive_ok h).1).1.trans (id_drive h)

end Case

namespace Crew

variable {router : Router} {s t u : Crew} {b b' : Casebook} {ids : List CaseId} {calledOff : Bool} {k l : Nat}

/-! ## Every schedule comes to an end -/

/-- **Every event brings the end nearer.** -/
theorem Event.pending_lt (h : Event router s t) : t.pending < s.pending := by
  unfold pending
  cases h with
  | lap hjobs _ hlap =>
    rw [hjobs, Multiset.map_cons, Multiset.map_cons, Multiset.sum_cons, Multiset.sum_cons]
    exact Nat.add_lt_add_right (Case.pending_lap hlap) _
  | collect hjobs | fail hjobs | discard hjobs =>
    rw [hjobs, Multiset.map_cons, Multiset.sum_cons]
    exact Nat.lt_add_of_pos_left Nat.one_pos

theorem Events.pending_le (h : Events router k s t) : k + t.pending ≤ s.pending := by
  induction h with
  | nil s => omega
  | cons hevent _ ih =>
    have := hevent.pending_lt
    omega

theorem Events.trans (h : Events router k s t) (h' : Events router l t u) : Events router (l + k) s u := by
  induction h with
  | nil s => exact h'
  | cons hevent _ ih => exact .cons hevent (ih h')

theorem Event.events (h : Event router s t) : Events router 1 s t := .cons h (.nil t)

/-! ## Every job stays on its course -/

/-- The crew is on the way to where the cases would come by themselves, and none of them fails. -/
structure OnCourse (router : Router) (b : Casebook) (ids : List CaseId) (calledOff : Bool) (s : Crew) : Prop where
  calm : s.failure? = none ∧ s.calledOff = calledOff
  roster : s.jobs.map Prod.fst + ((s.outcomes.map Outcome.case : List CaseId) : Multiset CaseId) = ids
  jobs : ∀ e ∈ s.jobs, ∃ c d, b.find e.1 = .ok c ∧ s.book.find e.1 = .ok d ∧
    e.2.leads router calledOff d = c.runWithPatience router (patienceFor calledOff)
  outcomes : ∀ o ∈ s.outcomes, ∃ c d, b.find o.case = .ok c ∧
    c.runWithPatience router (patienceFor calledOff) = (.ok o, d) ∧ s.book.find o.case = .ok d
  others : ∀ id, id ∉ ids → s.book.find id = b.find id
  ids_eq : s.book.ids = b.ids
  same : s.book.limits = b.limits ∧ s.book.nextId = b.nextId

theorem onCourse_start (hb : b.Sound) (hrun : b.EachRuns router (patienceFor calledOff) ids) :
    OnCourse router b ids calledOff (start b ids calledOff) := by
  refine ⟨⟨rfl, rfl⟩, ?_, ?_, nofun, fun _ _ => rfl, rfl, rfl, rfl⟩
  · unfold start fresh
    rw [Multiset.map_map]
    exact (add_zero _).trans (Multiset.map_id' _)
  · intro e he
    obtain ⟨id, hid, rfl⟩ := Multiset.mem_map.1 (show e ∈ (ids : Multiset CaseId).map _ from he)
    obtain ⟨c, hfind, -⟩ := hrun id hid
    refine ⟨c, c, hfind, hfind, ?_⟩
    unfold Job.leads Case.runWithPatience Case.runWithRouting
    rw [hb.limits_eq c (Casebook.id_of_find hfind).1]

/-- No two jobs are about the same case, and none about one that has been collected. -/
theorem OnCourse.ne_of_jobs {id : CaseId} {job : Job} {rest : Multiset (CaseId × Job)}
    (h : OnCourse router b ids calledOff s) (hids : ids.Nodup) (hjobs : s.jobs = (id, job) ::ₘ rest) :
    id ∈ ids ∧ (∀ e ∈ rest, e.1 ≠ id) ∧ ∀ o ∈ s.outcomes, o.case ≠ id := by
  have hroster := h.roster
  rw [hjobs, Multiset.map_cons, Multiset.cons_add] at hroster
  have hmem : id ∈ (ids : Multiset CaseId) := hroster ▸ Multiset.mem_cons_self _ _
  have hnodup : (ids : Multiset CaseId).Nodup := hids
  rw [← hroster, Multiset.nodup_cons, Multiset.mem_add, not_or] at hnodup
  obtain ⟨⟨hrest, hdone⟩, -⟩ := hnodup
  refine ⟨hmem, fun e he heq => hrest ?_, fun o ho heq => hdone ?_⟩
  · have hin := Multiset.mem_map_of_mem Prod.fst he
    rwa [heq] at hin
  · rw [← heq]
    exact Multiset.mem_coe.2 (List.mem_map_of_mem ho)

/-- **Every event keeps every job on its course.** -/
theorem Event.onCourse (h : Event router s t) (hs : OnCourse router b ids calledOff s) (hids : ids.Nodup)
    (hrun : b.EachRuns router (patienceFor calledOff) ids) : OnCourse router b ids calledOff t := by
  cases h with
  | @lap id left rest c d job hjobs hfind hlap =>
    obtain ⟨hid, hrest, hdone⟩ := hs.ne_of_jobs hids hjobs
    have hd : d.id = id := (Case.id_lap hlap).trans (Casebook.id_of_find hfind).2
    have hkept (i : CaseId) (hi : i ≠ id) : (s.book.replace d).find i = s.book.find i := by
      rw [Casebook.find_replace, hd, if_neg hi]
    refine ⟨hs.calm, ?_, ?_, ?_, ?_, ?_, hs.same⟩
    · have hroster := hs.roster
      rw [hjobs, Multiset.map_cons] at hroster
      dsimp only
      rwa [Multiset.map_cons]
    · intro e he
      rcases Multiset.mem_cons.1 he with rfl | he
      · obtain ⟨c₀, c', hc₀, hc', hleads⟩ := hs.jobs (id, .working left) (hjobs ▸ Multiset.mem_cons_self _ _)
        cases hfind.symm.trans hc'
        refine ⟨c₀, d, hc₀, ?_, ?_⟩
        · dsimp only
          rw [Casebook.find_replace, hd, if_pos rfl, hfind]
          rfl
        · rw [hs.calm.2] at hlap
          exact (Case.leads_lap hlap).trans hleads
      · obtain ⟨c₀, c', hc₀, hc', hleads⟩ := hs.jobs e (hjobs ▸ Multiset.mem_cons_of_mem he)
        exact ⟨c₀, c', hc₀, (hkept _ (hrest e he)).trans hc', hleads⟩
    · intro o ho
      obtain ⟨c₀, c', hc₀, hown, hc'⟩ := hs.outcomes o ho
      exact ⟨c₀, c', hc₀, hown, (hkept _ (hdone o ho)).trans hc'⟩
    · intro i hi
      exact (hkept i fun heq => hi (heq ▸ hid)).trans (hs.others i hi)
    · exact (Casebook.ids_replace _ _).trans hs.ids_eq
  | @collect id o rest hjobs _ =>
    obtain ⟨c₀, c', hc₀, hc', hleads⟩ := hs.jobs (id, .finished (.ok o)) (hjobs ▸ Multiset.mem_cons_self _ _)
    have hcase : o.case = id := (Case.case_of_runWithPatience hleads.symm).trans (Casebook.id_of_find hc₀).2
    refine ⟨hs.calm, ?_, ?_, ?_, hs.others, hs.ids_eq, hs.same⟩
    · have hroster := hs.roster
      rw [hjobs, Multiset.map_cons, Multiset.cons_add] at hroster
      rw [List.map_append, ← Multiset.coe_add, ← hroster, List.map_singleton, hcase, Multiset.coe_singleton, ← add_assoc,
        add_comm, Multiset.singleton_add]
    · intro e he
      exact hs.jobs e (hjobs ▸ Multiset.mem_cons_of_mem he)
    · intro o' ho'
      rcases List.mem_append.1 ho' with ho' | ho'
      · exact hs.outcomes o' ho'
      · rw [List.mem_singleton.1 ho', hcase]
        exact ⟨c₀, c', hc₀, hleads.symm, hc'⟩
  | @fail id failure rest hjobs _ =>
    obtain ⟨hid, -, -⟩ := hs.ne_of_jobs hids hjobs
    obtain ⟨c₀, c', hc₀, hc', hleads⟩ := hs.jobs (id, .finished (.error failure)) (hjobs ▸ Multiset.mem_cons_self _ _)
    obtain ⟨c, hc, o, d, hown⟩ := hrun id hid
    cases hc₀.symm.trans hc
    cases hleads.trans hown
  | discard _ hfailure => cases hs.calm.1.symm.trans hfailure

theorem Events.onCourse (h : Events router k s t) (hs : OnCourse router b ids calledOff s) (hids : ids.Nodup)
    (hrun : b.EachRuns router (patienceFor calledOff) ids) : OnCourse router b ids calledOff t := by
  induction h with
  | nil s => exact hs
  | cons hevent _ ih => exact ih (hevent.onCourse hs hids hrun)

/-- As long as there are jobs, something can happen. -/
theorem OnCourse.exists_event (hs : OnCourse router b ids calledOff s) (hjobs : s.jobs ≠ 0) :
    ∃ t, Event router s t := by
  obtain ⟨⟨id, job⟩, hmem⟩ := Multiset.exists_mem_of_ne_zero hjobs
  obtain ⟨rest, hrest⟩ := Multiset.exists_cons_of_mem hmem
  obtain ⟨c, d, -, hfind, -⟩ := hs.jobs _ hmem
  cases job with
  | working left => exact ⟨_, .lap hrest hfind rfl⟩
  | finished result =>
    cases result with
    | ok o => exact ⟨_, .collect hrest hs.calm.1⟩
    | error failure => exact ⟨_, .fail hrest hs.calm.1⟩

/-! ## The end is the same for all -/

/-- Sorting by numbers, no two of them the same, leaves them in strictly ascending order. -/
theorem pairwise_sorted {os : List Outcome} (h : (os.map Outcome.case).Nodup) :
    (os.mergeSort (fun o o' => decide (o.case ≤ o'.case))).Pairwise (fun o o' => o.case < o'.case) := by
  have hsorted : (os.mergeSort (fun o o' => decide (o.case ≤ o'.case))).Pairwise (fun o o' => o.case ≤ o'.case) := by
    refine (List.pairwise_mergeSort ?_ ?_ os).imp fun h => of_decide_eq_true h
    · intro o o' o'' h h'
      exact decide_eq_true (Nat.le_trans (of_decide_eq_true h) (of_decide_eq_true h'))
    · intro o o'
      rcases Nat.le_total o.case o'.case with h | h <;> simp [h]
  have hnodup := ((List.mergeSort_perm os (fun o o' => decide (o.case ≤ o'.case))).map Outcome.case).nodup_iff.2 h
  exact hsorted.imp₂ (fun o o' hle hne => Nat.lt_of_le_of_ne hle hne) (List.pairwise_map.1 hnodup)

/-- **When all jobs have been collected, each case has been run as by itself.** -/
theorem OnCourse.runApart (hs : OnCourse router b ids calledOff s) (hids : ids.Nodup) (hjobs : s.jobs = 0) :
    ∃ os, s.answer = .ok os ∧ b.RunApart router (patienceFor calledOff) ids os s.book := by
  have hroster := hs.roster
  rw [hjobs, Multiset.map_zero, zero_add, Multiset.coe_eq_coe] at hroster
  have hperm := List.mergeSort_perm s.outcomes (fun o o' => decide (o.case ≤ o'.case))
  refine ⟨s.outcomes.mergeSort (fun o o' => decide (o.case ≤ o'.case)), ?_, ?_⟩
  · unfold answer collected
    rw [hs.calm.1]
    rfl
  · exact ⟨pairwise_sorted (hroster.nodup_iff.2 hids), (hperm.map _).trans hroster,
      fun o ho => hs.outcomes o (hperm.mem_iff.1 ho), hs.others, hs.ids_eq, hs.same⟩

end Crew

namespace Casebook

variable {router : Router} {patience : Option Nat} {ids : List CaseId} {b b' b'' : Casebook} {os os' : List Outcome}

theorem RunApart.mem (h : b.RunApart router patience ids os b') (h' : b.RunApart router patience ids os' b'')
    {o : Outcome} (ho : o ∈ os) : o ∈ os' := by
  have hcase : o.case ∈ os'.map Outcome.case := (h.cases.trans h'.cases.symm).mem_iff.1 (List.mem_map_of_mem ho)
  obtain ⟨o', ho', heq⟩ := List.mem_map.1 hcase
  obtain ⟨c, d, hc, hrun, -⟩ := h.alone o ho
  obtain ⟨c', d', hc', hrun', -⟩ := h'.alone o' ho'
  rw [heq] at hc'
  cases hc.symm.trans hc'
  cases hrun.symm.trans hrun'
  exact ho'

/-- **There is only one way for each case to have been run by itself.** -/
theorem RunApart.unique (h : b.RunApart router patience ids os b') (h' : b.RunApart router patience ids os' b'')
    (hb : b.ids.Nodup) : os = os' ∧ b' = b'' := by
  constructor
  · have hirrefl : Std.Irrefl (fun o o' : Outcome => o.case < o'.case) := ⟨fun o => Nat.lt_irrefl _⟩
    have hasymm : Std.Asymm (fun o o' : Outcome => o.case < o'.case) := ⟨fun o o' => Nat.lt_asymm⟩
    exact h.ascending.eq_of_mem_iff h'.ascending fun o => ⟨h.mem h', h'.mem h⟩
  · refine eq_of_find (h.ids_eq.trans h'.ids_eq.symm) (h'.ids_eq.symm ▸ hb) (fun id _ => ?_)
      ⟨h.same.1.trans h'.same.1.symm, h.same.2.trans h'.same.2.symm⟩
    by_cases hid : id ∈ ids
    · obtain ⟨o, ho, rfl⟩ := List.mem_map.1 (h.cases.mem_iff.2 hid)
      obtain ⟨c, d, hc, hrun, hd⟩ := h.alone o ho
      obtain ⟨c', d', hc', hrun', hd'⟩ := h'.alone o (h.mem h' ho)
      cases hc.symm.trans hc'
      cases hrun.symm.trans hrun'
      rw [hd, hd']
    · rw [h.others id hid, h'.others id hid]

end Casebook

end Workflow
