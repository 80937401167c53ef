import Mathlib.Data.List.Induction
import Mathlib.Data.List.Nodup
import Workflow.Case.Moves
import Workflow.Casebook.History
import Workflow.Proofs.Lifecycle
import Workflow.Proofs.OrJoin
/-!
# Isolation — the cases of a book do not interfere

Whatever is asked of a casebook, in whatever order and of whichever cases, each case in it is what it would be on its
own: launched on its net under its number, and given its own errands (`Tells`).  One request keeps that
(`Tells.handle`), so it holds after every history (`tells_after`), and so every answer is the one the case would give on
its own (`cases_apart`).
-/
namespace Workflow

namespace Case

theorem id_serve (c : Case) (e : Errand) : (c.serve e).2.id = c.id := by
  cases e with
  | fire t s => exact (moves_of_advances (advances_fire c t s)).same.1
  | restore d => exact (moves_restore c d).same.1
  | cancel => exact (moves_of_advances (advances_cancel c)).same.1
  | run router => exact (moves_of_advances (advances_drive router.steady _ none c)).same.1
  | _ => rfl

theorem id_served (c : Case) (es : List Errand) : (c.served es).id = c.id := by
  induction es generalizing c with
  | nil => rfl
  | cons e es ih => exact (ih (c.serve e).2).trans (c.id_serve e)

theorem served_append (c : Case) (es : List Errand) (e : Errand) : c.served (es ++ [e]) = ((c.served es).serve e).2 :=
  List.foldl_append

end Case

namespace Casebook

variable {b : Casebook} {id : CaseId} {c : Case} {net : Net} {es : List Errand} {rs : List Request} {r : Request}

/-! ## A case and its number -/

theorem find_ok_iff (hids : b.ids.Nodup) : b.find id = .ok c ↔ c ∈ b.cases ∧ c.id = id := by
  unfold find
  constructor
  · intro h
    split at h
    · rename_i d hd
      cases h
      exact ⟨List.mem_of_find?_eq_some hd, by simpa using List.find?_some hd⟩
    · cases h
  · rintro ⟨hc, rfl⟩
    cases hfind : b.cases.find? (fun d => d.id == c.id) with
    | none => exact absurd (List.find?_eq_none.1 hfind c hc) (by simp)
    | some d =>
      have hd := List.mem_of_find?_eq_some hfind
      have hid : d.id = c.id := by simpa using List.find?_some hfind
      rw [List.inj_on_of_nodup_map hids hd hc hid]

theorem find_of_notMem (h : id ∉ b.ids) : b.find id = .error (.noSuchCase id) := by
  unfold find
  split
  · rename_i c hc
    have hid : c.id = id := by simpa using List.find?_some hc
    exact absurd (List.mem_map.2 ⟨c, List.mem_of_find?_eq_some hc, hid⟩) h
  · rfl

theorem ids_replace (b : Casebook) (c : Case) : (b.replace c).ids = b.ids := by
  unfold ids replace
  rw [List.map_map]
  refine List.map_congr_left fun d _ => ?_
  rw [Function.comp_apply]
  split
  · rename_i hd
    exact hd.symm
  · rfl

theorem mem_cases_replace {d : Case} (hc : c.id ∈ b.ids) :
    d ∈ (b.replace c).cases ↔ d = c ∨ d ∈ b.cases ∧ d.id ≠ c.id := by
  unfold replace
  rw [List.mem_map]
  constructor
  · rintro ⟨e, he, rfl⟩
    split
    · exact .inl rfl
    · rename_i hne
      exact .inr ⟨he, hne⟩
  · rintro (rfl | ⟨hd, hne⟩)
    · obtain ⟨e, he, hid⟩ := List.mem_map.1 hc
      exact ⟨e, he, if_pos hid⟩
    · exact ⟨d, hd, if_neg hne⟩

theorem replace_self (hids : b.ids.Nodup) (hc : c ∈ b.cases) : b.replace c = b := by
  have hcases : b.cases.map (fun d => if d.id = c.id then c else d) = b.cases := by
    conv_rhs => rw [← List.map_id b.cases]
    refine List.map_congr_left fun d hd => ?_
    split
    · rename_i hid
      exact (List.inj_on_of_nodup_map hids hd hc hid).symm
    · rfl
  unfold replace
  rw [hcases]

theorem remove_of_mem (hids : b.ids.Nodup) (hc : c ∈ b.cases) :
    b.remove c.id = (.ok (), { b with cases := b.cases.filter (fun d => d.id != c.id) }) := by
  unfold remove
  rw [(find_ok_iff hids).2 ⟨hc, rfl⟩]

/-! ## One errand -/

/-- **A book serves as the case does**, and keeps what the case has become. -/
theorem serve_of_mem (hids : b.ids.Nodup) (hc : c ∈ b.cases) (e : Errand) :
    b.serve c.id e = ((c.serve e).1, b.replace (c.serve e).2) := by
  have hfind : b.find c.id = .ok c := (find_ok_iff hids).2 ⟨hc, rfl⟩
  cases e with
  | fire | restore | cancel | run =>
    simp only [serve, fire, restore, cancel, run, update, hfind]
    rfl
  | state | outcome | enabledTransitions | enablement | save =>
    simp only [serve, state, outcome, enabledTransitions, enablement, save, hfind]
    exact congrArg _ (replace_self hids hc).symm

theorem serve_of_notMem (h : id ∉ b.ids) (e : Errand) : b.serve id e = (.failed (.noSuchCase id), b) := by
  have hfind := find_of_notMem h
  cases e with
  | fire | restore | cancel | run =>
    simp only [serve, fire, restore, cancel, run, update, hfind]
    rfl
  | state | outcome | enabledTransitions | enablement | save =>
    simp only [serve, state, outcome, enabledTransitions, enablement, save, hfind]
    rfl

theorem handle_of_notMem (h : id ∉ b.ids) (hr : r.Concerns id) : b.handle r = (.failed (.noSuchCase id), b) := by
  cases r with
  | remove i =>
    obtain rfl : i = id := hr
    simp only [handle, remove, find_of_notMem h]
    rfl
  | ask i e =>
    obtain rfl : i = id := hr
    exact serve_of_notMem h e
  | launch | ids => exact hr.elim

/-! ## What a history says, one request later -/

theorem launches_append (rs rs' : List Request) : launches (rs ++ rs') = launches rs + launches rs' :=
  List.countP_append

theorem Holds.id_le (h : Holds rs id net es) : id ≤ launches rs := by
  obtain ⟨earlier, later, rfl, rfl, -, -⟩ := h
  rw [launches_append]
  exact Nat.add_le_add_left (List.countP_pos_iff.2 ⟨_, List.mem_cons_self, rfl⟩) _

/-- A case is there after one more request if that has launched it, or if it was there and has not been removed. -/
theorem holds_concat : Holds (rs ++ [r]) id net es ↔ (r = .launch net ∧ id = launches rs + 1 ∧ es = []) ∨
    ∃ es', Holds rs id net es' ∧ r ≠ .remove id ∧ es = es' ++ (r.errand? id).toList := by
  constructor
  · rintro ⟨earlier, later, heq, hid, hkept, rfl⟩
    rcases List.eq_nil_or_concat later with rfl | ⟨later, r', rfl⟩
    · obtain ⟨rfl, hr⟩ := List.append_inj' heq rfl
      exact .inl ⟨List.head_eq_of_cons_eq hr, hid, rfl⟩
    · rw [List.concat_eq_append, ← List.cons_append, ← List.append_assoc] at heq
      obtain ⟨rfl, hr⟩ := List.append_inj' heq rfl
      obtain rfl := List.head_eq_of_cons_eq hr
      rw [List.concat_eq_append, List.mem_append, not_or, List.mem_singleton] at hkept
      refine .inr ⟨errands id later, ⟨earlier, later, rfl, hid, hkept.1, rfl⟩, Ne.symm hkept.2, ?_⟩
      rw [List.concat_eq_append, errands, List.filterMap_append]
      cases hr' : r.errand? id <;> simp [errands, hr']
  · rintro (⟨rfl, rfl, rfl⟩ | ⟨_, ⟨earlier, later, rfl, rfl, hkept, rfl⟩, hr, rfl⟩)
    · exact ⟨rs, [], rfl, rfl, List.not_mem_nil, rfl⟩
    · refine ⟨earlier, later ++ [r], by simp, rfl, ?_, ?_⟩
      · rw [List.mem_append, not_or, List.mem_singleton]
        exact ⟨hkept, Ne.symm hr⟩
      · rw [errands, errands, List.filterMap_append]
        cases hr' : r.errand? (launches earlier + 1) <;> simp [hr']

theorem holds_concat_of_not_concerns (hlaunch : r.isLaunch = false) (hr : ¬ r.Concerns id) :
    Holds (rs ++ [r]) id net es ↔ Holds rs id net es := by
  rw [holds_concat]
  cases r with
  | launch => cases hlaunch
  | remove i =>
    have hne : Request.remove i ≠ .remove id := fun h => hr (Request.remove.inj h)
    simp [hne, Request.errand?]
  | ids => simp [Request.errand?]
  | ask i e =>
    have hne : i ≠ id := hr
    simp [hne, Request.errand?]

/-! ## The book tells what the history says -/

/-- The cases of the book are those that the history says it holds, each as it would be on its own. -/
structure Tells (limits : RunLimits) (rs : List Request) (b : Casebook) : Prop where
  limits_eq : b.limits = limits
  nextId_eq : b.nextId = launches rs + 1
  ascending : b.ids.Pairwise (· < ·)
  mem_cases_iff : ∀ c, c ∈ b.cases ↔ ∃ net es, Holds rs c.id net es ∧ c = (Case.launch net c.id limits).served es

variable {limits : RunLimits}

namespace Tells

theorem nodup_ids (h : Tells limits rs b) : b.ids.Nodup := h.ascending.imp Nat.ne_of_lt

theorem mem_cases (h : Tells limits rs b) (hc : Holds rs id net es) :
    (Case.launch net id limits).served es ∈ b.cases := by
  rw [h.mem_cases_iff, Case.id_served]
  exact ⟨net, es, hc, rfl⟩

theorem mem_ids_iff (h : Tells limits rs b) : id ∈ b.ids ↔ ∃ net es, Holds rs id net es := by
  constructor
  · intro hid
    obtain ⟨c, hc, rfl⟩ := List.mem_map.1 hid
    obtain ⟨net, es, hholds, -⟩ := (h.mem_cases_iff c).1 hc
    exact ⟨net, es, hholds⟩
  · rintro ⟨net, es, hholds⟩
    exact List.mem_map.2 ⟨_, h.mem_cases hholds, Case.id_served _ es⟩

theorem nextId_eq_concat (h : Tells limits rs b) (hlaunch : r.isLaunch = false) :
    b.nextId = launches (rs ++ [r]) + 1 := by
  rw [h.nextId_eq, launches_append, launches, launches, List.countP_singleton, hlaunch]
  rfl

theorem launch (h : Tells limits rs b) (net : Net) : Tells limits (rs ++ [.launch net]) (b.launch net).2 := by
  have hnew : launches (rs ++ [.launch net]) = launches rs + 1 := launches_append rs _
  refine ⟨h.limits_eq, ?_, ?_, fun c => ?_⟩
  · exact congrArg (· + 1) (h.nextId_eq.trans hnew.symm)
  · have hids : (b.launch net).2.ids = b.ids ++ [b.nextId] := List.map_append
    rw [hids, List.pairwise_append]
    refine ⟨h.ascending, List.pairwise_singleton _ _, fun i hi j hj => ?_⟩
    obtain ⟨net', es, hholds⟩ := h.mem_ids_iff.1 hi
    rw [List.mem_singleton.1 hj, h.nextId_eq]
    exact Nat.lt_succ_of_le hholds.id_le
  · have hcases : c ∈ (b.launch net).2.cases ↔ c ∈ b.cases ∨ c = Case.launch net b.nextId b.limits := by
      rw [← List.mem_singleton, ← List.mem_append]
      rfl
    rw [hcases, h.mem_cases_iff, h.limits_eq, h.nextId_eq]
    simp only [holds_concat]
    constructor
    · rintro (⟨net', es, hholds, hc⟩ | rfl)
      · exact ⟨net', es, .inr ⟨es, hholds, nofun, (List.append_nil es).symm⟩, hc⟩
      · exact ⟨net, [], .inl ⟨rfl, rfl, rfl⟩, rfl⟩
    · rintro ⟨net', es, ⟨hnet, hid, rfl⟩ | ⟨es', hholds, -, rfl⟩, hc⟩
      · cases hnet
        rw [hid] at hc
        exact .inr hc
      · exact .inl ⟨net', es', hholds, hc.trans (congrArg _ (List.append_nil es'))⟩

/-- A request that concerns no case of the book, and launches none, changes nothing. -/
theorem idle (h : Tells limits rs b) (hlaunch : r.isLaunch = false) (hr : ∀ id ∈ b.ids, ¬ r.Concerns id) :
    Tells limits (rs ++ [r]) b := by
  refine ⟨h.limits_eq, h.nextId_eq_concat hlaunch, h.ascending, fun c => ?_⟩
  have hsame : ∀ net es, Holds (rs ++ [r]) c.id net es ↔ Holds rs c.id net es := fun net es => by
    by_cases hid : c.id ∈ b.ids
    · exact holds_concat_of_not_concerns hlaunch (hr c.id hid)
    · refine iff_of_false (fun hc => ?_) (fun hc => hid (h.mem_ids_iff.2 ⟨net, es, hc⟩))
      rcases holds_concat.1 hc with ⟨rfl, -⟩ | ⟨es', hc, -⟩
      · cases hlaunch
      · exact hid (h.mem_ids_iff.2 ⟨net, es', hc⟩)
  simp only [hsame]
  exact h.mem_cases_iff c

theorem remove (h : Tells limits rs b) (hid : id ∈ b.ids) : Tells limits (rs ++ [.remove id]) (b.remove id).2 := by
  obtain ⟨d, hd, rfl⟩ := List.mem_map.1 hid
  rw [remove_of_mem h.nodup_ids hd]
  refine ⟨h.limits_eq, h.nextId_eq_concat rfl, h.ascending.sublist (List.filter_sublist.map _), fun c => ?_⟩
  rw [List.mem_filter, bne_iff_ne, h.mem_cases_iff]
  constructor
  · rintro ⟨⟨net, es, hholds, hc⟩, hne⟩
    have hr : Request.remove d.id ≠ .remove c.id := fun heq => hne (Request.remove.inj heq).symm
    exact ⟨net, es, holds_concat.2 (.inr ⟨es, hholds, hr, (List.append_nil es).symm⟩), hc⟩
  · rintro ⟨net, es, hholds, hc⟩
    rcases holds_concat.1 hholds with ⟨hr, -⟩ | ⟨es', hheld, hr, rfl⟩
    · cases hr
    · exact ⟨⟨net, es', hheld, hc.trans (congrArg _ (List.append_nil es'))⟩, fun heq => hr (congrArg _ heq.symm)⟩

theorem ask (h : Tells limits rs b) (hid : id ∈ b.ids) (e : Errand) :
    Tells limits (rs ++ [.ask id e]) (b.serve id e).2 := by
  obtain ⟨c, hc, rfl⟩ := List.mem_map.1 hid
  rw [serve_of_mem h.nodup_ids hc]
  have hids := b.ids_replace (c.serve e).2
  refine ⟨h.limits_eq, h.nextId_eq_concat rfl, hids.symm ▸ h.ascending, fun d => ?_⟩
  rw [mem_cases_replace (by rwa [c.id_serve]), c.id_serve]
  have hother {net : Net} {es : List Errand} (hne : d.id ≠ c.id) :
      Holds (rs ++ [.ask c.id e]) d.id net es ↔ Holds rs d.id net es :=
    holds_concat_of_not_concerns rfl (r := .ask c.id e) (Ne.symm hne)
  constructor
  · rintro (rfl | ⟨hd, hne⟩)
    · obtain ⟨net, es, hholds, hc'⟩ := (h.mem_cases_iff c).1 hc
      rw [c.id_serve]
      refine ⟨net, es ++ [e], holds_concat.2 (.inr ⟨es, hholds, nofun, ?_⟩), ?_⟩
      · rw [Request.errand?, if_pos rfl]
        rfl
      · rw [Case.served_append, ← hc']
    · obtain ⟨net, es, hholds, hd'⟩ := (h.mem_cases_iff d).1 hd
      exact ⟨net, es, (hother hne).2 hholds, hd'⟩
  · rintro ⟨net, es, hholds, hd⟩
    by_cases hne : d.id = c.id
    · rcases holds_concat.1 hholds with ⟨hr, -⟩ | ⟨es', hheld, -, rfl⟩
      · cases hr
      · have hmem := h.mem_cases hheld
        have hsame : (Case.launch net d.id limits).served es' = c :=
          List.inj_on_of_nodup_map h.nodup_ids hmem hc ((Case.id_served _ es').trans hne)
        rw [Request.errand?, if_pos hne.symm, Option.toList_some, Case.served_append, hsame] at hd
        exact .inl hd
    · exact .inr ⟨(h.mem_cases_iff d).2 ⟨net, es, (hother hne).1 hholds, hd⟩, hne⟩

/-- **One request later the book still tells what the history says.** -/
theorem handle (h : Tells limits rs b) (r : Request) : Tells limits (rs ++ [r]) (b.handle r).2 := by
  cases r with
  | launch net => exact h.launch net
  | ids => exact h.idle rfl fun _ _ => id
  | remove id =>
    by_cases hid : id ∈ b.ids
    · exact h.remove hid
    · rw [handle_of_notMem (r := .remove id) hid rfl]
      exact h.idle rfl fun i hi heq => hid (heq ▸ hi)
  | ask id e =>
    by_cases hid : id ∈ b.ids
    · exact h.ask hid e
    · rw [handle_of_notMem (r := .ask id e) hid rfl]
      exact h.idle rfl fun i hi heq => hid (heq ▸ hi)

end Tells

theorem tells_after (limits : RunLimits) (rs : List Request) : Tells limits rs (after { limits } rs) := by
  induction rs using List.reverseRecOn with
  | nil =>
    refine ⟨rfl, rfl, .nil, fun c => iff_of_false List.not_mem_nil ?_⟩
    rintro ⟨net, es, ⟨earlier, later, heq, -⟩, -⟩
    simp at heq
  | append_singleton rs r ih =>
    rw [after_append]
    exact ih.handle r

/-- **The cases of a book do not interfere.**  After any history a launch takes the next number, also if cases have been
removed; the numbers listed, in ascending order, are those launched and not removed since; under any other number there
is nothing to be asked or removed; and each case is, and answers, as if it had been launched on its own and been given
its own errands only. -/
theorem cases_apart {limits : RunLimits} {rs : List Request} {b : Casebook} (hb : b = after { limits } rs) :
    (∀ net, (b.handle (.launch net)).1 = .launched (launches rs + 1)) ∧
      (b.handle .ids).1 = .ids b.ids ∧ b.ids.Pairwise (· < ·) ∧ (∀ id, id ∈ b.ids ↔ ∃ net es, Holds rs id net es) ∧
      (∀ id, id ∉ b.ids → ∀ r, r.Concerns id → b.handle r = (.failed (.noSuchCase id), b)) ∧
      ∀ id net es, Holds rs id net es →
        b.find id = .ok ((Case.launch net id limits).served es) ∧ (b.handle (.remove id)).1 = .done ∧
          ∀ e, (b.handle (.ask id e)).1 = (((Case.launch net id limits).served es).serve e).1 := by
  have h := tells_after limits rs
  rw [← hb] at h
  refine ⟨fun net => ?_, rfl, h.ascending, fun id => h.mem_ids_iff, fun id hid r => handle_of_notMem hid,
    fun id net es hholds => ?_⟩
  · exact congrArg Response.launched h.nextId_eq
  · have hmem := h.mem_cases hholds
    have hid : ((Case.launch net id limits).served es).id = id := Case.id_served _ es
    have hremove := remove_of_mem h.nodup_ids hmem
    have hserve := serve_of_mem h.nodup_ids hmem
    rw [hid] at hremove hserve
    refine ⟨(find_ok_iff h.nodup_ids).2 ⟨hmem, hid⟩, ?_, fun e => congrArg Prod.fst (hserve e)⟩
    exact congrArg (fun r => Response.of (fun _ => .done) r.1) hremove

/-- Of two cases the first is removed after a firing each; the second has fired as it would have done alone. -/
theorem offer_apart : ∃ b : Casebook,
    b = after {} [.launch Case.detour, .launch Net.offer, .ask 1 (.fire 0 (.single 2)),
      .ask 2 (.fire 0 (.ofList [1, 4])), .remove 1, .ask 1 .cancel] ∧
    (b.handle (.launch Net.offer)).1 = .launched 3 ∧ b.ids = [2] ∧
    b.handle (.ask 1 .state) = (.failed (.noSuchCase 1), b) ∧
    b.find 2 = .ok ((Case.launch Net.offer 2 {}).served [.fire 0 (.ofList [1, 4])]) ∧
    (b.handle (.ask 2 .enabledTransitions)).1 = .transitions [2] := by
  refine ⟨_, rfl, ?_⟩
  obtain ⟨hlaunch, -, -, -, hnone, hcase⟩ := cases_apart (b := after { limits := {} } [.launch Case.detour,
    .launch Net.offer, .ask 1 (.fire 0 (.single 2)), .ask 2 (.fire 0 (.ofList [1, 4])), .remove 1, .ask 1 .cancel]) rfl
  obtain ⟨hfind, -, hasked⟩ := hcase 2 Net.offer [.fire 0 (.ofList [1, 4])]
    ⟨[.launch Case.detour], _, rfl, rfl, nofun, rfl⟩
  exact ⟨hlaunch Net.offer, rfl, hnone 1 (by decide) (.ask 1 .state) rfl, hfind, (hasked .enabledTransitions).trans rfl⟩

end Casebook

end Workflow
