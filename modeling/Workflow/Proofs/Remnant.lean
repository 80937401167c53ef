import Mathlib.Data.List.Forall2
import Workflow.Proofs.Firing
import Workflow.Proofs.Sweep
/-!
# Remnant — what restrictions leave of a reset net

A restriction drops places from what a transition puts and clears, and it would do the same to what the transition
takes.  It never does: a transition is kept only when its input places are, so what is left of it needs as many tokens
as it did, and on the same places (`RemnantOf.restrict`).  The search numbers the places afresh and drops the others
once more, with as little effect (`RemnantOf.asksFor`).
-/
namespace Workflow

/-- The transition without what it puts and clears outside `alive`. -/
def ResetTransition.trim (tr : ResetTransition) (alive : List Nat) : ResetTransition :=
  { tr with
    postset := tr.postset.filter alive.contains
    resets := tr.resets.filter alive.contains }

/-- A part of a part. -/
theorem ResetTransition.within_trim {tr : ResetTransition} {alive alive' : List Nat}
    (hsub : ∀ p ∈ alive', p ∈ alive) (hpre : ∀ p ∈ tr.preset, p ∈ alive') :
    (tr.trim alive).within alive' = tr.trim alive' := by
  have hfilter (places : List Nat) :
      (places.filter alive.contains).filter alive'.contains = places.filter alive'.contains := by
    rw [List.filter_filter]
    refine List.filter_congr fun p _ => ?_
    rw [Bool.eq_iff_iff, Bool.and_eq_true, List.contains_iff_mem, List.contains_iff_mem]
    exact and_iff_left_of_imp (hsub p)
  have hpreset : tr.preset.filter alive'.contains = tr.preset :=
    List.filter_eq_self.2 fun p hp => List.contains_iff_mem.2 (hpre p hp)
  unfold within trim
  dsimp only
  rw [hfilter, hfilter, hpreset]

namespace ResetNet

/-- **What is left of a net**: some of its places and some of its transitions, in their order.  The transitions take
what they took, and put and clear only what is left. -/
structure RemnantOf (r whole : ResetNet) (origins : List ResetTransition) : Prop where
  conditions_eq : r.conditions = whole.conditions
  labels_eq : r.labels = whole.labels
  alive_sublist : r.alive.Sublist whole.alive
  origins_sublist : origins.Sublist whole.transitions
  transitions_eq : r.transitions = origins.map (·.trim r.alive)
  preset_alive : ∀ tr ∈ origins, ∀ p ∈ tr.preset, p ∈ r.alive

variable {net : Net} {limits : AnalysisLimits} {whole r : ResetNet} {origins : List ResetTransition}
  {reached : List Nat} {kept : ResetTransition → Bool}

theorem RemnantOf.withoutStartsOf (h : r.RemnantOf whole origins) (t : TransitionId) :
    ∃ origins', (r.withoutStartsOf t).RemnantOf whole origins' := by
  refine ⟨origins.filter fun tr => !(tr.task == t && tr.phase == .start), h.conditions_eq, h.labels_eq, h.alive_sublist,
    List.filter_sublist.trans h.origins_sublist, ?_, fun tr htr => h.preset_alive tr (List.mem_filter.1 htr).1⟩
  unfold ResetNet.withoutStartsOf
  dsimp only
  rw [h.transitions_eq, List.filter_map]
  rfl

theorem RemnantOf.keep (h : r.RemnantOf whole origins)
    (hkept : ∀ tr ∈ r.transitions, kept tr = true → ∀ p ∈ tr.preset, p ∈ reached) :
    ∃ origins', (r.keep reached kept).RemnantOf whole origins' := by
  have hpre : ∀ tr ∈ origins.filter (kept ∘ (·.trim r.alive)), ∀ p ∈ tr.preset, p ∈ (r.keep reached kept).alive := by
    intro tr htr p hp
    obtain ⟨htr, hk⟩ := List.mem_filter.1 htr
    have hmem : tr.trim r.alive ∈ r.transitions := h.transitions_eq ▸ List.mem_map_of_mem htr
    exact mem_alive_keep.2 ⟨h.preset_alive tr htr p hp, hkept _ hmem hk p hp⟩
  refine ⟨origins.filter (kept ∘ (·.trim r.alive)), h.conditions_eq, h.labels_eq,
    List.filter_sublist.trans h.alive_sublist, List.filter_sublist.trans h.origins_sublist, ?_, hpre⟩
  have htransitions : (r.keep reached kept).transitions =
      (r.transitions.filter kept).map (·.within (r.keep reached kept).alive) := rfl
  rw [htransitions, h.transitions_eq, List.filter_map, List.map_map]
  exact List.map_congr_left fun tr htr =>
    ResetTransition.within_trim (fun p hp => (mem_alive_keep.1 hp).1) (hpre tr htr)

theorem PartOf.restrict (hr : PartOf net limits r) : ∀ c : Restriction, PartOf net limits (r.restrict c)
  | .withoutStartsOf t => hr.withoutStartsOf t
  | .backward targets => hr.restrictBackward targets
  | .forward marked => hr.restrictForward marked

/-- **One restriction more**: a transition that is kept keeps all its input places. -/
theorem RemnantOf.restrict (h : r.RemnantOf whole origins) (hr : r.WellFormed) :
    ∀ c : Restriction, ∃ origins', (r.restrict c).RemnantOf whole origins'
  | .withoutStartsOf t => h.withoutStartsOf t
  | .backward targets => h.keep fun tr htr hk p hp => by
    obtain ⟨q, hq, hreached⟩ := List.any_eq_true.1 hk
    exact mem_reachedBackward_of_mem hr htr hq (List.contains_iff_mem.1 hreached) hp
  | .forward marked => h.keep fun tr htr hk p hp => List.contains_iff_mem.1 (List.all_eq_true.1 hk p hp)

theorem alive_restrict : ∀ {c : Restriction}, (r.restrict c).alive.Sublist r.alive
  | .withoutStartsOf _ => List.Sublist.refl _
  | .backward _ => List.filter_sublist
  | .forward _ => List.filter_sublist

/-- **Places are dropped for good.** -/
theorem alive_foldl_restrict : ∀ (cuts : List Restriction) (r : ResetNet), (cuts.foldl restrict r).alive.Sublist r.alive
  | [], _ => List.Sublist.refl _
  | _ :: cuts, _ => (alive_foldl_restrict cuts _).trans alive_restrict

end ResetNet

/-! ## The whole net -/

namespace Net

variable {net : Net} {limits : AnalysisLimits} {whole : ResetNet} {t : TransitionId} {take put : List PlaceId}

theorem nodup_of_mem_eagerTakes (h : take ∈ net.eagerTakes t) : take.Nodup := by
  unfold eagerTakes at h
  split at h
  · cases h
  · rw [List.mem_singleton.1 h]
    exact net.nodup_preset t
  all_goals
    obtain ⟨q, -, rfl⟩ := List.mem_map.1 h
    exact List.nodup_singleton q

theorem nodup_of_mem_splitChoices (h : put ∈ net.splitChoices t) : put.Nodup := by
  unfold splitChoices at h
  split at h
  · cases h
  · rw [List.mem_singleton.1 h]
    exact net.nodup_postset t
  · obtain ⟨q, -, rfl⟩ := List.mem_map.1 h
    exact List.nodup_singleton q
  · exact (mem_nonemptyChoices.1 h).1.nodup (net.nodup_postset t)

/-- Every transition of a reset net takes tokens, one from each of its input places. -/
theorem arcs_toResetNet (h : net.toResetNet limits = .ok whole) {tr : ResetTransition} (htr : tr ∈ whole.transitions) :
    tr.preset ≠ [] ∧ tr.preset.Nodup ∧ tr.postset.Nodup := by
  rcases mem_toResetNet h htr with ⟨t, suffix, take, htake, rfl⟩ | ⟨t, suffix, put, hput, rfl⟩
  · exact ⟨ne_nil_of_mem_eagerTakes htake, nodup_of_mem_eagerTakes htake, List.nodup_singleton _⟩
  · exact ⟨List.cons_ne_nil _ _, List.nodup_singleton _, nodup_of_mem_splitChoices hput⟩

theorem lt_of_mem_cancelledTransitions {b u : TransitionId} (h : u ∈ net.cancelledTransitions b) :
    u < net.transitions.length := by
  obtain ⟨⟨c, target⟩, hc, hsome⟩ := List.mem_filterMap.1 h
  cases target with
  | place q => cases hsome
  | transition v =>
    obtain ⟨-, rfl⟩ : c = b ∧ v = u := by simpa using hsome
    exact (net.cancellations_inBounds _ hc).2

theorem resets_alive (h : net.toResetNet limits = .ok whole) {tr : ResetTransition} (htr : tr ∈ whole.transitions) :
    ∀ p ∈ tr.resets, p ∈ whole.alive := by
  intro p hp
  rw [(taskTransitions_of_toResetNet h).2.1, List.mem_range]
  rcases mem_toResetNet h htr with ⟨t, suffix, take, htake, rfl⟩ | ⟨t, suffix, put, hput, rfl⟩
  · cases hp
  · rcases mem_resetPlaces.1 hp with hp | ⟨u, hu, rfl⟩
    · exact Nat.lt_add_right _ (lt_of_mem_cancelledPlaces hp).1
    · exact Nat.add_lt_add_left (lt_of_mem_cancelledTransitions hu) _

theorem remnantOf_whole (h : net.toResetNet limits = .ok whole) : whole.RemnantOf whole whole.transitions := by
  have hwf := wellFormed_toResetNet h
  refine ⟨rfl, rfl, List.Sublist.refl _, List.Sublist.refl _, ?_, hwf.preset_alive⟩
  have htrim : ∀ tr ∈ whole.transitions, tr.trim whole.alive = tr := by
    intro tr htr
    have hfilter {places : List Nat} (hmem : ∀ p ∈ places, p ∈ whole.alive) :
        places.filter whole.alive.contains = places :=
      List.filter_eq_self.2 fun p hp => List.contains_iff_mem.2 (hmem p hp)
    unfold ResetTransition.trim
    rw [hfilter (hwf.postset_alive tr htr), hfilter (resets_alive h htr)]
  exact ((List.map_congr_left htrim).trans (List.map_id' _)).symm

end Net

/-! ## Restrictions by sweeps -/

namespace ResetNet

variable {net : Net} {limits : AnalysisLimits} {whole r : ResetNet} {origins : List ResetTransition}

/-- What is left of the arcs is without repetition, as they were. -/
theorem RemnantOf.arcs (h : r.RemnantOf whole origins) (hwhole : net.toResetNet limits = .ok whole) :
    ∀ tr ∈ r.transitions, tr.preset ≠ [] ∧ tr.preset.Nodup ∧ tr.postset.Nodup := by
  rw [h.transitions_eq, List.forall_mem_map]
  intro tr htr
  obtain ⟨hne, hpreset, hpostset⟩ := Net.arcs_toResetNet hwhole (h.origins_sublist.subset htr)
  exact ⟨hne, hpreset, hpostset.filter _⟩

theorem RemnantOf.sweep?_eq (h : r.RemnantOf whole origins) (hwhole : net.toResetNet limits = .ok whole)
    (hr : r.WellFormed) : ∀ c : Restriction, r.sweep? c = some (r.restrict c)
  | .withoutStartsOf _ => rfl
  | .backward targets => sweepBack_eq hr (fun tr htr => (h.arcs hwhole tr htr).2.2) targets
  | .forward marked => sweepAhead_eq hr
    (fun tr htr => ⟨(h.arcs hwhole tr htr).1, (h.arcs hwhole tr htr).2.1⟩) marked

/-- **Any number of restrictions**, each by a sweep. -/
theorem RemnantOf.foldl_restrict (hwhole : net.toResetNet limits = .ok whole) :
    ∀ (cuts : List Restriction) {r : ResetNet} {origins : List ResetTransition}, r.RemnantOf whole origins →
      PartOf net limits r → cuts.foldlM sweep? r = some (cuts.foldl ResetNet.restrict r) ∧
        ∃ origins', (cuts.foldl ResetNet.restrict r).RemnantOf whole origins'
  | [], r, origins, h, _ => ⟨rfl, origins, h⟩
  | c :: cuts, r, origins, h, hr => by
    obtain ⟨origins', h'⟩ := h.restrict hr.wellFormed c
    have ih := foldl_restrict hwhole cuts h' (hr.restrict c)
    rwa [List.foldlM_cons, h.sweep?_eq hwhole hr.wellFormed c]

/-! ## In the search -/

/-- The numbers of places in a search, which counts only the places that are left. -/
def renumber (r : ResetNet) (places : List Nat) : List Nat := places.filterMap (fun p => r.alive.idxOf? p)

/-- Each of the places has a number there, and it is the number of no other. -/
theorem map_getElem?_renumber : ∀ {places : List Nat}, (∀ p ∈ places, p ∈ r.alive) →
    (r.renumber places).map (r.alive[·]?) = places.map some
  | [], _ => rfl
  | p :: places, h => by
    obtain ⟨hp, h⟩ := List.forall_mem_cons.1 h
    have ih := map_getElem?_renumber h
    unfold renumber at ih ⊢
    obtain ⟨i, hi⟩ := Option.isSome_iff_exists.1 (List.isSome_idxOf?.2 hp)
    obtain ⟨hlt, hget, -⟩ := List.idxOf?_eq_some_iff.1 hi
    rw [List.filterMap_cons_some (f := fun p => r.alive.idxOf? p) hi, List.map_cons, List.map_cons, ih,
      List.getElem?_eq_getElem hlt, hget]

end ResetNet

/-- Enough tokens for all that these effects take, place by place. -/
def Suffices (counts : List Nat) (row : List Effect) : Prop := List.Forall₂ (fun n e => e.takes.toNat ≤ n) counts row

theorem suffices_map_iff {l : List Nat} {x : Counts} {tr : ResetTransition} :
    Suffices (l.map x) (l.map tr.effectOn) ↔ ∀ p ∈ l, p ∈ tr.preset → 0 < x p := by
  unfold Suffices
  rw [List.forall₂_map_left_iff, List.forall₂_map_right_iff, List.forall₂_same]
  refine forall₂_congr fun p _ => ?_
  unfold ResetTransition.effectOn
  by_cases hp : p ∈ tr.preset <;> simp [hp, Nat.succ_le_iff]

namespace ResetNet

variable {r whole : ResetNet} {origins : List ResetTransition}

/-- In a search of the net these effects ask for the tokens that the transition takes: it is enabled with counts that
suffice for them, and with any above what leads back along them. -/
structure AsksFor (r : ResetNet) (row : List Effect) (tr : ResetTransition) : Prop where
  suffices_iff : ∀ x : Counts, Suffices (r.alive.map x) row ↔ tr.Enabled x
  enabled_of_predecessor : ∀ (x : Counts) (a b : List Nat), a.length = r.alive.length → predecessor? row a = some b →
    x.Above r.alive b → tr.Enabled x

/-- **In the search a transition needs the tokens that it needs in the whole net.** -/
theorem RemnantOf.asksFor (h : r.RemnantOf whole origins) {tr : ResetTransition} (htr : tr ∈ origins) :
    r.AsksFor (r.alive.map (tr.trim r.alive).effectOn) tr where
  suffices_iff := fun x => by
    rw [suffices_map_iff]
    exact ⟨fun hx p hp => hx p (h.preset_alive tr htr p hp) hp, fun hen p _ hp => hen p hp⟩
  enabled_of_predecessor := fun x a b hlen hb hx p hp =>
    ((above_predecessor?_iff _ x hlen).1 ⟨b, hb, hx⟩).1 p (h.preset_alive tr htr p hp) hp

theorem RemnantOf.arcs_alive (h : r.RemnantOf whole origins) {tr : ResetTransition} (htr : tr ∈ r.transitions) {p : Nat}
    (hp : p ∈ tr.preset ∨ p ∈ tr.postset ∨ p ∈ tr.resets) : p ∈ r.alive := by
  rw [h.transitions_eq] at htr
  obtain ⟨origin, horigin, rfl⟩ := List.mem_map.1 htr
  rcases hp with hp | hp | hp
  · exact h.preset_alive origin horigin p hp
  all_goals exact List.contains_iff_mem.1 (List.mem_filter.1 hp).2

end ResetNet

namespace Net

variable {net : Net} {limits : AnalysisLimits} {whole : ResetNet}

/-- **Restrictions never make it easier to fire.**  However many are made, one after the other and each by a sweep, no
counter has to go below zero, and what they leave is made up of places and transitions of the whole net.  No arc leads
to a dropped place, every transition has all its input places, each of them once, and needs the same tokens as before,
also under the numbers that a search gives to the places.  Further restrictions bring no place back. -/
theorem restrictions_keep_inputs (h : net.toResetNet limits = .ok whole) (cuts : List Restriction) :
    ∃ r origins, cuts.foldlM ResetNet.sweep? whole = some r ∧ r = cuts.foldl ResetNet.restrict whole ∧
      r.RemnantOf whole origins ∧
      (∀ tr ∈ r.transitions, ∀ p, p ∈ tr.preset ∨ p ∈ tr.postset ∨ p ∈ tr.resets → p ∈ r.alive) ∧
      (∀ tr ∈ origins, tr.preset ≠ [] ∧ tr.preset.Nodup ∧
        (r.renumber tr.preset).map (r.alive[·]?) = tr.preset.map some) ∧
      List.Forall₂ (fun tr origin => ∀ x, tr.Enabled x ↔ origin.Enabled x) r.transitions origins ∧
      (∀ limits' source, List.Forall₂ r.AsksFor (r.search limits' source).effects origins) ∧
      ∀ more : List Restriction, (more.foldl ResetNet.restrict r).alive.Sublist r.alive := by
  obtain ⟨hsweep, origins, hr⟩ := (remnantOf_whole h).foldl_restrict h cuts (.whole h)
  refine ⟨_, origins, hsweep, rfl, hr, fun tr htr p hp => hr.arcs_alive htr hp, fun tr htr => ?_, ?_,
    fun limits' source => ?_, fun more => ResetNet.alive_foldl_restrict more _⟩
  · obtain ⟨hne, hnodup, -⟩ := arcs_toResetNet h (hr.origins_sublist.subset htr)
    exact ⟨hne, hnodup, ResetNet.map_getElem?_renumber (hr.preset_alive tr htr)⟩
  · rw [hr.transitions_eq, List.forall₂_map_left_iff, List.forall₂_same]
    exact fun tr _ x => Iff.rfl
  · unfold ResetNet.search
    rw [hr.transitions_eq, List.map_map, List.forall₂_map_left_iff, List.forall₂_same]
    exact fun tr htr => hr.asksFor htr

/-- Ahead of a token on `d` the withdrawal of the question is left with its input place, but the question that it clears
is not, and never will be again. -/
theorem offer_withdrawn : ∃ whole r, offer.toResetNet {} = .ok whole ∧
    [Restriction.forward [2]].foldlM ResetNet.sweep? whole = some r ∧
    r.transitions.map (fun tr => (tr.label, tr.preset, tr.resets)) =
      [("k_start^d", [2], []), ("k_end", [9], []), ("z_start^f", [6], []), ("z_end", [12], [])] ∧
    ∀ more : List Restriction, 4 ∉ (more.foldl ResetNet.restrict r).alive := by
  have hall : (offer.toResetNet {}).map (fun whole => ([Restriction.forward [2]].foldlM ResetNet.sweep? whole).map
      (fun r => (r.transitions.map (fun tr => (tr.label, tr.preset, tr.resets)), r.alive))) =
      .ok (some ([("k_start^d", [2], []), ("k_end", [9], []), ("z_start^f", [6], []), ("z_end", [12], [])],
        [2, 6, 7, 9, 12])) := rfl
  obtain ⟨whole, hwhole, hr⟩ := exists_ok_of_map hall
  obtain ⟨r, origins, hsweep, -, -, -, -, -, -, hmore⟩ := restrictions_keep_inputs hwhole [.forward [2]]
  rw [hsweep] at hr
  obtain ⟨htransitions, halive⟩ := Prod.mk.inj (Option.some.inj hr)
  refine ⟨whole, r, hwhole, hsweep, htransitions, fun more hmem => ?_⟩
  have hfour := (hmore more).subset hmem
  rw [halive] at hfour
  revert hfour
  decide

end Net

end Workflow
