import Workflow.Proofs.Waiting
/-!
# Splits — an OR-split is analysed like an AND-split

Spelled out, an OR-split may choose any of its outputs, and all of them is the best choice: no other one leads to a
place that this does not lead to.  So a net with AND-splits in place of OR-splits has the same verdict on every OR-join
(`orJoinVerdict_of_andForOr`), though its reset net may be exponentially smaller.  Every net has such a net beside it:
the shape of a graph does not depend on its splits (`andForOr_withAndSplits`).
-/
namespace Workflow

/-! ## Transitions that do no less than others -/

/-- Takes no more than `tr`, puts no less, and empties the same places. -/
structure ResetTransition.Outdoes (tr' tr : ResetTransition) : Prop where
  preset_subset : ∀ p ∈ tr'.preset, p ∈ tr.preset
  postset_subset : ∀ p ∈ tr.postset, p ∈ tr'.postset
  resets_eq : tr'.resets = tr.resets

theorem ResetTransition.Outdoes.fire_covers {tr tr' : ResetTransition} {x x' : Counts} (h : tr'.Outdoes tr)
    (hx : x'.Covers x) : (tr'.fire x').Covers (tr.fire x) := by
  intro p
  unfold ResetTransition.fire
  rw [h.resets_eq]
  exact Counts.move_le_move (hx p) (h.preset_subset p) (h.postset_subset p)

/-- **Who can do no less covers no less.** -/
theorem ResetNet.coverable_of_outdone {r r' : ResetNet} {x : Counts} {goal : List Nat}
    (h : ∀ tr ∈ r.transitions, ∃ tr' ∈ r'.transitions, tr'.Outdoes tr) (hc : r.Coverable x goal) :
    r'.Coverable x goal := by
  obtain ⟨n, y, hrun, hy⟩ := hc
  have hstep : ∀ tr ∈ r.transitions, ∀ x x' : Counts, tr.Enabled x → x'.Covers x →
      ∃ k y', r'.Run k x' y' ∧ y'.Covers (tr.fire x) := by
    intro tr htr x x' hen hx
    obtain ⟨tr', htr', hout⟩ := h tr htr
    have hen' : tr'.Enabled x' := fun p hp => hx.marks hen p (hout.preset_subset p hp)
    exact ⟨1, _, .cons htr' hen' (.nil _), hout.fire_covers hx⟩
  obtain ⟨k, y', hrun', hcov⟩ := Run.follow hstep hrun (Counts.Covers.refl x)
  exact ⟨k, y', hrun', hcov.marks hy⟩

/-! ## One verdict -/

/-- The place that a verdict names is the first one that can be covered. -/
theorem Verdict.Holds.liveBranch?_eq {r : ResetNet} {x : Counts} {marked empty : List PlaceId} {v : Verdict}
    (h : v.Holds r x marked empty) (hne : marked ≠ []) (f : PlaceId → Bool)
    (hf : ∀ p ∈ empty, f p = true ↔ r.Coverable x (marked ++ [p])) : v.liveBranch? = empty.find? f := by
  cases v with
  | unmarked => exact absurd h hne
  | enabled => exact (List.find?_eq_none.2 fun p hp hlive => h.2 p hp ((hf p hp).1 hlive)).symm
  | liveBranch p =>
    have hp := h.mem_empty
    obtain ⟨-, hlive, before, after, rfl, hdead⟩ := h
    refine (List.find?_eq_some_iff_append.2 ⟨(hf p hp).2 hlive, before, after, rfl, fun q hq => ?_⟩).symm
    rw [Bool.not_eq_true', Bool.eq_false_iff]
    exact fun hlive => hdead q hq ((hf q (List.mem_append_left _ hq)).1 hlive)

/-- **Reset nets in which the same can be covered have the same verdict.** -/
theorem Verdict.Holds.unique {r r' : ResetNet} {x : Counts} {marked empty : List PlaceId} {v v' : Verdict}
    (h : v.Holds r x marked empty) (h' : v'.Holds r' x marked empty)
    (hsame : ∀ p ∈ empty, r.Coverable x (marked ++ [p]) ↔ r'.Coverable x (marked ++ [p])) : v' = v := by
  classical
  by_cases hne : marked = []
  · cases v <;> cases v' <;> simp_all [Verdict.Holds]
  · have hlive := h.liveBranch?_eq hne (fun p => decide (r.Coverable x (marked ++ [p]))) (by simp)
    have hlive' := h'.liveBranch?_eq hne (fun p => decide (r.Coverable x (marked ++ [p]))) (by simpa using hsame)
    have heq : v'.liveBranch? = v.liveBranch? := hlive'.trans hlive.symm
    clear hlive hlive'
    cases v <;> cases v' <;> simp_all [Verdict.Holds, Verdict.liveBranch?]

namespace Net

variable {net net' : Net} {limits limits' : AnalysisLimits} {t u : TransitionId} {m : Marking} {v v' : Verdict}
  {r r' : ResetNet} {x : Counts} {goal put : List PlaceId}

/-! ## Nets that differ in their splits -/

/-- The nets differ in nothing but the splits of their transitions. -/
structure SameButSplits (net net' : Net) : Prop where
  places : net'.places = net.places
  arcs : net'.arcs = net.arcs
  cancellations : net'.cancellations = net.cancellations
  joins : ∀ t : TransitionId, (net'.transitions[t]?).map Transition.join = (net.transitions[t]?).map Transition.join

namespace SameButSplits

theorem symm (h : net.SameButSplits net') : net'.SameButSplits net :=
  ⟨h.places.symm, h.arcs.symm, h.cancellations.symm, fun t => (h.joins t).symm⟩

theorem preset_eq (h : net.SameButSplits net') (t : TransitionId) : net'.preset t = net.preset t := by
  unfold Graph.preset Graph.placesBeside
  rw [h.arcs]

theorem postset_eq (h : net.SameButSplits net') (t : TransitionId) : net'.postset t = net.postset t := by
  unfold Graph.postset Graph.placesBeside
  rw [h.arcs]

theorem eagerTakes_eq (h : net.SameButSplits net') (t : TransitionId) : net'.eagerTakes t = net.eagerTakes t := by
  unfold eagerTakes
  rw [h.joins, h.preset_eq]

theorem busyPlace_eq (h : net.SameButSplits net') (t : TransitionId) : net'.busyPlace t = net.busyPlace t := by
  unfold busyPlace
  rw [h.places]

theorem resetPlaces_eq (h : net.SameButSplits net') (t : TransitionId) : net'.resetPlaces t = net.resetPlaces t := by
  unfold resetPlaces cancelledPlaces cancelledTransitions
  rw [h.cancellations, funext h.busyPlace_eq]

/-- A net whose splits reach as far can cover as much. -/
theorem coverable (h : net.SameButSplits net') (hr : net.toResetNet limits = .ok r)
    (hr' : net'.toResetNet limits' = .ok r')
    (hputs : ∀ u, ∀ put ∈ net.splitChoices u, ∃ put' ∈ net'.splitChoices u, ∀ p ∈ put, p ∈ put')
    (hc : (r.withoutStartsOf t).Coverable x goal) : (r'.withoutStartsOf t).Coverable x goal := by
  refine ResetNet.coverable_of_outdone (fun tr htr => ?_) hc
  rcases mem_transitions_withoutStartsOf hr htr with ⟨u, suffix, take, htake, hu, rfl⟩ | ⟨u, suffix, put, hput, rfl⟩
  · obtain ⟨suffix', hmem⟩ := exists_start hr' (h.eagerTakes_eq u ▸ htake)
    refine ⟨_, mem_withoutStartsOf.2 ⟨hmem, fun hstart => hu hstart.1⟩, fun p hp => hp, ?_, rfl⟩
    simp [startTransition, h.busyPlace_eq]
  · obtain ⟨put', hput', hsub⟩ := hputs u put hput
    obtain ⟨suffix', hmem⟩ := exists_finish hr' hput'
    refine ⟨_, mem_withoutStartsOf.2 ⟨hmem, fun hstart => nomatch hstart.2⟩, ?_, hsub, h.resetPlaces_eq u⟩
    simp [finishTransition, h.busyPlace_eq]

end SameButSplits

/-! ## AND-splits for OR-splits -/

/-- `net'` is `net` with AND-splits in place of some of its OR-splits. -/
structure AndForOr (net net' : Net) : Prop where
  places : net'.places = net.places
  arcs : net'.arcs = net.arcs
  source : net'.source = net.source
  sink : net'.sink = net.sink
  cancellations : net'.cancellations = net.cancellations
  transitions : ∀ t : TransitionId, net'.transitions[t]? = net.transitions[t]? ∨
    ∃ tr, net.transitions[t]? = some tr ∧ tr.split = .or ∧ net'.transitions[t]? = some { tr with split := .and }

namespace AndForOr

theorem sameButSplits (h : net.AndForOr net') : net.SameButSplits net' where
  places := h.places
  arcs := h.arcs
  cancellations := h.cancellations
  joins := by
    intro t
    rcases h.transitions t with hsame | ⟨tr, htr, -, htr'⟩
    · rw [hsame]
    · rw [htr, htr']
      rfl

/-- **All outputs is the best choice.** -/
theorem exists_splitChoice_superset (h : net.AndForOr net') (hput : put ∈ net.splitChoices u) :
    ∃ put' ∈ net'.splitChoices u, ∀ p ∈ put, p ∈ put' := by
  have hpost := fun p hp => mem_postset_of_mem_splitChoices (p := p) hput hp
  unfold splitChoices at hput ⊢
  rw [h.sameButSplits.postset_eq]
  rcases h.transitions u with hsame | ⟨tr, htr, -, htr'⟩
  · rw [hsame]
    exact ⟨put, hput, fun p hp => hp⟩
  · rw [htr']
    exact ⟨_, List.mem_singleton.2 rfl, hpost⟩

/-- All outputs is one of the choices that an OR-split has. -/
theorem mem_splitChoices (h : net.AndForOr net') (hput : put ∈ net'.splitChoices u) : put ∈ net.splitChoices u := by
  have hlt := lt_of_mem_splitChoices hput
  unfold splitChoices at hput ⊢
  rw [h.sameButSplits.postset_eq] at hput
  rcases h.transitions u with hsame | ⟨tr, htr, hor, htr'⟩
  · rwa [hsame] at hput
  · rw [htr'] at hput
    obtain rfl := List.mem_singleton.1 hput
    rw [htr, Option.map_some, hor]
    refine mem_nonemptyChoices.2 ⟨List.Sublist.refl _, ?_⟩
    rw [← h.sameButSplits.postset_eq]
    exact postset_ne_nil hlt

end AndForOr

/-- **OR-splits can be analysed as AND-splits.**  Whatever the limits, the verdicts on an OR-join, if there are any, are
the same for a net and for one with AND-splits in place of OR-splits. -/
theorem orJoinVerdict_of_andForOr (h : net.AndForOr net') (hv : net.orJoinVerdict limits t m = .ok v)
    (hv' : net'.orJoinVerdict limits' t m = .ok v') : v' = v := by
  obtain ⟨r, hr, hholds⟩ := orJoinVerdict_holds hv
  obtain ⟨r', hr', hholds'⟩ := orJoinVerdict_holds hv'
  rw [h.sameButSplits.preset_eq] at hholds'
  refine hholds.unique hholds' fun p _ => ⟨fun hc => ?_, fun hc => ?_⟩
  · exact h.sameButSplits.coverable hr hr' (fun u put hput => h.exists_splitChoice_superset hput) hc
  · exact h.sameButSplits.symm.coverable hr' hr (fun u put hput => ⟨put, h.mem_splitChoices hput, fun p hp => hp⟩) hc

end Net

/-! ## The net with AND-splits only -/

def Transition.withAndSplit (tr : Transition) : Transition :=
  if tr.split = .or then { tr with split := .and } else tr

@[simp] theorem Transition.name_withAndSplit (tr : Transition) : tr.withAndSplit.name = tr.name := by
  unfold withAndSplit
  split <;> rfl

namespace Graph

/-- An AND-split in place of each OR-split. -/
def withAndSplits (g : Graph) : Graph where
  places := g.places
  transitions := g.transitions.map Transition.withAndSplit
  arcs := g.arcs
  place_names_nodup := g.place_names_nodup
  transition_names_nodup := by simpa [Function.comp_def] using g.transition_names_nodup
  arcs_nodup := g.arcs_nodup
  arcs_inBounds := by simpa using g.arcs_inBounds

theorem transitionIds_withAndSplits (g : Graph) : g.withAndSplits.transitionIds = g.transitionIds := by
  simp [transitionIds, withAndSplits]

theorem transitionName_withAndSplits (g : Graph) (t : TransitionId) :
    g.withAndSplits.transitionName t = g.transitionName t := by
  unfold transitionName withAndSplits
  rw [List.getElem?_map]
  cases g.transitions[t]? <;> simp

/-- The shape of a graph does not depend on its splits. -/
theorem defect?_withAndSplits (g : Graph) (source sink : PlaceId) :
    g.withAndSplits.defect? source sink = g.defect? source sink := by
  have hname : g.withAndSplits.transitionName = g.transitionName := funext g.transitionName_withAndSplits
  unfold defect? transitionDefect? connectionDefect? missedNames placesAhead placesBehind
  rw [transitionIds_withAndSplits, hname]
  rfl

end Graph

namespace Net

def withAndSplits (net : Net) : Net where
  toGraph := net.toGraph.withAndSplits
  source := net.source
  sink := net.sink
  cancellations := net.cancellations
  terminals_eq := net.terminals_eq
  defect?_eq := (Graph.defect?_withAndSplits _ _ _).trans net.defect?_eq
  cancellations_inBounds := by
    intro c hc
    obtain ⟨ht, htarget⟩ := net.cancellations_inBounds c hc
    refine ⟨by simpa [Graph.withAndSplits] using ht, ?_⟩
    cases h : c.target with
    | place p => simpa [h, Graph.HasElement, Graph.withAndSplits] using htarget
    | transition u => simpa [h, Graph.HasElement, Graph.withAndSplits] using htarget

theorem andForOr_withAndSplits (net : Net) : net.AndForOr net.withAndSplits where
  places := rfl
  arcs := rfl
  source := rfl
  sink := rfl
  cancellations := rfl
  transitions := by
    intro t
    have hget : net.withAndSplits.transitions[t]? = (net.transitions[t]?).map Transition.withAndSplit :=
      List.getElem?_map
    rw [hget]
    cases net.transitions[t]? with
    | none => exact .inl rfl
    | some tr =>
      by_cases hor : tr.split = .or
      · exact .inr ⟨tr, rfl, hor, by simp [Transition.withAndSplit, hor]⟩
      · exact .inl (by simp [Transition.withAndSplit, hor])

/-- Four outputs are too many for an OR-split when a split may have three; as an AND-split it is analysed all the same,
with the verdict that more branches would allow. -/
theorem offer_withAndSplits_waits :
    offer.orJoinVerdict { branches := 3 } 3 ⟨[1, 1, 0, 0, 0, 0, 0, 0]⟩ = .error (.excess (.finishes "a" 4 3)) ∧
    offer.orJoinVerdict {} 3 ⟨[1, 1, 0, 0, 0, 0, 0, 0]⟩ = .ok (.liveBranch 5) ∧
    offer.withAndSplits.orJoinVerdict { branches := 3 } 3 ⟨[1, 1, 0, 0, 0, 0, 0, 0]⟩ = .ok (.liveBranch 5) := by
  have hall : offer.orJoinVerdict {} 3 ⟨[1, 1, 0, 0, 0, 0, 0, 0]⟩ = .ok (.liveBranch 5) := rfl
  have hdone : (offer.withAndSplits.orJoinVerdict { branches := 3 } 3 ⟨[1, 1, 0, 0, 0, 0, 0, 0]⟩).toBool = true := rfl
  refine ⟨rfl, hall, ?_⟩
  cases hv : offer.withAndSplits.orJoinVerdict { branches := 3 } 3 ⟨[1, 1, 0, 0, 0, 0, 0, 0]⟩ with
  | error failure =>
    rw [hv] at hdone
    cases hdone
  | ok v => rw [orJoinVerdict_of_andForOr offer.andForOr_withAndSplits hall hv]

end Net

end Workflow
