import Mathlib.Data.List.Nodup
import Workflow.Evaluation
import Workflow.Proofs.Ordering
/-!
# Numbering — the built net, number by number, as the edits have it

Edits speak of names, and a net of numbers.  A number stands for a place in the order of the names, so a place or a
transition keeps it when it is added again, and the neighbours of a transition stand in the order of its arcs.  A net
that has been built can thus be read off the list of edits alone (`build_records`).
-/
namespace Workflow

/-- The net is, number by number, what the edits say.  Where a place and a transition share a name, to cancel that name
is to cancel the place. -/
structure Net.Records (net : Net) (edits : List Edit) : Prop where
  placeId?_iff : ∀ name p, net.placeId? name = some p ↔ (net.places[p]?).map Place.name = some name
  transitionId?_iff : ∀ name t, net.transitionId? name = some t ↔ (net.transitions[t]?).map Transition.name = some name
  places : net.places.map some = (Edit.placeNames edits).map (Edit.place? edits)
  transitions : net.transitions.map some = (Edit.transitionNames edits).map (Edit.transition? edits)
  placeId?_kept : ∀ before after, edits = before ++ after → ∀ name p,
    (Draft.drawn before).placeId? name = some p → net.placeId? name = some p
  transitionId?_kept : ∀ before after, edits = before ++ after → ∀ name t,
    (Draft.drawn before).transitionId? name = some t → net.transitionId? name = some t
  preset : ∀ t tr, net.transitions[t]? = some tr → (net.preset t).Nodup ∧
    (net.preset t).map some = (Edit.neighbours edits tr.name .input).map net.placeId?
  postset : ∀ t tr, net.transitions[t]? = some tr → (net.postset t).Nodup ∧
    (net.postset t).map some = (Edit.neighbours edits tr.name .output).map net.placeId?
  consumers : ∀ p, (net.consumers p).Nodup ∧ ∀ t, t ∈ net.consumers p ↔ p ∈ net.preset t
  producers : ∀ p, (net.producers p).Nodup ∧ ∀ t, t ∈ net.producers p ↔ p ∈ net.postset t
  cancelledPlaces : ∀ t tr, net.transitions[t]? = some tr → (net.cancelledPlaces t).Nodup ∧
    (net.cancelledPlaces t).map some =
      ((Edit.cancelledBy edits tr.name).filter fun name => (Edit.place? edits name).isSome).map net.placeId?
  cancelledTransitions : ∀ t tr, net.transitions[t]? = some tr → (net.cancelledTransitions t).Nodup ∧
    (net.cancelledTransitions t).map some =
      ((Edit.cancelledBy edits tr.name).filter fun name => (Edit.place? edits name).isNone).map net.transitionId?

/-! ## Numbers and names -/

section Named

variable {find : String → Option Nat} {nameOf : Nat → String}

/-- Numbers found by name have these names. -/
theorem map_name_of_map_some (hfind : ∀ {n i}, find n = some i → nameOf i = n) :
    ∀ {ids : List Nat} {names : List String}, ids.map some = names.map find → ids.map nameOf = names
  | [], [], _ => rfl
  | [], _ :: _, h => by cases h
  | _ :: _, [], h => by cases h
  | i :: ids, n :: names, h => by
    rw [List.map_cons, List.map_cons] at h
    obtain ⟨hi, hrest⟩ := List.cons.inj h
    rw [List.map_cons, hfind hi.symm, map_name_of_map_some hfind hrest]

theorem nodup_of_map_some (hfind : ∀ {n i}, find n = some i → nameOf i = n) {ids : List Nat} {names : List String}
    (h : ids.map some = names.map find) (hnames : names.Nodup) : ids.Nodup := by
  rw [← map_name_of_map_some hfind h] at hnames
  exact hnames.of_map nameOf

/-- What is found is what is kept of the names that are there. -/
theorem map_some_filterMap (find : String → Option Nat) (names : List String) :
    (names.filterMap find).map some = (names.filter fun n => (find n).isSome).map find := by
  induction names with
  | nil => rfl
  | cons n names ih =>
    cases hn : find n with
    | none => rw [List.filterMap_cons_none hn, List.filter_cons_of_neg (by simp [hn]), ih]
    | some i => rw [List.filterMap_cons_some hn, List.filter_cons_of_pos (by simp [hn]), List.map_cons, List.map_cons,
        ih, hn]

theorem isSome_lastNamed?_iff {α : Type} {name : α → String} {l : List α} {n : String} :
    (lastNamed? name l n).isSome = true ↔ n ∈ (l.map name).eraseDups := by
  unfold lastNamed?
  rw [List.find?_isSome, List.mem_eraseDups, List.mem_map]
  simp only [List.mem_reverse, beq_iff_eq]

end Named

namespace Graph

variable {g : Graph}

theorem placeId?_eq_some_iff (name : String) (p : PlaceId) :
    g.placeId? name = some p ↔ (g.places[p]?).map Place.name = some name :=
  findIdx?_name_eq_some_iff g.place_names_nodup

theorem transitionId?_eq_some_iff (name : String) (t : TransitionId) :
    g.transitionId? name = some t ↔ (g.transitions[t]?).map Transition.name = some name :=
  findIdx?_name_eq_some_iff g.transition_names_nodup

end Graph

namespace Edit

variable {edits : List Edit} {name : String}

theorem isSome_place?_iff : (place? edits name).isSome = true ↔ name ∈ placeNames edits := isSome_lastNamed?_iff

theorem isSome_transition?_iff : (transition? edits name).isSome = true ↔ name ∈ transitionNames edits :=
  isSome_lastNamed?_iff

theorem placeNames_append (before after : List Edit) : placeNames before <+: placeNames (before ++ after) := by
  have hadded : placesAdded (before ++ after) = placesAdded before ++ placesAdded after := List.filterMap_append
  unfold placeNames
  rw [hadded, List.map_append, List.eraseDups_append]
  exact List.prefix_append _ _

theorem transitionNames_append (before after : List Edit) :
    transitionNames before <+: transitionNames (before ++ after) := by
  have hadded : transitionsAdded (before ++ after) = transitionsAdded before ++ transitionsAdded after :=
    List.filterMap_append
  unfold transitionNames
  rw [hadded, List.map_append, List.eraseDups_append]
  exact List.prefix_append _ _

theorem nodup_cancelledBy (edits : List Edit) (transition : String) : (cancelledBy edits transition).Nodup := by
  refine ((nodup_eraseDups _).filter _).map_on fun a ha b hb helement => ?_
  have hat := of_decide_eq_true (List.mem_filter.1 ha).2
  have hbt := of_decide_eq_true (List.mem_filter.1 hb).2
  exact Prod.ext (hat.trans hbt.symm) helement

theorem mem_names_of_refusal? {t : String} (h : refusal? edits (.cancellation t name) = none) :
    name ∈ placeNames edits ∨ name ∈ transitionNames edits := by
  rw [← isSome_place?_iff, ← isSome_transition?_iff, Option.isSome_iff_ne_none, Option.isSome_iff_ne_none,
    ← not_and_or]
  unfold refusal? at h
  dsimp only at h
  split at h
  · cases h
  · split at h
    · cases h
    · assumption

/-- What is cancelled is there: it was when that was asked for, and nothing is taken away. -/
theorem mem_names_of_mem_cancellations {t : String} (h : (t, name) ∈ cancellations edits) :
    name ∈ placeNames edits ∨ name ∈ transitionNames edits := by
  induction edits using List.reverseRecOn with
  | nil => cases h
  | append_singleton edits e ih =>
    have hearlier (hmem : name ∈ placeNames edits ∨ name ∈ transitionNames edits) :
        name ∈ placeNames (edits ++ [e]) ∨ name ∈ transitionNames (edits ++ [e]) :=
      hmem.imp (fun hp => (placeNames_append edits [e]).subset hp)
        (fun ht => (transitionNames_append edits [e]).subset ht)
    cases hr : refusal? edits e with
    | some defect =>
      unfold cancellations at h ih
      rw [accepted_concat_of_some hr] at h
      exact hearlier (ih h)
    | none =>
      rw [cancellations_concat hr] at h
      cases e with
      | place p => exact hearlier (ih h)
      | transition u => exact hearlier (ih h)
      | arc p u d => exact hearlier (ih h)
      | cancellation u element =>
        unfold addNew at h
        dsimp only [namedCancellation?] at h
        split at h
        · exact hearlier (ih h)
        · rcases List.mem_append.1 h with h | h
          · exact hearlier (ih h)
          · obtain ⟨rfl, rfl⟩ := Prod.mk.inj (List.mem_singleton.1 h)
            exact hearlier (mem_names_of_refusal? hr)

end Edit

/-! ## The net that is built -/

namespace Draft

variable {d : Draft} {edits : List Edit} {net : Net} {t : TransitionId} {tr : Transition}

theorem build_ok (h : d.build = .ok net) :
    net.toGraph = d.toGraph ∧ net.cancellations = d.resolvedCancellations := by
  unfold build at h
  split at h
  · cases h
  · split at h
    · cases h
    · cases h
      exact ⟨rfl, rfl⟩

namespace Follows

theorem places (h : d.Follows edits) (hdrawn : d.IsDrawnBy edits) :
    d.places.map some = (Edit.placeNames edits).map (Edit.place? edits) := by
  rw [← h.placeNames, List.map_map]
  exact List.map_congr_left fun p hp => ((hdrawn.places p).1 hp).symm

theorem transitions (h : d.Follows edits) (hdrawn : d.IsDrawnBy edits) :
    d.transitions.map some = (Edit.transitionNames edits).map (Edit.transition? edits) := by
  rw [← h.transitionNames, List.map_map]
  exact List.map_congr_left fun u hu => ((hdrawn.transitions u).1 hu).symm

theorem placeId?_eq_some_iff (h : d.Follows edits) (name : String) (p : PlaceId) :
    d.placeId? name = some p ↔ (Edit.placeNames edits)[p]? = some name := by
  rw [Graph.placeId?_eq_some_iff, ← h.placeNames, List.getElem?_map]

theorem transitionId?_eq_some_iff (h : d.Follows edits) (name : String) (t : TransitionId) :
    d.transitionId? name = some t ↔ (Edit.transitionNames edits)[t]? = some name := by
  rw [Graph.transitionId?_eq_some_iff, ← h.transitionNames, List.getElem?_map]

/-- **The neighbours of a transition** in either direction, in the order of its arcs. -/
theorem neighbours (h : d.Follows edits) (ht : d.transitions[t]? = some tr) (dir : Direction) :
    (d.placesBeside t dir).map some = (Edit.neighbours edits tr.name dir).map d.placeId? := by
  obtain ⟨hlt, rfl⟩ := List.getElem?_eq_some_iff.1 ht
  have hkept : d.arcs.filter (fun a => a.transition == t && a.direction == dir) =
      d.arcs.filter fun a => (d.namedArc a).transition = d.transitions[t].name ∧ (d.namedArc a).direction = dir := by
    refine List.filter_congr fun a ha => ?_
    have hname : (d.namedArc a).transition = d.transitions[t].name ↔ a.transition = t := by
      rw [← Graph.transitionName_eq hlt]
      exact ⟨Graph.transitionName_inj (d.arcs_inBounds a ha).2 hlt, fun heq => congrArg d.transitionName heq⟩
    have hdir : (d.namedArc a).direction = dir ↔ a.direction = dir := Iff.rfl
    rw [Bool.eq_iff_iff, Bool.and_eq_true, beq_iff_eq, beq_iff_eq, decide_eq_true_eq, hname, hdir]
  rw [Graph.placesBeside, hkept]
  unfold Edit.neighbours
  rw [← h.arcs, List.filter_map, List.map_map, List.map_map, List.map_map]
  refine List.map_congr_left fun a ha => ?_
  exact (Graph.placeId?_placeName (d.arcs_inBounds a (List.mem_filter.1 ha).1).1).symm

theorem cancelledBy (h : d.Follows edits) (ht : d.transitions[t]? = some tr) :
    Edit.cancelledBy edits tr.name =
      (d.cancellations.filter fun c => c.transition == t).map NamedCancellation.element := by
  obtain ⟨hlt, rfl⟩ := List.getElem?_eq_some_iff.1 ht
  unfold Edit.cancelledBy
  rw [← h.cancellations, List.filter_map, List.map_map]
  refine congrArg (List.map _) (List.filter_congr fun c hc => ?_)
  rw [Bool.eq_iff_iff, beq_iff_eq, Function.comp_apply, decide_eq_true_eq, ← Graph.transitionName_eq hlt]
  exact ⟨Graph.transitionName_inj (d.cancellations_inBounds c hc) hlt, fun heq => congrArg d.transitionName heq⟩

theorem isSome_placeId?_iff (h : d.Follows edits) (name : String) :
    (d.placeId? name).isSome = true ↔ name ∈ Edit.placeNames edits := by
  rw [Option.isSome_iff_exists, List.mem_iff_getElem?]
  exact exists_congr fun p => h.placeId?_eq_some_iff name p

theorem isSome_transitionId?_iff (h : d.Follows edits) (name : String) :
    (d.transitionId? name).isSome = true ↔ name ∈ Edit.transitionNames edits := by
  rw [Option.isSome_iff_exists, List.mem_iff_getElem?]
  exact exists_congr fun t => h.transitionId?_eq_some_iff name t

end Follows

/-- What a transition cancels goes by what the names stand for: for places where they can. -/
theorem cancelledPlaces_of_build (h : d.build = .ok net) (t : TransitionId) : net.cancelledPlaces t =
    ((d.cancellations.filter fun c => c.transition == t).map NamedCancellation.element).filterMap d.placeId? := by
  unfold Net.cancelledPlaces
  rw [(build_ok h).2, resolvedCancellations, List.filterMap_filterMap, List.filterMap_map, List.filterMap_filter]
  refine List.filterMap_congr fun c _ => ?_
  unfold element?
  by_cases ht : c.transition = t
  · cases hp : d.placeId? c.element with
    | some p => simp [ht, hp]
    | none => cases hu : d.transitionId? c.element <;> simp [ht, hp]
  · cases hp : d.placeId? c.element with
    | some p => simp [ht]
    | none => cases hu : d.transitionId? c.element <;> simp [ht]

theorem cancelledTransitions_of_build (h : d.build = .ok net) (t : TransitionId) : net.cancelledTransitions t =
    (((d.cancellations.filter fun c => c.transition == t).map NamedCancellation.element).filter
      fun name => (d.placeId? name).isNone).filterMap d.transitionId? := by
  unfold Net.cancelledTransitions
  rw [(build_ok h).2, resolvedCancellations, List.filterMap_filterMap, List.filterMap_filter, List.filterMap_map,
    List.filterMap_filter]
  refine List.filterMap_congr fun c _ => ?_
  unfold element?
  by_cases ht : c.transition = t
  · cases hp : d.placeId? c.element with
    | some p => simp [ht, hp]
    | none => cases hu : d.transitionId? c.element <;> simp [ht, hp, hu]
  · cases hp : d.placeId? c.element with
    | some p => simp [ht]
    | none => cases hu : d.transitionId? c.element <;> simp [ht]

/-- **What a transition of the built net cancels**: the places of these names, and the transitions of those that are no
names of places. -/
theorem Follows.cancelled (h : d.Follows edits) (hdrawn : d.IsDrawnBy edits) (hnet : d.build = .ok net)
    (ht : net.transitions[t]? = some tr) :
    (net.cancelledPlaces t).map some =
      ((Edit.cancelledBy edits tr.name).filter fun name => (Edit.place? edits name).isSome).map net.placeId? ∧
    (net.cancelledTransitions t).map some =
      ((Edit.cancelledBy edits tr.name).filter fun name => (Edit.place? edits name).isNone).map net.transitionId? := by
  have hgraph := (build_ok hnet).1
  have hisSome (name : String) : (d.placeId? name).isSome = (Edit.place? edits name).isSome :=
    Bool.eq_iff_iff.2 (hdrawn.isSome_placeId?_iff name)
  have hisNone (name : String) : (d.placeId? name).isNone = (Edit.place? edits name).isNone := by
    rw [← Option.not_isSome, ← Option.not_isSome, hisSome]
  rw [hgraph] at ht ⊢
  have hnames := h.cancelledBy ht
  constructor
  · rw [cancelledPlaces_of_build hnet, ← hnames, map_some_filterMap]
    simp only [hisSome]
  · rw [cancelledTransitions_of_build hnet, ← hnames, map_some_filterMap, List.filter_filter]
    refine congrArg (List.map d.transitionId?) (List.filter_congr fun name hname => ?_)
    -- A name that is not a place's is a transition's, since what is cancelled is there.
    have hthere : name ∈ Edit.placeNames edits ∨ name ∈ Edit.transitionNames edits := by
      obtain ⟨c, hc, rfl⟩ := List.mem_map.1 hname
      exact Edit.mem_names_of_mem_cancellations (List.mem_filter.1 hc).1
    rw [← Edit.isSome_place?_iff, ← h.isSome_transitionId?_iff] at hthere
    rw [hisNone]
    cases hp : Edit.place? edits name with
    | some p => simp
    | none =>
      rw [hp] at hthere
      simp [hthere.resolve_left Bool.false_ne_true]

theorem Follows.records (h : d.Follows edits) (hdrawn : d.IsDrawnBy edits) (hnet : d.build = .ok net) :
    net.Records edits := by
  have hgraph := (build_ok hnet).1
  have hplaceName {n : String} {p : PlaceId} : d.placeId? n = some p → d.placeName p = n := Graph.placeName_of_placeId?
  have htransitionName {n : String} {t : TransitionId} : d.transitionId? n = some t → d.transitionName t = n :=
    Graph.transitionName_of_transitionId?
  have hneighbours (dir : Direction) {t : TransitionId} {tr : Transition} (ht : d.transitions[t]? = some tr) :
      (d.placesBeside t dir).Nodup ∧
        (d.placesBeside t dir).map some = (Edit.neighbours edits tr.name dir).map d.placeId? :=
    ⟨d.nodup_placesBeside t dir, h.neighbours ht dir⟩
  constructor
  case placeId?_iff => exact fun name p => Graph.placeId?_eq_some_iff name p
  case transitionId?_iff => exact fun name t => Graph.transitionId?_eq_some_iff name t
  case places => rw [hgraph]; exact h.places hdrawn
  case transitions => rw [hgraph]; exact h.transitions hdrawn
  case placeId?_kept =>
    rintro before after rfl name p hp
    rw [(follows_drawn before).placeId?_eq_some_iff] at hp
    rw [hgraph, h.placeId?_eq_some_iff]
    obtain ⟨rest, hrest⟩ := Edit.placeNames_append before after
    rw [← hrest, List.getElem?_append_left (List.getElem?_eq_some_iff.1 hp).1]
    exact hp
  case transitionId?_kept =>
    rintro before after rfl name t ht
    rw [(follows_drawn before).transitionId?_eq_some_iff] at ht
    rw [hgraph, h.transitionId?_eq_some_iff]
    obtain ⟨rest, hrest⟩ := Edit.transitionNames_append before after
    rw [← hrest, List.getElem?_append_left (List.getElem?_eq_some_iff.1 ht).1]
    exact ht
  case preset => rw [hgraph]; exact fun t tr ht => hneighbours .input ht
  case postset => rw [hgraph]; exact fun t tr ht => hneighbours .output ht
  case consumers => exact fun p => ⟨net.nodup_transitionsBeside p .input, fun t => Graph.mem_consumers⟩
  case producers => exact fun p => ⟨net.nodup_transitionsBeside p .output, fun t => Graph.mem_producers⟩
  case cancelledPlaces =>
    intro t tr ht
    have hcancelled := (h.cancelled hdrawn hnet ht).1
    rw [hgraph] at hcancelled ⊢
    exact ⟨nodup_of_map_some hplaceName hcancelled ((Edit.nodup_cancelledBy edits tr.name).filter _), hcancelled⟩
  case cancelledTransitions =>
    intro t tr ht
    have hcancelled := (h.cancelled hdrawn hnet ht).2
    rw [hgraph] at hcancelled ⊢
    exact ⟨nodup_of_map_some htransitionName hcancelled ((Edit.nodup_cancelledBy edits tr.name).filter _), hcancelled⟩

/-- **A built net records its edits.**  Which edits are refused, and why, depends on the edits before alone; a refused
edit leaves the draft as it was, so the draft is the one that the accepted edits draw.  If it is built, the net is, number
by number and in order, what the edits say. -/
theorem build_records (edits : List Edit) :
    (∀ e defect, (drawn edits).tryEdit e = .error defect ↔ Edit.refusal? edits e = some defect) ∧
    (∀ e defect, (drawn edits).tryEdit e = .error defect → drawn (edits ++ [e]) = drawn edits) ∧
    drawn (Edit.accepted edits) = drawn edits ∧
    ∀ net, (drawn edits).build = .ok net → net.Records edits := by
  have hdrawn := isDrawnBy_drawn edits
  refine ⟨fun e defect => tryEdit_error_iff hdrawn e defect, fun e defect hfail => ?_, drawn_accepted edits,
    fun net hnet => (follows_drawn edits).records hdrawn hnet⟩
  rw [drawn_concat, edit_of_refusal? hdrawn ((tryEdit_error_iff hdrawn e defect).1 hfail)]

/-- Some pieces come too early, twice, or first as another kind, and the name `x` is first a transition's alone. -/
def redrawn : List Edit :=
  [.place ⟨"i", .internal⟩, .place ⟨"o", .sink⟩, .transition ⟨"a", .and, .xor⟩, .arc "x" "a" .output,
    .arc "o" "a" .output, .transition ⟨"x", .or, .and⟩, .cancellation "a" "x", .place ⟨"x", .internal⟩,
    .arc "x" "a" .output, .arc "x" "x" .input, .arc "o" "x" .output, .place ⟨"i", .source⟩, .arc "i" "a" .input,
    .transition ⟨"a", .xor, .and⟩, .arc "o" "a" .output, .cancellation "x" "y", .cancellation "a" "x"]

/-- The place `x` is the third, and it is what `a` cancels; its arc from `a` comes after that of `o`. -/
theorem redrawn_recorded : ∃ net, (drawn redrawn).build = .ok net ∧ net.Records redrawn ∧
    net.places.map Place.kind = [.source, .sink, .internal] ∧ net.postset 0 = [1, 2] ∧ net.cancelledPlaces 0 = [2] ∧
    net.cancelledTransitions 0 = [] ∧
    (drawn redrawn).tryEdit (.arc "y" "a" .input) = .error (.arcToMissingPlace "y" "a") ∧
    drawn (redrawn ++ [.arc "y" "a" .input]) = drawn redrawn := by
  have hall : (drawn redrawn).build.map (fun net => (net.places.map Place.kind, net.postset 0, net.cancelledPlaces 0,
      net.cancelledTransitions 0)) = .ok ([.source, .sink, .internal], [1, 2], [2], []) := rfl
  obtain ⟨net, hnet, hread⟩ := exists_ok_of_map hall
  obtain ⟨hkinds, hread⟩ := Prod.mk.inj hread
  obtain ⟨hpost, hread⟩ := Prod.mk.inj hread
  obtain ⟨hplaces, htransitions⟩ := Prod.mk.inj hread
  obtain ⟨hrefused, hkept, -, hrecords⟩ := build_records redrawn
  have hfail : (drawn redrawn).tryEdit (.arc "y" "a" .input) = .error (.arcToMissingPlace "y" "a") :=
    (hrefused _ _).2 rfl
  exact ⟨net, hnet, hrecords net hnet, hkinds, hpost, hplaces, htransitions, hfail, hkept _ _ hfail⟩

end Draft

end Workflow
