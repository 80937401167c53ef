import Workflow.Closure
import Workflow.Proofs.Drawing
/-!
# Ordering — the lists of a draft are in the order of its edits

Which edits are refused can be told from the edits before, by name, and a refused edit leaves no trace
(`drawn_accepted`).  The names of places and transitions stand in the order in which they first came up, and arcs and
cancellations in the order in which they were first accepted: whatever comes a second time stays where it is
(`follows_drawn`).
-/
namespace Workflow

/-! ## What a list of edits says, in its order -/

/-- An arc by the names of its ends. -/
structure NamedArc where
  place : String
  transition : String
  direction : Direction
deriving DecidableEq, Repr

namespace Edit

/-- Why the edit is refused once `before` has been made, if it is: a piece that it speaks of is not there. -/
def refusal? (before : List Edit) : Edit → Option Defect
  | .place _ | .transition _ => none
  | .arc p t _ =>
    if place? before p = none then some (.arcToMissingPlace p t)
    else if transition? before t = none then some (.arcToMissingTransition p t)
    else none
  | .cancellation t element =>
    if transition? before t = none then some (.cancellationByMissing t)
    else if place? before element = none ∧ transition? before element = none then
      some (.cancellationOfMissing element t)
    else none

/-- Those of the edits that are accepted once `before` has been made. -/
def acceptedAfter (before : List Edit) : List Edit → List Edit
  | [] => []
  | e :: edits =>
    if refusal? before e = none then e :: acceptedAfter (before ++ [e]) edits else acceptedAfter (before ++ [e]) edits

def accepted (edits : List Edit) : List Edit := acceptedAfter [] edits

/-- The names of the places, in the order in which they first came up. -/
def placeNames (edits : List Edit) : List String := ((placesAdded edits).map Place.name).eraseDups

/-- The names of the transitions, in the order in which they first came up. -/
def transitionNames (edits : List Edit) : List String := ((transitionsAdded edits).map Transition.name).eraseDups

def namedArc? : Edit → Option NamedArc
  | .arc p t d => some ⟨p, t, d⟩
  | _ => none

/-- The arcs, in the order in which they were first accepted. -/
def arcs (edits : List Edit) : List NamedArc := ((accepted edits).filterMap namedArc?).eraseDups

def namedCancellation? : Edit → Option (String × String)
  | .cancellation t element => some (t, element)
  | _ => none

/-- Who cancels what, in the order in which it was first accepted. -/
def cancellations (edits : List Edit) : List (String × String) :=
  ((accepted edits).filterMap namedCancellation?).eraseDups

/-- The places at the other ends of the arcs of a transition, in the order of the arcs. -/
def neighbours (edits : List Edit) (transition : String) (d : Direction) : List String :=
  ((arcs edits).filter fun a => a.transition = transition ∧ a.direction = d).map NamedArc.place

/-- What a transition cancels. -/
def cancelledBy (edits : List Edit) (transition : String) : List String :=
  ((cancellations edits).filter fun c => c.1 = transition).map Prod.snd

end Edit

/-! ## Members of a list that are new -/

section New

variable {α β : Type} [BEq α] [LawfulBEq α] [BEq β] [LawfulBEq β]

/-- `a` at the end, unless it is in the list already. -/
def addNew (l : List α) (a : α) : List α := if a ∈ l then l else l ++ [a]

theorem eraseDups_concat (l : List α) (a : α) : (l ++ [a]).eraseDups = addNew l.eraseDups a := by
  rw [List.eraseDups_append]
  unfold addNew
  by_cases h : a ∈ l
  · rw [if_pos (List.mem_eraseDups.2 h)]
    simp [List.removeAll, h]
  · rw [if_neg fun hmem => h (List.mem_eraseDups.1 hmem)]
    simp [List.removeAll, h, List.eraseDups_cons]

/-- What a function tells apart is as new after it as before. -/
theorem map_addNew {f : α → β} {l : List α} {a : α} (h : ∀ b ∈ l, f b = f a → b = a) :
    (addNew l a).map f = addNew (l.map f) (f a) := by
  have hmem : f a ∈ l.map f ↔ a ∈ l := by
    rw [List.mem_map]
    constructor
    · rintro ⟨b, hb, heq⟩
      exact h b hb heq ▸ hb
    · exact fun ha => ⟨a, ha, rfl⟩
  unfold addNew
  by_cases ha : a ∈ l
  · rw [if_pos ha, if_pos (hmem.2 ha)]
  · rw [if_neg ha, if_neg (fun hf => ha (hmem.1 hf)), List.map_append, List.map_singleton]

end New

/-! ## Edits one by one -/

namespace Edit

variable {edits : List Edit} {e : Edit}

theorem acceptedAfter_concat : ∀ (before edits : List Edit) (e : Edit), acceptedAfter before (edits ++ [e]) =
    acceptedAfter before edits ++ if refusal? (before ++ edits) e = none then [e] else []
  | before, [], e => by
    rw [List.nil_append, List.append_nil]
    unfold acceptedAfter
    split <;> rfl
  | before, a :: edits, e => by
    have ih := acceptedAfter_concat (before ++ [a]) edits e
    rw [List.append_assoc, List.singleton_append] at ih
    rw [List.cons_append, acceptedAfter, ih, acceptedAfter]
    split
    · rw [List.cons_append]
    · rfl

theorem accepted_concat_of_none (h : refusal? edits e = none) : accepted (edits ++ [e]) = accepted edits ++ [e] := by
  unfold accepted
  rw [acceptedAfter_concat, List.nil_append, if_pos h]

theorem accepted_concat_of_some {defect : Defect} (h : refusal? edits e = some defect) :
    accepted (edits ++ [e]) = accepted edits := by
  have hne : refusal? edits e ≠ none := by
    rw [h]
    exact Option.some_ne_none defect
  unfold accepted
  rw [acceptedAfter_concat, List.nil_append, if_neg hne, List.append_nil]

end Edit

namespace Draft

variable {d : Draft} {edits : List Edit}

theorem drawn_concat (edits : List Edit) (e : Edit) : drawn (edits ++ [e]) = (drawn edits).edit e := by
  unfold drawn
  rw [List.foldl_append]
  rfl

/-- **What drawing an arc does**: it fails for want of an end, or puts the arc behind the others if it is new. -/
theorem insertArc_cases (d : Draft) (place transition : String) (dir : Direction) :
    (d.placeId? place = none ∧ d.insertArc place transition dir = .error (.arcToMissingPlace place transition)) ∨
    (d.placeId? place ≠ none ∧ d.transitionId? transition = none ∧
      d.insertArc place transition dir = .error (.arcToMissingTransition place transition)) ∨
    ∃ p t r, d.placeId? place = some p ∧ d.transitionId? transition = some t ∧
      d.insertArc place transition dir = .ok r ∧ r.2.places = d.places ∧ r.2.transitions = d.transitions ∧
      r.2.arcs = addNew d.arcs ⟨p, t, dir⟩ ∧ r.2.cancellations = d.cancellations := by
  unfold insertArc
  split
  · rename_i hp
    exact .inl ⟨hp, rfl⟩
  · rename_i p hp ht
    exact .inr (.inl ⟨by rw [hp]; exact Option.some_ne_none p, ht, rfl⟩)
  · rename_i p t hp ht
    refine .inr (.inr ⟨p, t, ?_⟩)
    unfold addNew
    split
    · exact ⟨_, hp, ht, rfl, rfl, rfl, rfl, rfl⟩
    · exact ⟨_, hp, ht, rfl, rfl, rfl, rfl, rfl⟩

/-- **What asking for a cancellation does**: it fails for want of a piece, or puts the wish behind the others if it is
new. -/
theorem insertCancellation_cases (d : Draft) (transition element : String) :
    (d.transitionId? transition = none ∧
      d.insertCancellation transition element = .error (.cancellationByMissing transition)) ∨
    (d.transitionId? transition ≠ none ∧ (d.placeId? element = none ∧ d.transitionId? element = none) ∧
      d.insertCancellation transition element = .error (.cancellationOfMissing element transition)) ∨
    ∃ t d', d.transitionId? transition = some t ∧ ¬ (d.placeId? element = none ∧ d.transitionId? element = none) ∧
      d.insertCancellation transition element = .ok d' ∧ d'.toGraph = d.toGraph ∧
      d'.cancellations = addNew d.cancellations ⟨t, element⟩ := by
  unfold insertCancellation
  split
  · rename_i ht
    exact .inl ⟨ht, rfl⟩
  · rename_i t ht
    simp only [Bool.and_eq_true, Option.isNone_iff_eq_none]
    split
    · rename_i hmissing
      exact .inr (.inl ⟨by rw [ht]; exact Option.some_ne_none t, hmissing, rfl⟩)
    · rename_i hthere
      refine .inr (.inr ⟨t, ?_⟩)
      unfold addNew
      split
      · exact ⟨_, ht, hthere, rfl, rfl, rfl⟩
      · exact ⟨_, ht, hthere, rfl, rfl, rfl⟩

theorem placeId?_eq_none_iff (h : d.IsDrawnBy edits) (name : String) :
    d.placeId? name = none ↔ Edit.place? edits name = none := by
  rw [← Option.not_isSome_iff_eq_none, ← Option.not_isSome_iff_eq_none, h.isSome_placeId?_iff]

theorem transitionId?_eq_none_iff (h : d.IsDrawnBy edits) (name : String) :
    d.transitionId? name = none ↔ Edit.transition? edits name = none := by
  rw [← Option.not_isSome_iff_eq_none, ← Option.not_isSome_iff_eq_none, h.isSome_transitionId?_iff]

/-- **Which edits are refused, and why**, can be told from the edits before. -/
theorem tryEdit_error_iff (h : d.IsDrawnBy edits) (e : Edit) (defect : Defect) :
    d.tryEdit e = .error defect ↔ Edit.refusal? edits e = some defect := by
  have hplace (name : String) := placeId?_eq_none_iff h name
  have htransition (name : String) := transitionId?_eq_none_iff h name
  cases e with
  | place p => exact ⟨nofun, nofun⟩
  | transition t => exact ⟨nofun, nofun⟩
  | arc place transition dir =>
    have htry : d.tryEdit (.arc place transition dir) = (d.insertArc place transition dir).map Prod.snd := rfl
    rw [htry]
    unfold Edit.refusal?
    simp only [← hplace, ← htransition]
    rcases insertArc_cases d place transition dir with ⟨hp, hr⟩ | ⟨hp, ht, hr⟩ | ⟨p, t, r, hp, ht, hr, -⟩
    · simp [hp, hr, Except.map]
    · simp [hp, ht, hr, Except.map]
    · simp [hp, ht, hr, Except.map]
  | cancellation transition element =>
    have htry : d.tryEdit (.cancellation transition element) = d.insertCancellation transition element := rfl
    rw [htry]
    unfold Edit.refusal?
    simp only [← hplace, ← htransition]
    rcases insertCancellation_cases d transition element with ⟨ht, hr⟩ | ⟨ht, hmissing, hr⟩ |
      ⟨t, d', ht, hthere, hr, -⟩
    · simp [ht, hr]
    · rw [if_neg ht, if_pos hmissing, hr]
      simp
    · rw [if_neg (by rw [ht]; exact Option.some_ne_none t), if_neg hthere, hr]
      exact ⟨nofun, nofun⟩

theorem edit_of_refusal? (h : d.IsDrawnBy edits) {e : Edit} {defect : Defect}
    (hr : Edit.refusal? edits e = some defect) : d.edit e = d := by
  unfold edit
  rw [(tryEdit_error_iff h e defect).2 hr]

/-- **A refused edit leaves no trace.** -/
theorem drawn_accepted (edits : List Edit) : drawn (Edit.accepted edits) = drawn edits := by
  induction edits using List.reverseRecOn with
  | nil => rfl
  | append_singleton edits e ih =>
    cases hr : Edit.refusal? edits e with
    | none => rw [Edit.accepted_concat_of_none hr, drawn_concat, drawn_concat, ih]
    | some defect =>
      rw [Edit.accepted_concat_of_some hr, drawn_concat, ih, edit_of_refusal? (isDrawnBy_drawn edits) hr]

end Draft

/-! ## The order of a draft -/

def Graph.namedArc (g : Graph) (a : Arc) : NamedArc :=
  ⟨g.placeName a.place, g.transitionName a.transition, a.direction⟩

namespace Draft

variable {d d' : Draft} {edits : List Edit} {e : Edit}

def namedCancellation (d : Draft) (c : NamedCancellation) : String × String :=
  (d.transitionName c.transition, c.element)

/-- The lists of the draft are those of the edits, in the same order. -/
structure Follows (d : Draft) (edits : List Edit) : Prop where
  placeNames : d.places.map Place.name = Edit.placeNames edits
  transitionNames : d.transitions.map Transition.name = Edit.transitionNames edits
  arcs : d.arcs.map d.namedArc = Edit.arcs edits
  cancellations : d.cancellations.map d.namedCancellation = Edit.cancellations edits

/-- Arcs and wishes that stay are known by the same names, as long as these names stay. -/
theorem map_named_congr (harcs : d'.arcs = d.arcs) (hcancellations : d'.cancellations = d.cancellations)
    (hplace : ∀ p < d.places.length, d'.placeName p = d.placeName p)
    (htransition : ∀ t < d.transitions.length, d'.transitionName t = d.transitionName t) :
    d'.arcs.map d'.namedArc = d.arcs.map d.namedArc ∧
      d'.cancellations.map d'.namedCancellation = d.cancellations.map d.namedCancellation := by
  rw [harcs, hcancellations]
  refine ⟨List.map_congr_left fun a ha => ?_, List.map_congr_left fun c hc => ?_⟩
  · obtain ⟨hp, ht⟩ := d.arcs_inBounds a ha
    unfold Graph.namedArc
    rw [hplace _ hp, htransition _ ht]
  · unfold namedCancellation
    rw [htransition _ (d.cancellations_inBounds c hc)]

/-- The names tell arcs apart. -/
theorem eq_of_namedArc_eq {a : Arc} {p : PlaceId} {t : TransitionId} {dir : Direction} (ha : a ∈ d.arcs)
    (hp : p < d.places.length) (ht : t < d.transitions.length) (h : d.namedArc a = d.namedArc ⟨p, t, dir⟩) :
    a = ⟨p, t, dir⟩ := by
  obtain ⟨hap, hat⟩ := d.arcs_inBounds a ha
  obtain ⟨q, u, dir'⟩ := a
  obtain ⟨hplace, htransition, hdir⟩ := NamedArc.mk.inj h
  have hq : q = p := Graph.placeName_inj hap hp hplace
  have hu : u = t := Graph.transitionName_inj hat ht htransition
  have hdir' : dir' = dir := hdir
  rw [hq, hu, hdir']

theorem eq_of_namedCancellation_eq {c : NamedCancellation} {t : TransitionId} {element : String}
    (hc : c ∈ d.cancellations) (ht : t < d.transitions.length)
    (h : d.namedCancellation c = d.namedCancellation ⟨t, element⟩) : c = ⟨t, element⟩ := by
  have hct := d.cancellations_inBounds c hc
  obtain ⟨u, element'⟩ := c
  obtain ⟨htransition, helement⟩ := Prod.mk.inj h
  have hu : u = t := Graph.transitionName_inj hct ht htransition
  have helement' : element' = element := helement
  rw [hu, helement']

end Draft

namespace Edit

variable {edits : List Edit} {e : Edit}

theorem placeNames_concat_of_nil (h : placesAdded [e] = []) : placeNames (edits ++ [e]) = placeNames edits := by
  unfold placeNames
  rw [placesAdded_concat, h, List.append_nil]

theorem transitionNames_concat_of_nil (h : transitionsAdded [e] = []) :
    transitionNames (edits ++ [e]) = transitionNames edits := by
  unfold transitionNames
  rw [transitionsAdded_concat, h, List.append_nil]

theorem placeNames_concat_place (edits : List Edit) (p : Place) :
    placeNames (edits ++ [.place p]) = addNew (placeNames edits) p.name := by
  have hadded : placesAdded [.place p] = [p] := rfl
  unfold placeNames
  rw [placesAdded_concat, hadded, List.map_append, List.map_singleton, eraseDups_concat]

theorem transitionNames_concat_transition (edits : List Edit) (t : Transition) :
    transitionNames (edits ++ [.transition t]) = addNew (transitionNames edits) t.name := by
  have hadded : transitionsAdded [.transition t] = [t] := rfl
  unfold transitionNames
  rw [transitionsAdded_concat, hadded, List.map_append, List.map_singleton, eraseDups_concat]

theorem arcs_concat (h : refusal? edits e = none) : arcs (edits ++ [e]) =
    match namedArc? e with
    | some a => addNew (arcs edits) a
    | none => arcs edits := by
  unfold arcs
  rw [accepted_concat_of_none h, List.filterMap_append]
  cases hn : namedArc? e with
  | none => rw [List.filterMap_cons_none hn, List.filterMap_nil, List.append_nil]
  | some a => rw [List.filterMap_cons_some hn, List.filterMap_nil, eraseDups_concat]

theorem cancellations_concat (h : refusal? edits e = none) : cancellations (edits ++ [e]) =
    match namedCancellation? e with
    | some c => addNew (cancellations edits) c
    | none => cancellations edits := by
  unfold cancellations
  rw [accepted_concat_of_none h, List.filterMap_append]
  cases hn : namedCancellation? e with
  | none => rw [List.filterMap_cons_none hn, List.filterMap_nil, List.append_nil]
  | some a => rw [List.filterMap_cons_some hn, List.filterMap_nil, eraseDups_concat]

end Edit

namespace Draft

variable {d d' : Draft} {edits : List Edit} {e : Edit}

/-- After an edit that adds no place and no transition only arcs and wishes can be others. -/
theorem Follows.concat (h : d.Follows edits) (hplaces : d'.places = d.places)
    (htransitions : d'.transitions = d.transitions) (hnoPlace : Edit.placesAdded [e] = [])
    (hnoTransition : Edit.transitionsAdded [e] = [])
    (harcs : d'.arcs.map d.namedArc = Edit.arcs (edits ++ [e]))
    (hcancellations : d'.cancellations.map d.namedCancellation = Edit.cancellations (edits ++ [e])) :
    d'.Follows (edits ++ [e]) := by
  have hplace (p : PlaceId) : d'.placeName p = d.placeName p := Graph.placeName_congr (by rw [hplaces])
  have htransition (t : TransitionId) : d'.transitionName t = d.transitionName t :=
    Graph.transitionName_congr (by rw [htransitions])
  refine ⟨?_, ?_, ?_, ?_⟩
  · rw [hplaces, Edit.placeNames_concat_of_nil hnoPlace, h.placeNames]
  · rw [htransitions, Edit.transitionNames_concat_of_nil hnoTransition, h.transitionNames]
  · rw [← harcs]
    refine List.map_congr_left fun a _ => ?_
    unfold Graph.namedArc
    rw [hplace, htransition]
  · rw [← hcancellations]
    refine List.map_congr_left fun c _ => ?_
    unfold namedCancellation
    rw [htransition]

theorem Follows.refused (hdrawn : d.IsDrawnBy edits) (h : d.Follows edits) {defect : Defect}
    (hr : Edit.refusal? edits e = some defect) : (d.edit e).Follows (edits ++ [e]) := by
  have hadds : Edit.placesAdded [e] = [] ∧ Edit.transitionsAdded [e] = [] := by
    cases e with
    | place p => cases hr
    | transition t => cases hr
    | arc | cancellation => exact ⟨rfl, rfl⟩
  rw [edit_of_refusal? hdrawn hr]
  refine h.concat rfl rfl hadds.1 hadds.2 ?_ ?_
  · unfold Edit.arcs
    rw [Edit.accepted_concat_of_some hr]
    exact h.arcs
  · unfold Edit.cancellations
    rw [Edit.accepted_concat_of_some hr]
    exact h.cancellations

theorem Follows.place (h : d.Follows edits) (p : Place) : (d.insertPlace p).2.Follows (edits ++ [.place p]) := by
  have harcs : (d.insertPlace p).2.arcs = d.arcs := rfl
  obtain ⟨hnamedArcs, hnamedCancellations⟩ := map_named_congr harcs rfl (fun q hq => placeName_insertPlace hq p)
    (fun _ _ => rfl)
  refine ⟨?_, ?_, ?_, ?_⟩
  · rw [Edit.placeNames_concat_place, ← h.placeNames]
    exact map_name_insertNamed Place.name d.places p
  · rw [Edit.transitionNames_concat_of_nil rfl]
    exact h.transitionNames
  · rw [hnamedArcs, Edit.arcs_concat rfl]
    exact h.arcs
  · rw [hnamedCancellations, Edit.cancellations_concat rfl]
    exact h.cancellations

theorem Follows.transition (h : d.Follows edits) (t : Transition) :
    (d.insertTransition t).2.Follows (edits ++ [.transition t]) := by
  have harcs : (d.insertTransition t).2.arcs = d.arcs := rfl
  obtain ⟨hnamedArcs, hnamedCancellations⟩ := map_named_congr harcs rfl (fun _ _ => rfl)
    (fun u hu => transitionName_insertTransition hu t)
  refine ⟨?_, ?_, ?_, ?_⟩
  · rw [Edit.placeNames_concat_of_nil rfl]
    exact h.placeNames
  · rw [Edit.transitionNames_concat_transition, ← h.transitionNames]
    exact map_name_insertNamed Transition.name d.transitions t
  · rw [hnamedArcs, Edit.arcs_concat rfl]
    exact h.arcs
  · rw [hnamedCancellations, Edit.cancellations_concat rfl]
    exact h.cancellations

theorem Follows.arc {place transition : String} {dir : Direction} (h : d.Follows edits)
    (hr : Edit.refusal? edits (.arc place transition dir) = none)
    (hok : d.tryEdit (.arc place transition dir) = .ok d') : d'.Follows (edits ++ [.arc place transition dir]) := by
  have htry : d.tryEdit (.arc place transition dir) = (d.insertArc place transition dir).map Prod.snd := rfl
  rw [htry] at hok
  rcases insertArc_cases d place transition dir with ⟨-, hfail⟩ | ⟨-, -, hfail⟩ |
    ⟨p, t, r, hp, ht, hins, hplaces, htransitions, harcs, hcancellations⟩
  · rw [hfail] at hok
    cases hok
  · rw [hfail] at hok
    cases hok
  · rw [hins] at hok
    obtain rfl : r.2 = d' := Except.ok.inj hok
    refine h.concat hplaces htransitions rfl rfl ?_ ?_
    · rw [harcs, map_addNew fun a ha => eq_of_namedArc_eq ha (Graph.placeId?_lt hp) (Graph.transitionId?_lt ht),
        h.arcs, Edit.arcs_concat hr]
      unfold Graph.namedArc
      rw [Graph.placeName_of_placeId? hp, Graph.transitionName_of_transitionId? ht]
      rfl
    · rw [hcancellations, h.cancellations, Edit.cancellations_concat hr]
      rfl

theorem Follows.cancellation {transition element : String} (h : d.Follows edits)
    (hr : Edit.refusal? edits (.cancellation transition element) = none)
    (hok : d.tryEdit (.cancellation transition element) = .ok d') :
    d'.Follows (edits ++ [.cancellation transition element]) := by
  have htry : d.tryEdit (.cancellation transition element) = d.insertCancellation transition element := rfl
  rw [htry] at hok
  rcases insertCancellation_cases d transition element with ⟨-, hfail⟩ | ⟨-, -, hfail⟩ |
    ⟨t, d'', ht, -, hins, hgraph, hcancellations⟩
  · rw [hfail] at hok
    cases hok
  · rw [hfail] at hok
    cases hok
  · rw [hins] at hok
    obtain rfl : d'' = d' := Except.ok.inj hok
    refine h.concat (by rw [hgraph]) (by rw [hgraph]) rfl rfl ?_ ?_
    · rw [hgraph, h.arcs, Edit.arcs_concat hr]
      rfl
    · rw [hcancellations, map_addNew fun c hc => eq_of_namedCancellation_eq hc (Graph.transitionId?_lt ht),
        h.cancellations, Edit.cancellations_concat hr]
      unfold namedCancellation
      rw [Graph.transitionName_of_transitionId? ht]
      rfl

/-- **One more edit**, accepted or not. -/
theorem Follows.edit (hdrawn : d.IsDrawnBy edits) (h : d.Follows edits) (e : Edit) :
    (d.edit e).Follows (edits ++ [e]) := by
  cases hr : Edit.refusal? edits e with
  | some defect => exact h.refused hdrawn hr
  | none =>
    cases htry : d.tryEdit e with
    | error defect =>
      rw [(tryEdit_error_iff hdrawn e defect).1 htry] at hr
      cases hr
    | ok d' =>
      have hedit : d.edit e = d' := by
        unfold Draft.edit
        rw [htry]
      rw [hedit]
      cases e with
      | place p =>
        obtain rfl : (d.insertPlace p).2 = d' := Except.ok.inj htry
        exact h.place p
      | transition t =>
        obtain rfl : (d.insertTransition t).2 = d' := Except.ok.inj htry
        exact h.transition t
      | arc place transition dir => exact h.arc hr htry
      | cancellation transition element => exact h.cancellation hr htry

/-- **A draft follows its edits**, in order. -/
theorem follows_drawn (edits : List Edit) : (drawn edits).Follows edits := by
  induction edits using List.reverseRecOn with
  | nil => exact ⟨rfl, rfl, rfl, rfl⟩
  | append_singleton edits e ih =>
    rw [drawn_concat]
    exact ih.edit (isDrawnBy_drawn edits) e

end Draft

end Workflow
