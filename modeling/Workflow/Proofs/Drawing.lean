import Mathlib.Data.List.Induction
import Workflow.Net.Edit
import Workflow.Net.Names
/-!
# Drawing — the graph that some edits describe

Edits speak of places and transitions by name.  Read without any numbers they describe a graph: a place or transition
is as the last edit of its name has it, and an arc is there once an edit has asked for it while both its ends were.
Whatever the edits are, and whichever of them are refused, the draft they draw is this graph (`isDrawnBy_drawn`).
-/
namespace Workflow

/-! ## What a list of edits describes -/

/-- The last member of this name. -/
def lastNamed? {α : Type} (name : α → String) (l : List α) (n : String) : Option α :=
  l.reverse.find? (fun a => name a == n)

namespace Edit

def placesAdded (edits : List Edit) : List Place :=
  edits.filterMap fun e => match e with | .place p => some p | _ => none

def transitionsAdded (edits : List Edit) : List Transition :=
  edits.filterMap fun e => match e with | .transition t => some t | _ => none

/-- The place of this name as it was last added. -/
def place? (edits : List Edit) (name : String) : Option Place := lastNamed? Place.name (placesAdded edits) name

/-- The transition of this name as it was last added. -/
def transition? (edits : List Edit) (name : String) : Option Transition :=
  lastNamed? Transition.name (transitionsAdded edits) name

/-- An edit asks for this arc at a time when both its ends are there. -/
def HasArc (edits : List Edit) (place transition : String) (d : Direction) : Prop :=
  ∃ before after, edits = before ++ .arc place transition d :: after ∧
    (place? before place).isSome = true ∧ (transition? before transition).isSome = true

end Edit

/-- There is an arc between the place and the transition of these names. -/
def Graph.Joins (g : Graph) (place transition : String) (d : Direction) : Prop :=
  ∃ a ∈ g.arcs, g.placeName a.place = place ∧ g.transitionName a.transition = transition ∧ a.direction = d

/-- The graph is the one that the edits describe. -/
structure Graph.IsDrawnBy (g : Graph) (edits : List Edit) : Prop where
  places : ∀ p, p ∈ g.places ↔ Edit.place? edits p.name = some p
  transitions : ∀ t, t ∈ g.transitions ↔ Edit.transition? edits t.name = some t
  arcs : ∀ place transition d, g.Joins place transition d ↔ Edit.HasArc edits place transition d

/-! ## Pieces by name -/

section Named

variable {α : Type} {name : α → String} {l added : List α} {x y : α} {n : String}

theorem lastNamed?_concat (l : List α) (x : α) (n : String) :
    lastNamed? name (l ++ [x]) n = if name x = n then some x else lastNamed? name l n := by
  unfold lastNamed?
  rw [List.reverse_append, List.reverse_singleton, List.singleton_append, List.find?_cons]
  by_cases h : name x = n
  · rw [if_pos h, beq_iff_eq.2 h]
  · rw [if_neg h, beq_eq_false_iff_ne.2 h]

theorem name_of_lastNamed? (h : lastNamed? name l n = some x) : name x = n := by
  unfold lastNamed? at h
  exact eq_of_beq (List.find?_some (p := fun a => name a == n) h)

/-- A list in which `x` has taken the place of its namesake. -/
theorem mem_replaced (h : ∃ z ∈ l, name z = name x) :
    y ∈ l.map (fun z => if name z = name x then x else z) ↔ if name x = name y then x = y else y ∈ l := by
  rw [List.mem_map]
  by_cases hxy : name x = name y
  · rw [if_pos hxy]
    constructor
    · rintro ⟨z, -, hz⟩
      split at hz
      · exact hz
      · rename_i hne
        exact absurd (hz ▸ hxy.symm) hne
    · rintro rfl
      obtain ⟨z, hz, hname⟩ := h
      exact ⟨z, hz, if_pos hname⟩
  · rw [if_neg hxy]
    constructor
    · rintro ⟨z, hz, hzy⟩
      split at hzy
      · exact absurd (congrArg name hzy) hxy
      · exact hzy ▸ hz
    · exact fun hy => ⟨y, hy, if_neg (Ne.symm hxy)⟩

/-- A list to which `x` has been added, which has no namesake in it. -/
theorem mem_added (h : ∀ z ∈ l, name z ≠ name x) :
    y ∈ l ++ [x] ↔ if name x = name y then x = y else y ∈ l := by
  rw [List.mem_append, List.mem_singleton]
  by_cases hxy : name x = name y
  · rw [if_pos hxy]
    have hy : y ∉ l := fun hy => h y hy hxy.symm
    simp only [hy, false_or]
    exact eq_comm
  · rw [if_neg hxy]
    have hne : y ≠ x := fun heq => hxy (congrArg name heq.symm)
    simp only [hne, or_false]

theorem mem_insertNamed : y ∈ insertNamed name l x ↔ if name x = name y then x = y else y ∈ l := by
  unfold insertNamed
  split
  · rename_i hthere
    exact mem_replaced (by simpa using hthere)
  · rename_i hnew
    exact mem_added (by simpa using hnew)

/-- The names that a list begins with stay where they are. -/
theorem getElem?_map_insertNamed {i : Nat} (hi : i < l.length) (x : α) :
    ((insertNamed name l x).map name)[i]? = (l.map name)[i]? := by
  rw [map_name_insertNamed]
  split
  · rfl
  · rw [List.getElem?_append_left (by rwa [List.length_map])]

/-- Where a list has each piece as it was last added, it still does once `x` has been added to both. -/
theorem mem_insertNamed_iff_lastNamed? (h : ∀ y, y ∈ l ↔ lastNamed? name added (name y) = some y) (x y : α) :
    y ∈ insertNamed name l x ↔ lastNamed? name (added ++ [x]) (name y) = some y := by
  rw [mem_insertNamed, lastNamed?_concat]
  by_cases hname : name x = name y
  · rw [if_pos hname, if_pos hname, Option.some.injEq]
  · rw [if_neg hname, if_neg hname]
    exact h y

theorem exists_named_iff (h : ∀ y, y ∈ l ↔ lastNamed? name added (name y) = some y) :
    (∃ y ∈ l, name y = n) ↔ (lastNamed? name added n).isSome = true := by
  rw [Option.isSome_iff_exists]
  constructor
  · rintro ⟨y, hy, rfl⟩
    exact ⟨y, (h y).1 hy⟩
  · rintro ⟨y, hy⟩
    have hname := name_of_lastNamed? hy
    exact ⟨y, (h y).2 (hname.symm ▸ hy), hname⟩

end Named

/-! ## What an edit does to a draft -/

namespace Draft

variable {d : Draft} {i : Nat}

/-- A place keeps its name, whatever is added. -/
theorem placeName_insertPlace (hi : i < d.places.length) (p : Place) :
    (d.insertPlace p).2.placeName i = d.placeName i := Graph.placeName_congr (getElem?_map_insertNamed hi p)

theorem transitionName_insertTransition (hi : i < d.transitions.length) (t : Transition) :
    (d.insertTransition t).2.transitionName i = d.transitionName i :=
  Graph.transitionName_congr (getElem?_map_insertNamed hi t)

theorem toGraph_insertCancellation {transition element : String} {d' : Draft}
    (h : d.insertCancellation transition element = .ok d') : d'.toGraph = d.toGraph := by
  unfold insertCancellation at h
  split at h
  · cases h
  · split at h
    · cases h
    · split at h <;> cases h <;> rfl

/-- **An accepted arc** is the one asked for, between two pieces that are there. -/
theorem insertArc_ok {place transition : String} {dir : Direction} {r : Option Arc × Draft}
    (h : d.insertArc place transition dir = .ok r) : ∃ p t, d.placeId? place = some p ∧
      d.transitionId? transition = some t ∧ r.2.places = d.places ∧ r.2.transitions = d.transitions ∧
      ∀ a, a ∈ r.2.arcs ↔ a ∈ d.arcs ∨ a = ⟨p, t, dir⟩ := by
  unfold insertArc at h
  split at h
  · cases h
  · cases h
  · rename_i p t hp ht
    split at h
    · rename_i hmem
      cases h
      refine ⟨p, t, hp, ht, rfl, rfl, fun a => ?_⟩
      constructor
      · exact .inl
      · rintro (ha | rfl)
        · exact ha
        · exact hmem
    · cases h
      refine ⟨p, t, hp, ht, rfl, rfl, fun a => ?_⟩
      rw [List.mem_append, List.mem_singleton]

/-- **A refused arc** lacks one of its ends. -/
theorem insertArc_error {place transition : String} {dir : Direction} {defect : Defect}
    (h : d.insertArc place transition dir = .error defect) :
    d.placeId? place = none ∨ d.transitionId? transition = none := by
  unfold insertArc at h
  split at h
  · rename_i hp
    exact .inl hp
  · rename_i ht
    exact .inr ht
  · split at h <;> cases h

end Draft

/-! ## Any list of edits -/

namespace Edit

variable {edits : List Edit} {e : Edit} {place transition : String} {d : Direction}

/-- An arc that is described once one more edit has been made. -/
theorem hasArc_concat : HasArc (edits ++ [e]) place transition d ↔ HasArc edits place transition d ∨
    (e = .arc place transition d ∧ (place? edits place).isSome = true ∧
      (transition? edits transition).isSome = true) := by
  unfold HasArc
  constructor
  · rintro ⟨before, after, hsplit, hp, ht⟩
    -- The edit that asks for the arc is the new one if nothing comes after it, and an earlier one otherwise.
    rcases List.eq_nil_or_concat after with rfl | ⟨after, last, rfl⟩
    · obtain ⟨rfl, hlast⟩ := List.append_inj' hsplit rfl
      exact .inr ⟨List.singleton_inj.1 hlast, hp, ht⟩
    · rw [List.concat_eq_append, ← List.cons_append, ← List.append_assoc] at hsplit
      exact .inl ⟨before, after, (List.append_inj' hsplit rfl).1, hp, ht⟩
  · rintro (⟨before, after, rfl, hp, ht⟩ | ⟨rfl, hp, ht⟩)
    · exact ⟨before, after ++ [e], by rw [List.append_assoc, List.cons_append], hp, ht⟩
    · exact ⟨edits, [], rfl, hp, ht⟩

theorem placesAdded_concat (edits : List Edit) (e : Edit) :
    placesAdded (edits ++ [e]) = placesAdded edits ++ placesAdded [e] := List.filterMap_append

theorem transitionsAdded_concat (edits : List Edit) (e : Edit) :
    transitionsAdded (edits ++ [e]) = transitionsAdded edits ++ transitionsAdded [e] := List.filterMap_append

end Edit

namespace Graph

variable {g h : Graph} {edits : List Edit} {e : Edit}

/-- Arcs join the same names as long as these names stay. -/
theorem joins_congr (harcs : g.arcs = h.arcs) (hplace : ∀ p < h.places.length, g.placeName p = h.placeName p)
    (htransition : ∀ t < h.transitions.length, g.transitionName t = h.transitionName t)
    (place transition : String) (d : Direction) : g.Joins place transition d ↔ h.Joins place transition d := by
  unfold Joins
  rw [harcs]
  refine exists_congr fun a => and_congr_right fun ha => ?_
  obtain ⟨hp, ht⟩ := h.arcs_inBounds a ha
  rw [hplace _ hp, htransition _ ht]

namespace IsDrawnBy

theorem isSome_placeId?_iff (hg : g.IsDrawnBy edits) (name : String) :
    (g.placeId? name).isSome = true ↔ (Edit.place? edits name).isSome = true :=
  isSome_placeId?.trans (exists_named_iff hg.places)

theorem isSome_transitionId?_iff (hg : g.IsDrawnBy edits) (name : String) :
    (g.transitionId? name).isSome = true ↔ (Edit.transition? edits name).isSome = true :=
  isSome_transitionId?.trans (exists_named_iff hg.transitions)

/-- After an edit that adds no place and no transition only the arcs can be others. -/
theorem concat (hg : g.IsDrawnBy edits) (hplaces : h.places = g.places) (htransitions : h.transitions = g.transitions)
    (hnoPlace : Edit.placesAdded [e] = []) (hnoTransition : Edit.transitionsAdded [e] = [])
    (harcs : ∀ place transition d, h.Joins place transition d ↔ Edit.HasArc (edits ++ [e]) place transition d) :
    h.IsDrawnBy (edits ++ [e]) := by
  refine ⟨fun p => ?_, fun t => ?_, harcs⟩
  · rw [hplaces, Edit.place?, Edit.placesAdded_concat, hnoPlace, List.append_nil]
    exact hg.places p
  · rw [htransitions, Edit.transition?, Edit.transitionsAdded_concat, hnoTransition, List.append_nil]
    exact hg.transitions t

end IsDrawnBy

end Graph

namespace Draft

variable {d : Draft} {edits : List Edit}

theorem isDrawnBy_insertPlace (h : d.IsDrawnBy edits) (p : Place) :
    (d.insertPlace p).2.IsDrawnBy (edits ++ [.place p]) := by
  have hadded : Edit.placesAdded (edits ++ [.place p]) = Edit.placesAdded edits ++ [p] :=
    Edit.placesAdded_concat edits _
  have hothers : Edit.transitionsAdded (edits ++ [.place p]) = Edit.transitionsAdded edits := by
    rw [Edit.transitionsAdded_concat]
    exact List.append_nil _
  have harcs : (d.insertPlace p).2.arcs = d.arcs := rfl
  refine ⟨fun q => ?_, fun t => ?_, fun place transition dir => ?_⟩
  · rw [Edit.place?, hadded]
    exact mem_insertNamed_iff_lastNamed? h.places p q
  · rw [Edit.transition?, hothers]
    exact h.transitions t
  · rw [Graph.joins_congr harcs (fun q hq => placeName_insertPlace hq p) (fun _ _ => rfl), h.arcs, Edit.hasArc_concat]
    simp only [reduceCtorEq, false_and, or_false]

theorem isDrawnBy_insertTransition (h : d.IsDrawnBy edits) (t : Transition) :
    (d.insertTransition t).2.IsDrawnBy (edits ++ [.transition t]) := by
  have hadded : Edit.transitionsAdded (edits ++ [.transition t]) = Edit.transitionsAdded edits ++ [t] :=
    Edit.transitionsAdded_concat edits _
  have hothers : Edit.placesAdded (edits ++ [.transition t]) = Edit.placesAdded edits := by
    rw [Edit.placesAdded_concat]
    exact List.append_nil _
  have harcs : (d.insertTransition t).2.arcs = d.arcs := rfl
  refine ⟨fun q => ?_, fun u => ?_, fun place transition dir => ?_⟩
  · rw [Edit.place?, hothers]
    exact h.places q
  · rw [Edit.transition?, hadded]
    exact mem_insertNamed_iff_lastNamed? h.transitions t u
  · rw [Graph.joins_congr harcs (fun _ _ => rfl) (fun u hu => transitionName_insertTransition hu t), h.arcs,
      Edit.hasArc_concat]
    simp only [reduceCtorEq, false_and, or_false]

theorem isDrawnBy_insertArc (h : d.IsDrawnBy edits) {place transition : String} {dir : Direction}
    {r : Option Arc × Draft} (hr : d.insertArc place transition dir = .ok r) :
    r.2.IsDrawnBy (edits ++ [.arc place transition dir]) := by
  obtain ⟨p, t, hp, ht, hplaces, htransitions, harcs⟩ := insertArc_ok hr
  have hpname : ∀ q, r.2.placeName q = d.placeName q := fun q => Graph.placeName_congr (by rw [hplaces])
  have htname : ∀ u, r.2.transitionName u = d.transitionName u := fun u =>
    Graph.transitionName_congr (by rw [htransitions])
  have hends : (Edit.place? edits place).isSome = true ∧ (Edit.transition? edits transition).isSome = true := by
    rw [← h.isSome_placeId?_iff, ← h.isSome_transitionId?_iff, hp, ht]
    exact ⟨rfl, rfl⟩
  refine h.concat hplaces htransitions rfl rfl fun place' transition' dir' => ?_
  rw [Edit.hasArc_concat, ← h.arcs]
  unfold Graph.Joins
  simp only [harcs, hpname, htname, or_and_right, exists_or, exists_eq_left]
  refine or_congr_right ?_
  rw [Graph.placeName_of_placeId? hp, Graph.transitionName_of_transitionId? ht]
  constructor
  · rintro ⟨rfl, rfl, rfl⟩
    exact ⟨rfl, hends⟩
  · rintro ⟨heq, -⟩
    cases heq
    exact ⟨rfl, rfl, rfl⟩

/-- A refused arc is none that the edits describe. -/
theorem isDrawnBy_refusedArc (h : d.IsDrawnBy edits) {place transition : String} {dir : Direction} {defect : Defect}
    (hr : d.insertArc place transition dir = .error defect) :
    d.IsDrawnBy (edits ++ [.arc place transition dir]) := by
  refine h.concat rfl rfl rfl rfl fun place' transition' dir' => ?_
  rw [Edit.hasArc_concat, h.arcs]
  refine ⟨.inl, ?_⟩
  rintro (harc | ⟨heq, hp, ht⟩)
  · exact harc
  · cases heq
    rw [← h.isSome_placeId?_iff] at hp
    rw [← h.isSome_transitionId?_iff] at ht
    rcases insertArc_error hr with hnone | hnone
    · rw [hnone] at hp
      cases hp
    · rw [hnone] at ht
      cases ht

theorem isDrawnBy_cancellation {g : Graph} (h : g.IsDrawnBy edits) (transition element : String) :
    g.IsDrawnBy (edits ++ [.cancellation transition element]) := by
  refine h.concat rfl rfl rfl rfl fun place' transition' dir' => ?_
  rw [Edit.hasArc_concat, h.arcs]
  simp only [reduceCtorEq, false_and, or_false]

/-- **One more edit**, accepted or not. -/
theorem isDrawnBy_edit (h : d.IsDrawnBy edits) (e : Edit) : (d.edit e).IsDrawnBy (edits ++ [e]) := by
  unfold edit
  cases e with
  | place p => exact isDrawnBy_insertPlace h p
  | transition t => exact isDrawnBy_insertTransition h t
  | arc place transition dir =>
    have hedit : d.tryEdit (.arc place transition dir) = (d.insertArc place transition dir).map Prod.snd := rfl
    rw [hedit]
    cases hr : d.insertArc place transition dir with
    | ok r => exact isDrawnBy_insertArc h hr
    | error defect => exact isDrawnBy_refusedArc h hr
  | cancellation transition element =>
    have hedit : d.tryEdit (.cancellation transition element) = d.insertCancellation transition element := rfl
    rw [hedit]
    cases hr : d.insertCancellation transition element with
    | ok d' =>
      dsimp only
      rw [toGraph_insertCancellation hr]
      exact isDrawnBy_cancellation h transition element
    | error defect => exact isDrawnBy_cancellation h transition element

/-- **A draft is the graph that its edits describe.** -/
theorem isDrawnBy_drawn (edits : List Edit) : (drawn edits).IsDrawnBy edits := by
  induction edits using List.reverseRecOn with
  | nil =>
    refine ⟨fun p => ?_, fun t => ?_, fun place transition d => ?_⟩
    · exact ⟨nofun, nofun⟩
    · exact ⟨nofun, nofun⟩
    · refine ⟨nofun, ?_⟩
      rintro ⟨before, after, hsplit, -⟩
      cases before <;> cases hsplit
  | append_singleton edits e ih =>
    unfold drawn at ih ⊢
    rw [List.foldl_append]
    exact isDrawnBy_edit ih e

end Draft

end Workflow
