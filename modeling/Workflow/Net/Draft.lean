import Workflow.Net.Defect
import Workflow.Net.Graph
/-!
# Draft — a net while it is being drawn

Pieces are added by name, in any number and at any time, and nothing is ever taken away: adding a
place or a transition under a name in use replaces the piece and keeps its number, and adding an arc
a second time changes nothing.  What a transition cancels is kept by name until the draft is built,
since a place added later under that name takes precedence over a transition.
-/
namespace Workflow

/-! ## Pieces by name -/

section Named

variable {α : Type} {name : α → String} {l : List α}

/-- Puts `x` in the place of its namesake, or at the end if it has none. -/
def insertNamed (name : α → String) (l : List α) (x : α) : List α :=
  if l.any (fun y => name y == name x) then l.map (fun y => if name y = name x then x else y) else l ++ [x]

/-- Only a name that is new changes the list of names. -/
theorem map_name_insertNamed (name : α → String) (l : List α) (x : α) :
    (insertNamed name l x).map name = if name x ∈ l.map name then l.map name else l.map name ++ [name x] := by
  have hany : l.any (fun y => name y == name x) = true ↔ name x ∈ l.map name := by
    simp only [List.any_eq_true, beq_iff_eq, List.mem_map]
  unfold insertNamed
  by_cases h : name x ∈ l.map name
  · rw [if_pos (hany.2 h), if_pos h, List.map_map]
    refine List.map_congr_left fun y _ => ?_
    rw [Function.comp_apply]
    split
    · rename_i hname
      exact hname.symm
    · rfl
  · rw [if_neg (fun hthere => h (hany.1 hthere)), if_neg h, List.map_append, List.map_singleton]

theorem nodup_map_insertNamed (h : (l.map name).Nodup) (x : α) : ((insertNamed name l x).map name).Nodup := by
  rw [map_name_insertNamed]
  split
  · exact h
  · rename_i hnew
    refine List.nodup_append.2 ⟨h, by simp, fun n hn m hm heq => hnew ?_⟩
    rwa [← List.mem_singleton.1 hm, ← heq]

theorem length_le_insertNamed (name : α → String) (l : List α) (x : α) : l.length ≤ (insertNamed name l x).length := by
  unfold insertNamed
  split
  · exact Nat.le_of_eq (List.length_map _).symm
  · rw [List.length_append]
    exact Nat.le_add_right _ _

end Named

/-- A wish that firing a transition empties the element of this name. -/
structure NamedCancellation where
  transition : TransitionId
  element : String
deriving DecidableEq, Repr

/-- A graph under construction, and what its transitions are to cancel. -/
structure Draft extends Graph where
  cancellations : List NamedCancellation := []
  cancellations_nodup : cancellations.Nodup := by decide
  cancellations_inBounds : ∀ c ∈ cancellations, c.transition < transitions.length := by decide
deriving DecidableEq, Repr

namespace Draft

/-! ## Places and transitions -/

/-- Adds a place, and tells which place it replaced. -/
def insertPlace (d : Draft) (p : Place) : Option Place × Draft :=
  (d.places.find? (fun q => q.name == p.name),
    { d with
      places := insertNamed Place.name d.places p
      place_names_nodup := nodup_map_insertNamed d.place_names_nodup p
      arcs_inBounds := fun a ha =>
        have h := d.arcs_inBounds a ha
        ⟨Nat.lt_of_lt_of_le h.1 (length_le_insertNamed _ _ p), h.2⟩ })

/-- Adds a transition, and tells which transition it replaced. -/
def insertTransition (d : Draft) (t : Transition) : Option Transition × Draft :=
  (d.transitions.find? (fun u => u.name == t.name),
    { d with
      transitions := insertNamed Transition.name d.transitions t
      transition_names_nodup := nodup_map_insertNamed d.transition_names_nodup t
      arcs_inBounds := fun a ha =>
        have h := d.arcs_inBounds a ha
        ⟨h.1, Nat.lt_of_lt_of_le h.2 (length_le_insertNamed _ _ t)⟩
      cancellations_inBounds := fun c hc =>
        Nat.lt_of_lt_of_le (d.cancellations_inBounds c hc) (length_le_insertNamed _ _ t) })

/-! ## Arcs and cancellations -/

/-- Draws an arc between two pieces of the draft, and tells which arc it replaced: an arc is known by
its two ends and its direction, so that can only be the same arc. -/
def insertArc (d : Draft) (place transition : String) (dir : Direction) :
    Except Defect (Option Arc × Draft) :=
  match hp : d.placeId? place, ht : d.transitionId? transition with
  | none, _ => .error (.arcToMissingPlace place transition)
  | some _, none => .error (.arcToMissingTransition place transition)
  | some p, some t =>
    if h : ⟨p, t, dir⟩ ∈ d.arcs then .ok (some ⟨p, t, dir⟩, d)
    else .ok (none,
      { d with
        arcs := d.arcs ++ [⟨p, t, dir⟩]
        arcs_nodup := by
          rw [List.nodup_append]
          refine ⟨d.arcs_nodup, by simp, fun a ha b hb => ?_⟩
          have hb' : b = ⟨p, t, dir⟩ := by simpa using hb
          rw [hb']
          exact fun e => h (e ▸ ha)
        arcs_inBounds := fun a ha => by
          rcases List.mem_append.1 ha with ha | ha
          · exact d.arcs_inBounds a ha
          · have ha' : a = ⟨p, t, dir⟩ := by simpa using ha
            rw [ha']
            exact ⟨Graph.placeId?_lt hp, Graph.transitionId?_lt ht⟩ })

def flowIn (d : Draft) (place transition : String) : Except Defect Draft :=
  (d.insertArc place transition .input).map Prod.snd

def flowOut (d : Draft) (transition place : String) : Except Defect Draft :=
  (d.insertArc place transition .output).map Prod.snd

/-- Asks that firing `transition` empties the place, or stops the transition, called `element`. -/
def insertCancellation (d : Draft) (transition element : String) : Except Defect Draft :=
  match ht : d.transitionId? transition with
  | none => .error (.cancellationByMissing transition)
  | some t =>
    if (d.placeId? element).isNone && (d.transitionId? element).isNone then
      .error (.cancellationOfMissing element transition)
    else if h : ⟨t, element⟩ ∈ d.cancellations then .ok d
    else .ok
      { d with
        cancellations := d.cancellations ++ [⟨t, element⟩]
        cancellations_nodup := by
          rw [List.nodup_append]
          refine ⟨d.cancellations_nodup, by simp, fun a ha b hb => ?_⟩
          have hb' : b = ⟨t, element⟩ := by simpa using hb
          rw [hb']
          exact fun e => h (e ▸ ha)
        cancellations_inBounds := fun c hc => by
          rcases List.mem_append.1 hc with hc | hc
          · exact d.cancellations_inBounds c hc
          · have hc' : c = ⟨t, element⟩ := by simpa using hc
            rw [hc']
            exact Graph.transitionId?_lt ht }

def isEmpty (d : Draft) : Bool :=
  d.places.isEmpty && d.transitions.isEmpty && d.arcs.isEmpty

end Draft

end Workflow
