import Workflow.Net.Draft
import Workflow.Net.Shape
/-!
# Build — from a draft to a workflow net

A `Net` is a graph that has passed every check of its shape, together with what each transition cancels,
now by number.  `Draft.build` is the way to get one, and a draft stays usable after it.
-/
namespace Workflow

/-- A place that firing `transition` empties, or a transition that it stops. -/
structure Cancellation where
  transition : TransitionId
  target : Element
deriving DecidableEq, Repr

structure Net extends Graph where
  source : PlaceId
  sink : PlaceId
  cancellations : List Cancellation := []
  terminals_eq : toGraph.terminals = .ok (source, sink) := by rfl
  defect?_eq : toGraph.defect? source sink = none := by rfl
  cancellations_inBounds : ∀ c ∈ cancellations,
    c.transition < transitions.length ∧ toGraph.HasElement c.target := by decide
deriving DecidableEq, Repr

namespace Net

/-- The places that firing `t` empties. -/
def cancelledPlaces (net : Net) (t : TransitionId) : List PlaceId :=
  net.cancellations.filterMap (fun c =>
    match c.target with
    | .place p => if c.transition == t then some p else none
    | .transition _ => none)

/-- The transitions that firing `t` stops. -/
def cancelledTransitions (net : Net) (t : TransitionId) : List TransitionId :=
  net.cancellations.filterMap (fun c =>
    match c.target with
    | .place _ => none
    | .transition u => if c.transition == t then some u else none)

def cancelsNothing (net : Net) (t : TransitionId) : Bool :=
  (net.cancelledPlaces t).isEmpty && (net.cancelledTransitions t).isEmpty

theorem transitionDefect?_eq {net : Net} {t : TransitionId} (ht : t < net.transitions.length) :
    net.transitionDefect? t = none := by
  have h := net.defect?_eq
  unfold Graph.defect? at h
  obtain ⟨h, -⟩ := Option.or_eq_none_iff.1 h
  exact List.findSome?_eq_none_iff.1 h t (List.mem_range.2 ht)

theorem preset_ne_nil {net : Net} {t : TransitionId} (ht : t < net.transitions.length) : net.preset t ≠ [] := by
  intro hnil
  have h := transitionDefect?_eq ht
  unfold Graph.transitionDefect? at h
  rw [hnil] at h
  cases h

theorem postset_ne_nil {net : Net} {t : TransitionId} (ht : t < net.transitions.length) : net.postset t ≠ [] := by
  intro hnil
  have h := transitionDefect?_eq ht
  unfold Graph.transitionDefect? at h
  simp [hnil, preset_ne_nil ht] at h

end Net

namespace Draft

/-- The element of this name, a place before a transition. -/
def element? (d : Draft) (name : String) : Option Element :=
  match d.placeId? name with
  | some p => some (.place p)
  | none => (d.transitionId? name).map .transition

theorem hasElement_of_element? {d : Draft} {name : String} {e : Element} (h : d.element? name = some e) :
    d.HasElement e := by
  unfold element? at h
  split at h
  · rename_i p hp
    cases h
    exact Graph.placeId?_lt hp
  · obtain ⟨t, ht, rfl⟩ := Option.map_eq_some_iff.1 h
    exact Graph.transitionId?_lt ht

/-- What the draft's transitions cancel, by number. -/
def resolvedCancellations (d : Draft) : List Cancellation :=
  d.cancellations.filterMap (fun c => (d.element? c.element).map (⟨c.transition, ·⟩))

theorem resolvedCancellations_inBounds (d : Draft) : ∀ c ∈ d.resolvedCancellations,
    c.transition < d.transitions.length ∧ d.HasElement c.target := by
  intro c hc
  obtain ⟨n, hn, hmap⟩ := List.mem_filterMap.1 hc
  obtain ⟨e, he, rfl⟩ := Option.map_eq_some_iff.1 hmap
  exact ⟨d.cancellations_inBounds n hn, hasElement_of_element? he⟩

/-- The workflow net that the draft describes, or the first defect. -/
def build (d : Draft) : Except Defect Net :=
  match ht : d.terminals with
  | .error defect => .error defect
  | .ok (source, sink) =>
    match hd : d.defect? source sink with
    | some defect => .error defect
    | none => .ok
      { d.toGraph with
        source, sink
        cancellations := d.resolvedCancellations
        terminals_eq := ht
        defect?_eq := hd
        cancellations_inBounds := d.resolvedCancellations_inBounds }

end Draft

end Workflow
