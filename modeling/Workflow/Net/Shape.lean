import Workflow.Closure
import Workflow.Net.Defect
import Workflow.Net.Graph
/-!
# Shape — what makes a graph a workflow net

One source place that nothing leads into, one sink place that nothing leads out of, and every place and
transition on a way from the one to the other.  The checks run in a fixed order and the first one that
fails names the defect: the two terminal places, then each transition, then each place, then what the
source cannot reach, then what cannot reach the sink.
-/
namespace Workflow.Graph

/-- The only source place and the only sink place. -/
def terminals (g : Graph) : Except Defect (PlaceId × PlaceId) :=
  match g.placesOfKind .source, g.placesOfKind .sink with
  | [source], [sink] => .ok (source, sink)
  | [], _ => .error .noSource
  | _, [] => .error .noSink
  | [_], sinks => .error (.manySinks (sinks.map g.placeName))
  | sources, _ => .error (.manySources (sources.map g.placeName))

/-! ## Single nodes -/

def transitionDefect? (g : Graph) (t : TransitionId) : Option Defect :=
  if (g.preset t).isEmpty then some (.noInput (g.transitionName t))
  else if (g.postset t).isEmpty then some (.noOutput (g.transitionName t))
  else none

def placeDefect? (g : Graph) (p : PlaceId) : Option Defect :=
  match (g.places[p]?).map Place.kind with
  | none => none
  | some .source => if (g.producers p).isEmpty then none else some (.sourceEntered (g.placeName p))
  | some .sink => if (g.consumers p).isEmpty then none else some (.sinkLeft (g.placeName p))
  | some .internal =>
    if (g.producers p).isEmpty then some (.placeNeverEntered (g.placeName p))
    else if (g.consumers p).isEmpty then some (.placeNeverLeft (g.placeName p))
    else none

/-! ## Ways through the graph

A transition is on a way ahead of a place as soon as one of its inputs is, and on a way back from a
place as soon as one of its outputs is. -/

/-- The places on ways that start at `p`. -/
def placesAhead (g : Graph) (p : PlaceId) : List PlaceId :=
  closure g.places.length
    (fun s => g.transitionIds.flatMap (fun t => if (g.preset t).any s.contains then g.postset t else []))
    [p]

/-- The places on ways that end at `p`. -/
def placesBehind (g : Graph) (p : PlaceId) : List PlaceId :=
  closure g.places.length
    (fun s => g.transitionIds.flatMap (fun t => if (g.postset t).any s.contains then g.preset t else []))
    [p]

/-- The places outside `seen` and the transitions that do not touch it, by name. -/
def missedNames (g : Graph) (seen : List PlaceId) (touches : TransitionId → List PlaceId) : List String :=
  (g.placeIds.filter (fun p => !seen.contains p)).map g.placeName ++
    (g.transitionIds.filter (fun t => !(touches t).any seen.contains)).map g.transitionName

/-- The nodes that the source cannot reach, or else those that cannot reach the sink, in the order of
their names. -/
def connectionDefect? (g : Graph) (source sink : PlaceId) : Option Defect :=
  match g.missedNames (g.placesAhead source) g.preset with
  | [] =>
    match g.missedNames (g.placesBehind sink) g.postset with
    | [] => none
    | names => some (.deadEnd names.mergeSort)
  | names => some (.unreachable names.mergeSort)

/-- The first defect of a graph with these terminal places. -/
def defect? (g : Graph) (source sink : PlaceId) : Option Defect :=
  (g.transitionIds.findSome? g.transitionDefect?).or
    ((g.placeIds.findSome? g.placeDefect?).or (g.connectionDefect? source sink))

end Workflow.Graph
