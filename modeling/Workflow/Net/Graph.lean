/-!
# Graph — places, transitions and the arcs between them

A net is drawn as a bipartite graph.  Places and transitions are numbered in the order in which they
were added, and an arc leads from a place into a transition or from a transition into a place.  The
arcs are the only record of who is next to whom: preset, postset, consumers and producers are views
of the one list of arcs, so the two ends of an arc cannot disagree.
-/
namespace Workflow

/-- The number of a place: how many places were added before it. -/
abbrev PlaceId := Nat

/-- The number of a transition: how many transitions were added before it. -/
abbrev TransitionId := Nat

def placeTag (p : PlaceId) : String := "p" ++ toString p

def transitionTag (t : TransitionId) : String := "t" ++ toString t

inductive PlaceKind where
  | source
  | sink
  | internal
deriving DecidableEq, Repr

/-- How a transition treats its input places (as a join) or its output places (as a split). -/
inductive Connector where
  | and
  | xor
  | or
deriving DecidableEq, Repr

def Connector.name : Connector → String
  | .and => "AND"
  | .xor => "XOR"
  | .or => "OR"

/-- A node of the graph. -/
inductive Element where
  | place (p : PlaceId)
  | transition (t : TransitionId)
deriving DecidableEq, Repr

structure Place where
  name : String
  kind : PlaceKind
deriving DecidableEq, Repr

structure Transition where
  name : String
  join : Connector
  split : Connector
deriving DecidableEq, Repr

/-- The direction of an arc, seen from its transition. -/
inductive Direction where
  | input
  | output
deriving DecidableEq, Repr

@[ext] structure Arc where
  place : PlaceId
  transition : TransitionId
  direction : Direction
deriving DecidableEq, Repr

/-- A bipartite graph.  Names are unique within each of the two kinds, no arc is drawn twice, and
every arc joins a place and a transition of the graph. -/
structure Graph where
  places : List Place := []
  transitions : List Transition := []
  arcs : List Arc := []
  place_names_nodup : (places.map Place.name).Nodup := by decide
  transition_names_nodup : (transitions.map Transition.name).Nodup := by decide
  arcs_nodup : arcs.Nodup := by decide
  arcs_inBounds : ∀ a ∈ arcs, a.place < places.length ∧ a.transition < transitions.length := by decide
deriving DecidableEq, Repr

namespace Graph

/-! ## Names and numbers -/

def placeId? (g : Graph) (name : String) : Option PlaceId :=
  g.places.findIdx? (fun p => p.name == name)

def transitionId? (g : Graph) (name : String) : Option TransitionId :=
  g.transitions.findIdx? (fun t => t.name == name)

/-- The name of a place, empty for a number the graph does not have. -/
def placeName (g : Graph) (p : PlaceId) : String :=
  (g.places[p]?).elim "" Place.name

/-- The name of a transition, empty for a number the graph does not have. -/
def transitionName (g : Graph) (t : TransitionId) : String :=
  (g.transitions[t]?).elim "" Transition.name

def placeIds (g : Graph) : List PlaceId := List.range g.places.length

def transitionIds (g : Graph) : List TransitionId := List.range g.transitions.length

def HasElement (g : Graph) : Element → Prop
  | .place p => p < g.places.length
  | .transition t => t < g.transitions.length

instance (g : Graph) (e : Element) : Decidable (g.HasElement e) := by
  cases e <;> unfold HasElement <;> infer_instance

def elementName (g : Graph) : Element → String
  | .place p => g.placeName p
  | .transition t => g.transitionName t

def placesOfKind (g : Graph) (k : PlaceKind) : List PlaceId :=
  g.placeIds.filter (fun p => g.places[p]?.any (fun q => q.kind == k))

/-! ## Neighbourhoods, each in the order in which its arcs were added -/

/-- The places at the other ends of a transition's arcs of one direction. -/
def placesBeside (g : Graph) (t : TransitionId) (d : Direction) : List PlaceId :=
  (g.arcs.filter (fun a => a.transition == t && a.direction == d)).map Arc.place

/-- The transitions at the other ends of a place's arcs of one direction. -/
def transitionsBeside (g : Graph) (p : PlaceId) (d : Direction) : List TransitionId :=
  (g.arcs.filter (fun a => a.place == p && a.direction == d)).map Arc.transition

/-- The places a transition takes tokens from. -/
def preset (g : Graph) (t : TransitionId) : List PlaceId := g.placesBeside t .input

/-- The places a transition may put tokens on. -/
def postset (g : Graph) (t : TransitionId) : List PlaceId := g.placesBeside t .output

/-- The transitions that take tokens from a place. -/
def consumers (g : Graph) (p : PlaceId) : List TransitionId := g.transitionsBeside p .input

/-- The transitions that may put tokens on a place. -/
def producers (g : Graph) (p : PlaceId) : List TransitionId := g.transitionsBeside p .output

variable {g : Graph} {p : PlaceId} {t : TransitionId} {d : Direction}

theorem mem_placesBeside : p ∈ g.placesBeside t d ↔ ⟨p, t, d⟩ ∈ g.arcs := by
  simp only [placesBeside, List.mem_map, List.mem_filter, Bool.and_eq_true, beq_iff_eq]
  constructor
  · rintro ⟨⟨_, _, _⟩, ⟨h, rfl, rfl⟩, rfl⟩
    exact h
  · exact fun h => ⟨_, ⟨h, rfl, rfl⟩, rfl⟩

/-- The two ends of an arc see each other. -/
theorem mem_transitionsBeside : t ∈ g.transitionsBeside p d ↔ p ∈ g.placesBeside t d := by
  rw [mem_placesBeside]
  simp only [transitionsBeside, List.mem_map, List.mem_filter, Bool.and_eq_true, beq_iff_eq]
  constructor
  · rintro ⟨⟨_, _, _⟩, ⟨h, rfl, rfl⟩, rfl⟩
    exact h
  · exact fun h => ⟨_, ⟨h, rfl, rfl⟩, rfl⟩

theorem mem_preset : p ∈ g.preset t ↔ ⟨p, t, .input⟩ ∈ g.arcs := mem_placesBeside

theorem mem_postset : p ∈ g.postset t ↔ ⟨p, t, .output⟩ ∈ g.arcs := mem_placesBeside

theorem mem_consumers : t ∈ g.consumers p ↔ p ∈ g.preset t := mem_transitionsBeside

theorem mem_producers : t ∈ g.producers p ↔ p ∈ g.postset t := mem_transitionsBeside

theorem lt_of_mem_placesBeside (h : p ∈ g.placesBeside t d) : p < g.places.length ∧ t < g.transitions.length :=
  g.arcs_inBounds _ (mem_placesBeside.1 h)

theorem lt_of_mem_preset (h : p ∈ g.preset t) : p < g.places.length ∧ t < g.transitions.length :=
  lt_of_mem_placesBeside h

theorem lt_of_mem_postset (h : p ∈ g.postset t) : p < g.places.length ∧ t < g.transitions.length :=
  lt_of_mem_placesBeside h

/-- Arcs with the same transition and direction are told apart by their places. -/
theorem nodup_placesBeside (g : Graph) (t : TransitionId) (d : Direction) : (g.placesBeside t d).Nodup := by
  rw [placesBeside, List.Nodup, List.pairwise_map]
  refine (g.arcs_nodup.filter _).imp_of_mem fun {a b} ha hb hne hplace => hne ?_
  have ha : a.transition = t ∧ a.direction = d := by simpa using (List.mem_filter.1 ha).2
  have hb : b.transition = t ∧ b.direction = d := by simpa using (List.mem_filter.1 hb).2
  exact Arc.ext hplace (ha.1.trans hb.1.symm) (ha.2.trans hb.2.symm)

theorem nodup_transitionsBeside (g : Graph) (p : PlaceId) (d : Direction) : (g.transitionsBeside p d).Nodup := by
  rw [transitionsBeside, List.Nodup, List.pairwise_map]
  refine (g.arcs_nodup.filter _).imp_of_mem fun {a b} ha hb hne htransition => hne ?_
  have ha : a.place = p ∧ a.direction = d := by simpa using (List.mem_filter.1 ha).2
  have hb : b.place = p ∧ b.direction = d := by simpa using (List.mem_filter.1 hb).2
  exact Arc.ext (ha.1.trans hb.1.symm) htransition (ha.2.trans hb.2.symm)

theorem placeId?_lt {name : String} (h : g.placeId? name = some p) : p < g.places.length :=
  (List.findIdx?_eq_some_iff_getElem.1 h).1

theorem transitionId?_lt {name : String} (h : g.transitionId? name = some t) :
    t < g.transitions.length :=
  (List.findIdx?_eq_some_iff_getElem.1 h).1

end Graph

end Workflow
