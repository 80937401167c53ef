import Workflow.Closure
import Workflow.Failure
import Workflow.Net.Build
/-!
# Selection — the output places chosen for one firing

A selection holds each place once, in the order in which it was chosen.  An AND-split asks for all output
places, an XOR-split for one, and an OR-split for at least one.
-/
namespace Workflow

structure Selection where
  places : List PlaceId := []
  places_nodup : places.Nodup := by decide
deriving DecidableEq, Repr

namespace Selection

instance : Inhabited Selection := ⟨{}⟩

/-- These places; a place named again counts once. -/
def ofList (l : List PlaceId) : Selection where
  places := l.eraseDups
  places_nodup := nodup_eraseDups l

def single (p : PlaceId) : Selection where
  places := [p]
  places_nodup := by simp

def all (net : Net) (t : TransitionId) : Selection := ofList (net.postset t)

/-- The numbers of named places, or a failure at the first name that is no place. -/
def placesNamed (net : Net) : List String → Except Failure (List PlaceId)
  | [] => .ok []
  | name :: names =>
    match net.placeId? name with
    | none => .error (.badValue (.unknownPlace name))
    | some p => (placesNamed net names).map (p :: ·)

def ofNames (net : Net) (names : List String) : Except Failure Selection :=
  (placesNamed net names).map ofList

/-- Succeeds if the selection suits the outputs of `t` and its split. -/
def check (s : Selection) (net : Net) (t : TransitionId) : Except Failure Unit :=
  match net.transitions[t]? with
  | none => .error (.badValue (.noSuchTransition t))
  | some tr =>
    if s.places.isEmpty then .error (.conflict (.nothingSelected tr.name))
    else
      match s.places.find? (fun p => !(net.postset t).contains p) with
      | some p => .error (.conflict (.outsidePostset p tr.name))
      | none =>
        match tr.split with
        | .and =>
          if s.places.length = (net.postset t).length then .ok ()
          else .error (.conflict (.andSplitPartial tr.name (net.postset t).length s.places.length))
        | .xor =>
          if s.places.length = 1 then .ok ()
          else .error (.conflict (.xorSplitNotSingle tr.name s.places.length))
        | .or => .ok ()

/-- The selection suits the outputs of `t` and its split. -/
structure Suits (s : Selection) (net : Net) (t : TransitionId) : Prop where
  nonempty : s.places ≠ []
  outputs : ∀ p ∈ s.places, p ∈ net.postset t
  whole : (net.transitions[t]?).map Transition.split = some .and → ∀ p ∈ net.postset t, p ∈ s.places
  single : (net.transitions[t]?).map Transition.split = some .xor → ∃ p, s.places = [p]

theorem ne_nil_of_check {s : Selection} {net : Net} {t : TransitionId} (h : s.check net t = .ok ()) :
    s.places ≠ [] := by
  intro hnil
  unfold check at h
  rw [hnil] at h
  split at h <;> cases h

end Selection

end Workflow
