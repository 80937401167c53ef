import Workflow.Json
import Workflow.Marking.Basic
import Workflow.Marking.TokenMap
/-!
# Persisted — markings by name, and as text

A marking is persisted by the names of its places, without the empty ones, and written as one line of
JSON: an object whose field `tokens` maps names to counts.  Reading such a text is strict about the
counts and generous about the rest: other fields are skipped, and a name may be repeated, in which case
the last count stands.
-/
namespace Workflow

namespace Marking

/-- The counts of the marked places by name. -/
def toTokenMap (m : Marking) (net : Net) : TokenMap :=
  TokenMap.ofList (m.marked.map (fun p => (net.placeName p, UInt32.ofNat (m.count p))))

/-- Sets the counts of the named places, or fails at the first name that is no place of `net`. -/
def setNamed (net : Net) : List (String × UInt32) → Marking → Except Failure Marking
  | [], m => .ok m
  | (name, n) :: es, m =>
    match net.placeId? name with
    | none => .error (.badValue (.unknownPersistedPlace name))
    | some p => setNamed net es ⟨m.counts.set p n⟩

def ofTokenMap (net : Net) (d : TokenMap) : Except Failure Marking :=
  setNamed net d.entries (empty net)

end Marking

namespace TokenMap

/-! ## Writing -/

def renderEntry (e : String × UInt32) : String := Json.quoted e.1 ++ ":" ++ toString e.2.toNat

/-- One line of JSON. -/
def render (d : TokenMap) : String :=
  "\x7b\"tokens\":\x7b" ++ ",".intercalate (d.entries.map renderEntry) ++ "\x7d\x7d"

/-! ## Reading -/

/-- A token count: a number written with digits alone that fits a word. -/
def count? (value : Json) : Option UInt32 :=
  match value.natural? with
  | some n => if n < UInt32.size then some (UInt32.ofNat n) else none
  | none => none

def entry? (field : List Nat × Json) : Option (String × UInt32) :=
  match Json.text? field.1, count? field.2 with
  | some name, some n => some (name, n)
  | _, _ => none

/-- The value of the field `tokens`. -/
def counts? : Json → Option TokenMap
  | .object fields => (fields.mapM entry?).map ofList
  | _ => none

/-- The record: an object with exactly one field `tokens`, or an array of that field's value alone. -/
def ofJson? : Json → Option TokenMap
  | .object fields =>
    match fields.mapM (fun field => (Json.text? field.1).map (fun name => (name, field.2))) with
    | none => none
    | some named =>
      match named.filter (fun field => field.1 == "tokens") with
      | [field] => counts? field.2
      | _ => none
  | .array [value] => counts? value
  | _ => none

def parse? (text : String) : Option TokenMap := (Json.read? text).bind ofJson?

end TokenMap

end Workflow
