import Workflow.Subsets
/-!
# Combinations — subsets of the first numbers, one at a time

A subset of the numbers below a bound is a list of its members in ascending order.  The subsets of one size are gone
through by keeping the one that comes next.  The one after it has the rightmost member that has room raised by one, and
the members behind it right after it.  Then the sizes are gone through, from one up to the bound.

What is asked for the next subset has one of three answers: a subset with what to ask from then on, none any more, or
nothing at all where a subtraction would go below zero or a position lies beyond a list.
-/
namespace Workflow

/-- All that is given, up to the end, when no more than `m` questions may be asked. -/
def drained? {α σ : Type} (next? : σ → Option (Option (α × σ))) : Nat → σ → Option (List α)
  | 0, _ => none
  | m + 1, s =>
    match next? s with
    | none => none
    | some none => some []
    | some (some (a, s')) => (drained? next? m s').map (a :: ·)

/-- Going through the subsets of one size of the numbers below `bound`. -/
structure Combinations where
  bound : Nat
  /-- The subset that comes next, unless none is left. -/
  upcoming : Option (List Nat)

namespace Combinations

def ofSize (bound k : Nat) : Combinations where
  bound := bound
  upcoming := if k ≤ bound then some (List.range k) else none

/-- What the member at `pos` of a subset of size `k` stays below, so that there is room for those behind it. -/
def ceiling? (bound k pos : Nat) : Option Nat := if k ≤ bound then some (bound - k + pos) else none

/-- Puts the member at a position right after the one before it. -/
def follow? (members : List Nat) : Nat → Option (List Nat)
  | 0 => none
  | pos + 1 =>
    match members[pos]?, members[pos + 1]? with
    | some i, some _ => some (members.set (pos + 1) (i + 1))
    | _, _ => none

/-- Raises the member at `pos`, and puts those behind it right after it. -/
def raise? (members : List Nat) (pos : Nat) : Option (List Nat) :=
  match members[pos]? with
  | some i => (List.range' (pos + 1) (members.length - (pos + 1))).foldlM follow? (members.set pos (i + 1))
  | none => none

/-- Raises the rightmost member before `pos` that has room, if one has. -/
def advance? (bound : Nat) (members : List Nat) : Nat → Option (Option (List Nat))
  | 0 => some none
  | pos + 1 =>
    match ceiling? bound members.length pos, members[pos]? with
    | some ceiling, some i => if i < ceiling then (raise? members pos).map some else advance? bound members pos
    | _, _ => none

def next? (s : Combinations) : Option (Option (List Nat × Combinations)) :=
  match s.upcoming with
  | none => some none
  | some c => (advance? s.bound c c.length).map fun c' => some (c, { s with upcoming := c' })

end Combinations

/-- Going through the subsets of several sizes. -/
structure Subsets where
  current : Combinations
  /-- The sizes that come after the current one. -/
  sizes : List Nat

namespace Subsets

/-- The subsets of the numbers below `bound` that are not empty. -/
def below (bound : Nat) : Subsets where
  current := { bound, upcoming := none }
  sizes := List.range' 1 bound

/-- Where the current size has no subset left, the next one that has any becomes the current one. -/
def nextOf? : Combinations → List Nat → Option (Option (List Nat × Subsets))
  | current, [] => current.next?.map (Option.map fun (c, current') => (c, { current := current', sizes := [] }))
  | current, k :: sizes =>
    match current.next? with
    | none => none
    | some (some (c, current')) => some (some (c, { current := current', sizes := k :: sizes }))
    | some none => nextOf? (Combinations.ofSize current.bound k) sizes

def next? (s : Subsets) : Option (Option (List Nat × Subsets)) := nextOf? s.current s.sizes

end Subsets

end Workflow
