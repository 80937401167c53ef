import Workflow.ResetNet.Numbered
/-!
# Words — what a search works out

A search works on lists of token counts.  In the first place these lists themselves are told, round by round: its goal,
what undoing a firing makes of the fresh markings, and the basis with its fresh members, also as they stand before a
round has taken up all it has found.

In the second place the search is made in words of 32 bits.  The only addition is the token more on an input place.
Each one is checked here, and a search in which one does not fit its word has no answer.
-/
namespace Workflow

/-! ## Round by round -/

namespace Search

/-- After `k` rounds the search goes on with this basis, of which these members are fresh. -/
inductive After (s : Search) (goal : List Nat) : Nat → List (List Nat) → List (List Nat) → Prop
  | start : below goal s.source = false → After s goal 0 [goal] [goal]
  | round {k : Nat} {basis fresh basis' fresh' : List (List Nat)} : After s goal k basis fresh → fresh ≠ [] →
      k < s.limits.rounds → s.takeUp (minimals (s.candidates fresh)) basis [] = .grown basis' fresh' →
      After s goal (k + 1) basis' fresh'

/-- These counts come up in round `k`, or before the first round if `k` is zero. -/
inductive WorksOut (s : Search) (goal : List Nat) : Nat → List Nat → Prop
  | goal : WorksOut s goal 0 goal
  | predecessor {k : Nat} {basis fresh : List (List Nat)} {a b : List Nat} {row : List Effect} :
      After s goal k basis fresh → k < s.limits.rounds → a ∈ fresh → row ∈ s.effects → predecessor? row a = some b →
      WorksOut s goal (k + 1) b
  | candidate {k : Nat} {basis fresh : List (List Nat)} {b : List Nat} :
      After s goal k basis fresh → k < s.limits.rounds → b ∈ s.candidates fresh → WorksOut s goal (k + 1) b
  /-- Once some of what a round has found has been taken up. -/
  | kept {k : Nat} {basis fresh found basis' fresh' : List (List Nat)} {b : List Nat} :
      After s goal k basis fresh → k < s.limits.rounds → found <+: minimals (s.candidates fresh) →
      s.takeUp found basis [] = .grown basis' fresh' → b ∈ basis' ∨ b ∈ fresh' → WorksOut s goal (k + 1) b

end Search

/-! ## In words -/

/-- One token more on a place of the list, if its count stays below 2³². -/
def putInWord? (a : List Nat) (p : Nat) : Option (List Nat) :=
  match a[p]? with
  | some n => if n + 1 < UInt32.size then some (putToken a p) else none
  | none => none

/-- The same as `undo?`, if every addition fits its word. -/
def ResetTransition.undoInWords? (tr : ResetTransition) (a : List Nat) : Option (Option (List Nat)) :=
  if tr.resets.any (fun p => 0 < Counts.ofList a p) then some none
  else (tr.preset.foldlM putInWord? (tr.postset.foldl takeToken a)).map some

namespace ResetNet

/-- What leads above one of the fresh markings, unless it lies above that marking itself. -/
def leadsInWords? (r : ResetNet) (a : List Nat) : Option (List (List Nat)) :=
  (r.transitions.mapM fun tr => (r.numbered tr).undoInWords? a).map fun found =>
    (found.filterMap id).filter (fun b => !below a b)

def exploreInWords? (r : ResetNet) (s : Search) : Nat → List (List Nat) → List (List Nat) →
    Option (Except Failure Bool)
  | _, _, [] => some (.ok false)
  | 0, _, _ :: _ => some (.error (.excess (.rounds s.limits.rounds)))
  | n + 1, basis, a :: l =>
    match (a :: l).mapM r.leadsInWords? with
    | none => none
    | some found =>
      match s.takeUp (minimals found.flatten) basis [] with
      | .covered => some (.ok true)
      | .tooLarge => some (.error (.excess (.basis s.limits.basis)))
      | .grown basis fresh => r.exploreInWords? s n basis fresh

def canCoverInWords? (r : ResetNet) (limits : AnalysisLimits) (source : Counts) (targets : List Nat) :
    Option (Except Failure Bool) :=
  if targets.all r.alive.contains then
    if below (r.goalOf targets) (r.alive.map source) then some (.ok true)
    else r.exploreInWords? (r.search limits source) limits.rounds [r.goalOf targets] [r.goalOf targets]
  else some (.ok false)

end ResetNet

end Workflow
