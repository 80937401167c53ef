import Workflow.Proofs.Remnant
/-!
# Numbered — transitions on lists of counts

A search gives new numbers to the places that are left and keeps their token counts in a list.  Under these numbers a
transition works on the list arc by arc.  A place that it takes from, puts on and clears is changed three times, and one
to which it had two arcs of a kind would be changed twice.
-/
namespace Workflow

/-- The counts in a list, and no tokens beyond its end. -/
def Counts.ofList (a : List Nat) : Counts := fun p => a.getD p 0

def takeToken (a : List Nat) (p : Nat) : List Nat := a.modify p (· - 1)

def putToken (a : List Nat) (p : Nat) : List Nat := a.modify p (· + 1)

def clearTokens (a : List Nat) (p : Nat) : List Nat := a.modify p fun _ => 0

namespace ResetTransition

/-- Takes a token from each input place, then puts one on each output place, and then empties what it clears. -/
def fireOn (tr : ResetTransition) (a : List Nat) : List Nat :=
  tr.resets.foldl clearTokens (tr.postset.foldl putToken (tr.preset.foldl takeToken a))

/-- The least counts from which a firing leads above `a`: what is put need not be there before, and what is taken has
to be.  There are none if a place that is cleared should hold tokens afterwards. -/
def undo? (tr : ResetTransition) (a : List Nat) : Option (List Nat) :=
  if tr.resets.any (fun p => 0 < Counts.ofList a p) then none
  else some (tr.preset.foldl putToken (tr.postset.foldl takeToken a))

/-- It has at most one arc of a kind to each place, and the places are the first `n`. -/
structure Numbered (tr : ResetTransition) (n : Nat) : Prop where
  preset_nodup : tr.preset.Nodup
  postset_nodup : tr.postset.Nodup
  resets_nodup : tr.resets.Nodup
  preset_lt : ∀ p ∈ tr.preset, p < n
  postset_lt : ∀ p ∈ tr.postset, p < n
  resets_lt : ∀ p ∈ tr.resets, p < n

end ResetTransition

/-- The transition under the numbers that places have in a search. -/
def ResetNet.numbered (r : ResetNet) (tr : ResetTransition) : ResetTransition :=
  { tr with
    preset := r.renumber tr.preset
    postset := r.renumber tr.postset
    resets := r.renumber tr.resets }

end Workflow
