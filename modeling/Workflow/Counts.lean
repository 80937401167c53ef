/-!
# Counts — token counts without a bound

A net is reasoned about with counts that are natural numbers, one for every number of a place.
-/
namespace Workflow

abbrev Counts := Nat → Nat

namespace Counts

/-- Everywhere at least as many tokens as in `y`. -/
def Covers (x y : Counts) : Prop := ∀ p, y p ≤ x p

/-- A token on each of these places. -/
def Marks (x : Counts) (places : List Nat) : Prop := ∀ p ∈ places, 0 < x p

/-- The counts on these places, and no tokens elsewhere. -/
def within (x : Counts) (places : List Nat) : Counts := fun p => if p ∈ places then x p else 0

/-- Those of the places that hold tokens, each once, with the number that they hold. -/
def held (x : Counts) (places : List Nat) : List (Nat × Nat) :=
  (places.eraseDups.filter (fun p => 0 < x p)).map (fun p => (p, x p))

/-- Takes one token from each place of `take`, puts one on each of `put`, and then empties those of
`clear`. -/
def move (take put clear : List Nat) (x : Counts) : Counts := fun p =>
  if p ∈ clear then 0
  else x p - (if p ∈ take then 1 else 0) + (if p ∈ put then 1 else 0)

variable {x y z : Counts}

theorem Covers.refl (x : Counts) : x.Covers x := fun _ => Nat.le_refl _

theorem Covers.trans (h : x.Covers y) (h' : y.Covers z) : x.Covers z := fun p => Nat.le_trans (h' p) (h p)

theorem Covers.marks {places : List Nat} (h : x.Covers y) (hy : y.Marks places) : x.Marks places :=
  fun p hp => Nat.lt_of_lt_of_le (hy p hp) (h p)

theorem within_of_mem {places : List Nat} {p : Nat} (hp : p ∈ places) : x.within places p = x p := if_pos hp

/-- More tokens on a place stay more tokens there, the more so if less is taken and more is put. -/
theorem move_le_move {take take' put put' clear : List Nat} {p : Nat} (h : x p ≤ y p) (htake : p ∈ take' → p ∈ take)
    (hput : p ∈ put → p ∈ put') : x.move take put clear p ≤ y.move take' put' clear p := by
  unfold move
  split
  · exact Nat.le_refl 0
  · have htakes : (if p ∈ take' then 1 else 0) ≤ if p ∈ take then 1 else 0 := by
      by_cases hp : p ∈ take'
      · simp [hp, htake hp]
      · simp [hp]
    have hputs : (if p ∈ put then 1 else 0) ≤ if p ∈ put' then 1 else 0 := by
      by_cases hp : p ∈ put
      · simp [hp, hput hp]
      · simp [hp]
    omega

/-- **More tokens stay more tokens.** -/
theorem Covers.move {take put clear : List Nat} (h : x.Covers y) :
    (x.move take put clear).Covers (y.move take put clear) :=
  fun p => move_le_move (h p) id id

end Counts

end Workflow
