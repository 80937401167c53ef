import Workflow.ResetNet.Basic
/-!
# Coverability — whether tokens can come together on some places

The search goes backward.  It starts from the least marking with a token on each target place, and a round
looks for the least markings from which one firing leads above a marking found before.  Only minimal
markings are kept (the basis), and only those found in the last round are carried on (the fresh ones).  If
a marking found lies below the source, the target can be covered; if a round finds nothing new, it cannot.

Token counts are lists over the alive places of the net, in their order.  The effect of a transition is a
list of the same length, so all work is done place by place.
-/
namespace Workflow

/-- What one transition does to one place: it takes a token, puts a token, and then clears the place. -/
structure Effect where
  takes : Bool
  puts : Bool
  clears : Bool
deriving DecidableEq, Repr

namespace Effect

def after (e : Effect) (n : Nat) : Nat := if e.clears then 0 else n - e.takes.toNat + e.puts.toNat

/-- The least number of tokens that leaves at least `n` afterwards, if there is one. -/
def before? (e : Effect) (n : Nat) : Option Nat :=
  if e.clears && 0 < n then none else some (n - e.puts.toNat + e.takes.toNat)

/-- **`before?` is the weakest condition**: a count suffices exactly when it is at least that number. -/
theorem le_after_iff (e : Effect) (n k : Nat) :
    e.takes.toNat ≤ k ∧ n ≤ e.after k ↔ ∃ m, e.before? n = some m ∧ m ≤ k := by
  unfold after before?
  cases e.clears with
  | false =>
    simp only [Bool.false_and, Bool.false_eq_true, ↓reduceIte, Option.some.injEq, exists_eq_left']
    omega
  | true =>
    simp only [Bool.true_and, decide_eq_true_eq, ↓reduceIte]
    by_cases hn : 0 < n
    · rw [if_pos hn]
      simp only [reduceCtorEq, false_and, exists_false, iff_false, not_and]
      omega
    · rw [if_neg hn]
      simp only [Option.some.injEq, exists_eq_left']
      omega

end Effect

/-! ## Token counts over the alive places -/

/-- Every count of `a` is at most the one of `b`. -/
def below : List Nat → List Nat → Bool
  | n :: a, m :: b => n ≤ m && below a b
  | _, _ => true

/-- The least counts from which a transition with these effects leads above `a`, if there are any. -/
def predecessor? : List Effect → List Nat → Option (List Nat)
  | e :: es, n :: a =>
    match e.before? n, predecessor? es a with
    | some m, some b => some (m :: b)
    | _, _ => none
  | _, _ => some []

/-- Puts `a` into a list in ascending lexicographic order. -/
def insertInOrder (a : List Nat) : List (List Nat) → List (List Nat)
  | [] => [a]
  | b :: l => if a < b then a :: b :: l else b :: insertInOrder a l

/-- Adds `a` to minimal markings, unless it lies above one of them, in which case nothing changes. -/
def insertMinimal (l : List (List Nat)) (a : List Nat) : List (List Nat) :=
  if l.any (below · a) then l else insertInOrder a (l.filter (fun b => !below a b))

/-- The minimal ones among some markings, in ascending lexicographic order. -/
def minimals (l : List (List Nat)) : List (List Nat) := l.foldl insertMinimal []

/-! ## The search -/

structure Search where
  alive : List Nat
  source : List Nat
  effects : List (List Effect)
  limits : AnalysisLimits

inductive Round where
  | covered
  | tooLarge
  | grown (basis fresh : List (List Nat))

namespace Search

/-- What leads above a fresh marking in one firing, unless it lies above that marking itself. -/
def candidates (s : Search) (fresh : List (List Nat)) : List (List Nat) :=
  fresh.flatMap (fun a =>
    (s.effects.filterMap (predecessor? · a)).filter (fun b => !below a b))

def takeUp (s : Search) : List (List Nat) → List (List Nat) → List (List Nat) → Round
  | [], basis, fresh => .grown basis fresh
  | a :: l, basis, fresh =>
    if below a s.source then .covered
    else if basis.any (below · a) then s.takeUp l basis fresh
    else
      let basis' := a :: basis.filter (fun b => !below a b)
      if s.limits.basis < basis'.length then .tooLarge
      else s.takeUp l basis' (a :: fresh)

/-- At most `n` rounds. -/
def explore (s : Search) : Nat → List (List Nat) → List (List Nat) → Except Failure Bool
  | _, _, [] => .ok false
  | 0, _, _ :: _ => .error (.excess (.rounds s.limits.rounds))
  | n + 1, basis, a :: l =>
    match s.takeUp (minimals (s.candidates (a :: l))) basis [] with
    | .covered => .ok true
    | .tooLarge => .error (.excess (.basis s.limits.basis))
    | .grown basis fresh => s.explore n basis fresh

/-- Some run from the source brings a token to each of the targets at the same time. -/
def canCover (s : Search) (targets : List Nat) : Except Failure Bool :=
  if targets.all s.alive.contains then
    let goal := s.alive.map (fun p => if targets.contains p then 1 else 0)
    if below goal s.source then .ok true else s.explore s.limits.rounds [goal] [goal]
  else .ok false

end Search

namespace ResetTransition

def effectOn (tr : ResetTransition) (p : Nat) : Effect where
  takes := tr.preset.contains p
  puts := tr.postset.contains p
  clears := tr.resets.contains p

end ResetTransition

/-- The search in a reset net that starts from the given token counts. -/
def ResetNet.search (r : ResetNet) (limits : AnalysisLimits) (source : Nat → Nat) : Search where
  alive := r.alive
  source := r.alive.map source
  effects := r.transitions.map (fun tr => r.alive.map tr.effectOn)
  limits := limits

/-- Tokens on places that have been dropped are not looked at. -/
theorem ResetNet.search_congr {r : ResetNet} {x x' : Nat → Nat} (limits : AnalysisLimits)
    (h : ∀ p ∈ r.alive, x p = x' p) : r.search limits x = r.search limits x' := by
  unfold search
  rw [List.map_congr_left h]

end Workflow
