import Mathlib.Data.List.GetD
import Workflow.ResetNet.Numbered
/-!
# Predecessor — undoing a firing arc by arc

A transition that has at most one arc of a kind to each place changes each count as its effect on that place says, in
whatever order the arcs come (`foldl_modify`).  So undoing it arc by arc is what a search does place by place
(`undo?_eq_predecessor?`), and it yields the weakest condition under which a firing leads above given counts.
-/
namespace Workflow

section

variable {n : Nat} {tr : ResetTransition} {a : List Nat}

/-! ## Arc by arc and place by place -/

theorem map_ofList (a : List Nat) : (List.range a.length).map (Counts.ofList a) = a := by
  refine List.ext_getElem (by simp) fun p _ hp => ?_
  rw [List.getElem_map, List.getElem_range, Counts.ofList, List.getD_eq_getElem _ _ hp]

theorem modify_map (n : Nat) (x : Counts) (p : Nat) (f : Nat → Nat) :
    ((List.range n).map x).modify p f = (List.range n).map (fun q => if q = p then f (x q) else x q) := by
  refine List.ext_getElem (by simp) fun q _ hq => ?_
  rw [List.getElem_modify, List.getElem_map, List.getElem_map, List.getElem_range]
  by_cases hqp : p = q
  · rw [if_pos hqp, if_pos hqp.symm]
  · rw [if_neg hqp, if_neg (Ne.symm hqp)]

/-- **Each of the places is changed once.** -/
theorem foldl_modify (n : Nat) (f : Nat → Nat) : ∀ {places : List Nat} (x : Counts), places.Nodup →
    places.foldl (fun a p => a.modify p f) ((List.range n).map x) =
      (List.range n).map (fun q => if q ∈ places then f (x q) else x q)
  | [], x, _ => by simp
  | p :: places, x, h => by
    obtain ⟨hp, h⟩ := List.nodup_cons.1 h
    rw [List.foldl_cons, modify_map, foldl_modify n f _ h]
    refine List.map_congr_left fun q _ => ?_
    by_cases hqp : q = p
    · rw [hqp, if_neg hp, if_pos rfl, if_pos List.mem_cons_self]
    · simp only [List.mem_cons, hqp, false_or, if_false]

/-- **Firing arc by arc** is firing. -/
theorem fireOn_map (h : tr.Numbered n) (x : Counts) :
    tr.fireOn ((List.range n).map x) = (List.range n).map (tr.fire x) := by
  unfold ResetTransition.fireOn takeToken putToken clearTokens
  rw [foldl_modify n _ x h.preset_nodup, foldl_modify n _ _ h.postset_nodup, foldl_modify n _ _ h.resets_nodup]
  refine List.map_congr_left fun p _ => ?_
  unfold ResetTransition.fire Counts.move
  by_cases hclear : p ∈ tr.resets
  · rw [if_pos hclear, if_pos hclear]
  · rw [if_neg hclear, if_neg hclear]
    by_cases htake : p ∈ tr.preset <;> by_cases hput : p ∈ tr.postset <;> simp [htake, hput]

/-- What leads above counts that are listed over some places. -/
theorem predecessor?_map (effect : Nat → Effect) (x : Counts) : ∀ l : List Nat,
    predecessor? (l.map effect) (l.map x) =
      if l.any (fun p => (effect p).clears && 0 < x p) then none
      else some (l.map fun p => x p - (effect p).puts.toNat + (effect p).takes.toNat)
  | [] => rfl
  | p :: l => by
    rw [List.map_cons, List.map_cons, predecessor?, predecessor?_map effect x l, List.any_cons, Effect.before?]
    cases ((effect p).clears && decide (0 < x p)) with
    | true => rfl
    | false =>
      cases l.any fun p => (effect p).clears && decide (0 < x p) with
      | true => rfl
      | false => rfl

/-- **Undoing arc by arc** is what the search does place by place. -/
theorem undo?_eq_predecessor? (h : tr.Numbered a.length) :
    tr.undo? a = predecessor? ((List.range a.length).map tr.effectOn) a := by
  have hany : tr.resets.any (fun p => 0 < Counts.ofList a p) =
      (List.range a.length).any (fun p => (tr.effectOn p).clears && 0 < Counts.ofList a p) := by
    rw [Bool.eq_iff_iff, List.any_eq_true, List.any_eq_true]
    simp only [Bool.and_eq_true, List.mem_range, ResetTransition.effectOn, List.contains_iff_mem]
    constructor
    · rintro ⟨p, hp, hpos⟩
      exact ⟨p, h.resets_lt p hp, hp, hpos⟩
    · rintro ⟨p, -, hp, hpos⟩
      exact ⟨p, hp, hpos⟩
  have hcounts : tr.preset.foldl putToken (tr.postset.foldl takeToken a) = (List.range a.length).map fun p =>
      Counts.ofList a p - (tr.effectOn p).puts.toNat + (tr.effectOn p).takes.toNat := by
    conv_lhs => rw [← map_ofList a]
    unfold takeToken putToken
    rw [foldl_modify _ _ _ h.postset_nodup, foldl_modify _ _ _ h.preset_nodup]
    refine List.map_congr_left fun p _ => ?_
    unfold ResetTransition.effectOn
    by_cases htake : p ∈ tr.preset <;> by_cases hput : p ∈ tr.postset <;> simp [htake, hput]
  unfold ResetTransition.undo?
  rw [hany, hcounts]
  conv_rhs => rw [← map_ofList a]
  rw [List.length_map, List.length_range]
  exact (predecessor?_map tr.effectOn (Counts.ofList a) (List.range a.length)).symm

end

/-- **The weakest condition, arc by arc.**  However the arcs of a transition meet on places, it can fire with given
counts and then leads above `a` exactly when they lie above what undoing it makes of `a`, if that makes anything of it.
That is also what a search takes for the counts that lead above `a`. -/
theorem undoing_is_weakest {tr : ResetTransition} (a counts : List Nat) (h : tr.Numbered a.length)
    (hlen : counts.length = a.length) :
    (tr.Enabled (Counts.ofList counts) ∧ below a (tr.fireOn counts) = true ↔
      ∃ b, tr.undo? a = some b ∧ below b counts = true) ∧
    tr.undo? a = predecessor? ((List.range a.length).map tr.effectOn) a := by
  have hsearch := undo?_eq_predecessor? h
  refine ⟨?_, hsearch⟩
  have hcounts := map_ofList counts
  rw [hlen] at hcounts
  have hfire := fireOn_map h (Counts.ofList counts)
  rw [hcounts] at hfire
  have hrange : a.length = (List.range a.length).length := List.length_range.symm
  have hweakest := above_predecessor?_iff tr (Counts.ofList counts) hrange
  unfold Counts.Above at hweakest
  rw [hcounts, ← hfire, ← hsearch] at hweakest
  rw [hweakest]
  refine and_congr_left' ⟨fun hen p _ hp => hen p hp, fun hen p hp => ?_⟩
  exact hen p (List.mem_range.2 (h.preset_lt p hp)) hp

namespace ResetTransition

/-- Its arcs meet on four of the five places, and on one of these there is an arc of each kind. -/
def tangled : ResetTransition where
  label := "tangled"
  task := 0
  phase := .finish
  preset := [0, 1, 3]
  postset := [1, 2, 3, 4]
  resets := [0, 2, 3]

theorem tangled_undone : tangled.Numbered 5 ∧ tangled.undo? [0, 2, 0, 0, 1] = some [1, 2, 0, 1, 0] ∧
    tangled.Enabled (Counts.ofList [1, 2, 6, 1, 0]) ∧
    below [0, 2, 0, 0, 1] (tangled.fireOn [1, 2, 6, 1, 0]) = true ∧
    below [0, 2, 0, 0, 1] (tangled.fireOn [1, 1, 6, 1, 0]) = false ∧ tangled.undo? [0, 0, 1, 0, 0] = none := by
  have h : tangled.Numbered 5 := by constructor <;> decide
  have hundo : tangled.undo? [0, 2, 0, 0, 1] = some [1, 2, 0, 1, 0] := rfl
  obtain ⟨hen, hfire⟩ := (undoing_is_weakest [0, 2, 0, 0, 1] [1, 2, 6, 1, 0] h rfl).1.2 ⟨_, hundo, rfl⟩
  exact ⟨h, hundo, hen, hfire, rfl, rfl⟩

end ResetTransition

end Workflow
