/-!
# Closure — what follows from a start, round after round

`yields` says what a set of numbers yields in one round.  `closure` adds that to the start until a round
adds nothing.  For a `yields` that grows with its argument and stays below a bound, the outcome is the
least set that contains the start and all it yields: it contains the start (`subset_closure`), it is
closed (`mem_closure_of_mem_yields`), and every closed set with the start contains it
(`closure_subset`).
-/
namespace Workflow

def addAll (s new : List Nat) : List Nat := new.foldl (fun s a => s.insert a) s

/-- At most `n` rounds, fewer if one of them adds nothing. -/
def saturate (yields : List Nat → List Nat) : Nat → List Nat → List Nat
  | 0, s => s
  | n + 1, s =>
    if (addAll s (yields s)).length = s.length then s
    else saturate yields n (addAll s (yields s))

/-- The closure of `start` under `yields`, all of whose results are below `bound`. -/
def closure (bound : Nat) (yields : List Nat → List Nat) (start : List Nat) : List Nat :=
  saturate yields bound start.eraseDups

/-! ## One round -/

theorem mem_addAll {a : Nat} : ∀ {l s : List Nat}, a ∈ addAll s l ↔ a ∈ s ∨ a ∈ l
  | [], s => by simp [addAll]
  | b :: l, s => by
    have ih := mem_addAll (a := a) (l := l) (s := s.insert b)
    simp only [addAll, List.foldl_cons] at ih ⊢
    rw [ih, List.mem_insert_iff, List.mem_cons]
    constructor
    · rintro ((h | h) | h)
      · exact .inr (.inl h)
      · exact .inl h
      · exact .inr (.inr h)
    · rintro (h | h | h)
      · exact .inl (.inr h)
      · exact .inl (.inl h)
      · exact .inr h

theorem nodup_insert {a : Nat} {s : List Nat} (h : s.Nodup) : (s.insert a).Nodup := by
  by_cases ha : a ∈ s
  · rwa [List.insert_of_mem ha]
  · rw [List.insert_of_not_mem ha]
    exact List.nodup_cons.2 ⟨ha, h⟩

theorem nodup_addAll : ∀ {l s : List Nat}, s.Nodup → (addAll s l).Nodup
  | [], _, h => h
  | _ :: l, _, h => nodup_addAll (l := l) (nodup_insert h)

theorem length_le_insert (a : Nat) (s : List Nat) : s.length ≤ (s.insert a).length := by
  by_cases ha : a ∈ s
  · simp only [List.insert_of_mem ha, Nat.le_refl]
  · simp only [List.insert_of_not_mem ha, List.length_cons, Nat.le_succ]

theorem length_le_addAll : ∀ (l s : List Nat), s.length ≤ (addAll s l).length
  | [], _ => Nat.le_refl _
  | b :: l, s => Nat.le_trans (length_le_insert b s) (length_le_addAll l (s.insert b))

/-- A round that adds nothing to the length adds nothing at all. -/
theorem mem_of_mem_addAll_of_length_eq : ∀ {l s : List Nat}, (addAll s l).length = s.length →
    ∀ a ∈ l, a ∈ s
  | [], _, _, _, ha => by cases ha
  | b :: l, s, h, a, ha => by
    have hb : b ∈ s := by
      apply Decidable.byContradiction
      intro hb
      have hlen := length_le_addAll l (s.insert b)
      rw [List.insert_of_not_mem hb] at hlen
      simp only [addAll, List.foldl_cons, List.insert_of_not_mem hb] at h hlen
      rw [h, List.length_cons] at hlen
      exact Nat.not_succ_le_self _ hlen
    rcases List.mem_cons.1 ha with rfl | ha
    · exact hb
    · refine mem_of_mem_addAll_of_length_eq (l := l) ?_ a ha
      simpa only [addAll, List.foldl_cons, List.insert_of_mem hb] using h

/-! ## Counting

A list without repetition is no longer than any list that has all its members, so only `bound` rounds
can add something. -/

theorem length_le_of_nodup_subset : ∀ {l m : List Nat}, l.Nodup → (∀ a ∈ l, a ∈ m) → l.length ≤ m.length
  | [], _, _, _ => Nat.zero_le _
  | a :: l, m, hn, hs => by
    have ha : a ∈ m := hs a List.mem_cons_self
    have hn' := List.nodup_cons.1 hn
    have ih := length_le_of_nodup_subset (l := l) (m := m.erase a) hn'.2 (fun b hb => by
      have hne : b ≠ a := fun e => hn'.1 (e ▸ hb)
      exact (List.mem_erase_of_ne hne).2 (hs b (List.mem_cons_of_mem _ hb)))
    rw [List.length_erase_of_mem ha] at ih
    have hpos : 0 < m.length := List.length_pos_of_mem ha
    rw [List.length_cons]
    omega

theorem mem_of_length_eq_bound {bound a : Nat} {s : List Nat} (hn : s.Nodup) (hs : ∀ b ∈ s, b < bound)
    (hlen : bound ≤ s.length) (ha : a < bound) : a ∈ s := by
  apply Decidable.byContradiction
  intro hmem
  have := length_le_of_nodup_subset (l := a :: s) (m := List.range bound)
    (List.nodup_cons.2 ⟨hmem, hn⟩) (fun b hb => by
      rw [List.mem_range]
      rcases List.mem_cons.1 hb with rfl | hb
      · exact ha
      · exact hs b hb)
  rw [List.length_cons, List.length_range] at this
  omega

theorem nodup_eraseDups {α : Type} [BEq α] [LawfulBEq α] (l : List α) : l.eraseDups.Nodup := by
  match l with
  | [] => exact List.nodup_nil
  | a :: l =>
    rw [List.eraseDups_cons, List.nodup_cons]
    refine ⟨fun h => ?_, nodup_eraseDups _⟩
    have := (List.mem_filter.1 (List.mem_eraseDups.1 h)).2
    simp at this
termination_by l.length
decreasing_by exact Nat.lt_succ_of_le (List.length_filter_le _ _)

theorem filter_eraseDups (f : Nat → Bool) : ∀ l : List Nat, (l.filter f).eraseDups = l.eraseDups.filter f
  | [] => rfl
  | a :: l => by
    rw [List.eraseDups_cons, List.filter_cons, List.filter_cons, ← filter_eraseDups f, List.filter_filter]
    split
    · rw [List.eraseDups_cons, List.filter_filter]
      simp only [Bool.and_comm]
    · rename_i ha
      refine congrArg List.eraseDups (List.filter_congr fun b _ => ?_)
      by_cases hb : b = a <;> simp_all
termination_by l => l.length
decreasing_by exact Nat.lt_succ_of_le (List.length_filter_le _ _)

/-! ## All rounds -/

variable {yields : List Nat → List Nat} {bound : Nat} {start : List Nat}

theorem subset_saturate : ∀ (n : Nat) (s : List Nat), ∀ a ∈ s, a ∈ saturate yields n s
  | 0, _, _, h => h
  | n + 1, s, a, h => by
    unfold saturate
    split
    · exact h
    · exact subset_saturate n _ a (mem_addAll.2 (.inl h))

theorem nodup_saturate : ∀ (n : Nat) {s : List Nat}, s.Nodup → (saturate yields n s).Nodup
  | 0, _, h => h
  | n + 1, s, h => by
    unfold saturate
    split
    · exact h
    · exact nodup_saturate n (nodup_addAll h)

theorem saturate_closed (hy : ∀ s, ∀ a ∈ yields s, a < bound) : ∀ (n : Nat) {s : List Nat}, s.Nodup →
    (∀ a ∈ s, a < bound) → bound ≤ n + s.length →
    ∀ a ∈ yields (saturate yields n s), a ∈ saturate yields n s
  | 0, s, hn, hs, hlen, a, ha => by
    have hlen' : bound ≤ s.length := by omega
    exact mem_of_length_eq_bound hn hs hlen' (hy s a ha)
  | n + 1, s, hn, hs, hlen, a, ha => by
    unfold saturate at ha ⊢
    split
    · rename_i h
      rw [if_pos h] at ha
      exact mem_of_mem_addAll_of_length_eq h a ha
    · rename_i h
      rw [if_neg h] at ha
      have hle := length_le_addAll (yields s) s
      refine saturate_closed hy n (nodup_addAll hn) (fun b hb => ?_) (by omega) a ha
      rcases mem_addAll.1 hb with hb | hb
      · exact hs b hb
      · exact hy s b hb

theorem saturate_subset {C : Nat → Prop} (hy : ∀ s, (∀ a ∈ s, C a) → ∀ a ∈ yields s, C a) :
    ∀ (n : Nat) {s : List Nat}, (∀ a ∈ s, C a) → ∀ a ∈ saturate yields n s, C a
  | 0, _, hs, a, ha => hs a ha
  | n + 1, s, hs, a, ha => by
    unfold saturate at ha
    split at ha
    · exact hs a ha
    · refine saturate_subset hy n (fun b hb => ?_) a ha
      rcases mem_addAll.1 hb with hb | hb
      · exact hs b hb
      · exact hy s hs b hb

theorem subset_closure : ∀ a ∈ start, a ∈ closure bound yields start :=
  fun a ha => subset_saturate bound _ a (List.mem_eraseDups.2 ha)

/-- **The closure is closed.** -/
theorem mem_closure_of_mem_yields (hy : ∀ s, ∀ a ∈ yields s, a < bound) (hs : ∀ a ∈ start, a < bound) :
    ∀ a ∈ yields (closure bound yields start), a ∈ closure bound yields start :=
  saturate_closed hy bound (nodup_eraseDups start) (fun a ha => hs a (List.mem_eraseDups.1 ha))
    (Nat.le_add_right _ _)

/-- **Whatever holds of the start and is kept by a round holds of the closure.** -/
theorem closure_subset {C : Nat → Prop} (hy : ∀ s, (∀ a ∈ s, C a) → ∀ a ∈ yields s, C a)
    (hs : ∀ a ∈ start, C a) : ∀ a ∈ closure bound yields start, C a :=
  saturate_subset hy bound (fun a ha => hs a (List.mem_eraseDups.1 ha))

end Workflow
