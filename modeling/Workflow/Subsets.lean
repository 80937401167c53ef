/-!
# Subsets — the choices that an OR-split offers

A choice keeps the order of the list it is made from.  Choices are listed by size, and those of one size
so that an earlier position counts before a later one.
-/
namespace Workflow

variable {α : Type}

def choices : Nat → List α → List (List α)
  | 0, _ => [[]]
  | _ + 1, [] => []
  | k + 1, a :: l => (choices k l).map (a :: ·) ++ choices (k + 1) l

def nonemptyChoices (l : List α) : List (List α) :=
  (List.range' 1 l.length).flatMap (choices · l)

theorem length_of_mem_choices : ∀ {k : Nat} {l c : List α}, c ∈ choices k l → c.length = k
  | 0, _, c, h => by
    have h' : c = [] := by simpa [choices] using h
    rw [h', List.length_nil]
  | _ + 1, [], _, h => by simp [choices] at h
  | k + 1, a :: l, c, h => by
    rcases List.mem_append.1 h with h | h
    · obtain ⟨c', hc', rfl⟩ := List.mem_map.1 h
      rw [List.length_cons, length_of_mem_choices hc']
    · exact length_of_mem_choices h

theorem sublist_of_mem_choices : ∀ {k : Nat} {l c : List α}, c ∈ choices k l → c.Sublist l
  | 0, l, c, h => by
    have h' : c = [] := by simpa [choices] using h
    rw [h']
    exact List.nil_sublist l
  | _ + 1, [], _, h => by simp [choices] at h
  | k + 1, a :: l, c, h => by
    rcases List.mem_append.1 h with h | h
    · obtain ⟨c', hc', rfl⟩ := List.mem_map.1 h
      exact (sublist_of_mem_choices hc').cons_cons a
    · exact (sublist_of_mem_choices h).cons a

theorem mem_choices_of_sublist : ∀ {l c : List α}, c.Sublist l → c ∈ choices c.length l
  | _, [], _ => by simp [choices]
  | [], b :: c, h => by simp at h
  | a :: l, b :: c, h => by
    rw [List.length_cons, choices, List.mem_append]
    cases h with
    | cons _ h => exact .inr (mem_choices_of_sublist h)
    | cons_cons _ h => exact .inl (List.mem_map_of_mem (mem_choices_of_sublist h))

/-- **The choices are the sublists that are not empty.** -/
theorem mem_nonemptyChoices {l c : List α} : c ∈ nonemptyChoices l ↔ c.Sublist l ∧ c ≠ [] := by
  simp only [nonemptyChoices, List.mem_flatMap, List.mem_range'_1]
  constructor
  · rintro ⟨k, ⟨hk, _⟩, hc⟩
    refine ⟨sublist_of_mem_choices hc, fun h => ?_⟩
    have := length_of_mem_choices hc
    rw [h, List.length_nil] at this
    omega
  · rintro ⟨hc, hne⟩
    have hpos := List.length_pos_iff.2 hne
    have hle := hc.length_le
    exact ⟨c.length, ⟨hpos, by omega⟩, mem_choices_of_sublist hc⟩

end Workflow
