import Mathlib.Algebra.Group.Nat.Defs
import Mathlib.Data.List.Sort
import Mathlib.Data.List.Sublists
import Mathlib.Data.Nat.Choose.Basic
import Workflow.Combinations
import Workflow.Proofs.Succession
/-!
# Combinations — every subset, once and in order

Raising the rightmost member that has room is the same as going on behind the first member as long as that is possible
and raising the first member then (`advance?_cons`).  That is also how the choices from a list are made up: first those
that begin with its first member, then the others.  So the subsets of one size are given in the order in which choices
are listed (`yields_range'`), and the sizes follow one another (`yields_below`).  Whether anything is missing or comes
twice is then a matter of choices only.
-/
namespace Workflow

/-! ## What is given up to the end -/

section

variable {α σ : Type} {next? : σ → Option (Option (α × σ))} {s : σ} {l : List α}

/-- Asked again and again, it gives these and then ends. -/
inductive Yields (next? : σ → Option (Option (α × σ))) : σ → List α → Prop
  | done {s : σ} : next? s = some none → Yields next? s []
  | more {s s' : σ} {a : α} {l : List α} : next? s = some (some (a, s')) → Yields next? s' l → Yields next? s (a :: l)

/-- What answers alike gives the same. -/
theorem Yields.congr {s' : σ} (h : Yields next? s' l) (heq : next? s = next? s') : Yields next? s l := by
  cases h with
  | done hend => exact .done (heq.trans hend)
  | more hnext hrest => exact .more (heq.trans hnext) hrest

/-- One question for each, and one more for the end. -/
theorem Yields.drained? (h : Yields next? s l) : drained? next? (l.length + 1) s = some l := by
  induction h with
  | done hend => rw [Workflow.drained?, hend]
  | more hnext _ ih =>
    rw [List.length_cons, Workflow.drained?, hnext]
    dsimp only
    rw [ih, Option.map_some]

end

/-! ## The subset that comes next -/

namespace Combinations

variable {n k : Nat} {c : List Nat}

theorem follow?_cons (a : Nat) (members : List Nat) (pos : Nat) :
    follow? (a :: members) (pos + 2) = (follow? members (pos + 1)).map (a :: ·) := by
  rw [follow?, follow?, List.getElem?_cons_succ, List.getElem?_cons_succ]
  cases members[pos]? with
  | none => rfl
  | some _ => cases members[pos + 1]? <;> rfl

theorem foldlM_follow?_cons (a : Nat) : ∀ (len pos : Nat) (members : List Nat),
    (List.range' (pos + 2) len).foldlM follow? (a :: members) =
      ((List.range' (pos + 1) len).foldlM follow? members).map (a :: ·)
  | 0, _, _ => rfl
  | len + 1, pos, members => by
    rw [List.range'_succ, List.range'_succ, List.foldlM_cons, List.foldlM_cons, follow?_cons a members pos]
    cases follow? members (pos + 1) with
    | none => rfl
    | some members' => exact foldlM_follow?_cons a len (pos + 1) members'

/-- One after the other, the members behind the first come to lie right after it. -/
theorem foldlM_follow? : ∀ (members : List Nat) (a : Nat),
    (List.range' 1 members.length).foldlM follow? (a :: members) = some (List.range' a (members.length + 1))
  | [], _ => rfl
  | b :: members, a => by
    have hfirst : follow? (a :: b :: members) 1 = some (a :: (a + 1) :: members) := rfl
    rw [List.length_cons, List.range'_succ, List.foldlM_cons, hfirst, Option.bind_eq_bind, Option.bind_some,
      foldlM_follow?_cons a members.length 0, foldlM_follow? members (a + 1)]
    rfl

theorem raise?_zero (a : Nat) (members : List Nat) :
    raise? (a :: members) 0 = some (List.range' (a + 1) (members.length + 1)) :=
  foldlM_follow? members (a + 1)

theorem raise?_cons (a : Nat) (members : List Nat) (pos : Nat) :
    raise? (a :: members) (pos + 1) = (raise? members pos).map (a :: ·) := by
  unfold raise?
  rw [List.getElem?_cons_succ]
  cases members[pos]? with
  | none => rfl
  | some i =>
    rw [List.length_cons, Nat.add_sub_add_right]
    exact foldlM_follow?_cons a _ pos _

theorem ceiling?_succ (h : k + 1 ≤ n) (pos : Nat) : ceiling? n (k + 1) (pos + 1) = ceiling? n k pos := by
  unfold ceiling?
  rw [if_pos h, if_pos (Nat.le_of_succ_le h)]
  exact congrArg some (by omega)

/-- Behind the first member it goes on as if that were not there.  When nothing is left there, it is the first member's
turn, as long as it has room for the others behind it. -/
def orRaiseFirst (n a k : Nat) (behind : Option (List Nat)) : Option (List Nat) :=
  match behind with
  | some members => some (a :: members)
  | none => if a + (k + 1) < n then some (List.range' (a + 1) (k + 1)) else none

/-- **The next subset, from the first member on.** -/
theorem advance?_cons {members : List Nat} (a : Nat) (h : members.length + 1 ≤ n) : ∀ pos ≤ members.length,
    advance? n (a :: members) (pos + 1) = (advance? n members pos).map (orRaiseFirst n a members.length)
  | 0, _ => by
    unfold advance? ceiling?
    rw [List.length_cons, if_pos h, List.getElem?_cons_zero, raise?_zero]
    have hroom : a < n - (members.length + 1) + 0 ↔ a + (members.length + 1) < n := by omega
    dsimp only
    rw [Option.map_some, Option.map_some, orRaiseFirst]
    simp only [hroom]
    split <;> rfl
  | pos + 1, hpos => by
    have ih := advance?_cons a h pos (Nat.le_of_succ_le hpos)
    unfold advance?
    rw [List.length_cons, ceiling?_succ h, List.getElem?_cons_succ, raise?_cons, ih]
    cases ceiling? n members.length pos with
    | none => rfl
    | some ceiling =>
      cases members[pos]? with
      | none => rfl
      | some i =>
        dsimp only
        split
        · cases raise? members pos <;> rfl
        · rfl

/-! ## One size -/

theorem yields_none_iff {l : List (List Nat)} : Yields next? ⟨n, none⟩ l ↔ l = [] := by
  constructor
  · intro h
    cases h with
    | done _ => rfl
    | more hnext _ => cases hnext
  · rintro rfl
    exact .done rfl

theorem yields_some_iff {l : List (List Nat)} : Yields next? ⟨n, some c⟩ l ↔
    ∃ c' l', advance? n c c.length = some c' ∧ Yields next? ⟨n, c'⟩ l' ∧ l = c :: l' := by
  constructor
  · intro h
    cases h with
    | done hend =>
      obtain ⟨c', -, hc'⟩ := Option.map_eq_some_iff.1 hend
      cases hc'
    | more hnext hrest =>
      obtain ⟨c', hadvance, hc'⟩ := Option.map_eq_some_iff.1 hnext
      cases hc'
      exact ⟨c', _, hadvance, hrest, rfl⟩
  · rintro ⟨c', l', hadvance, hrest, rfl⟩
    exact .more (Option.map_eq_some_iff.2 ⟨c', hadvance, rfl⟩) hrest

/-- **First all subsets that go on behind the first member**, and then those in which it has been raised. -/
theorem yields_cons (a : Nat) (hk : k + 1 ≤ n) {l' : List (List Nat)}
    (hraised : Yields next? ⟨n, orRaiseFirst n a k none⟩ l') : ∀ {l : List (List Nat)} {c : List Nat},
    Yields next? ⟨n, some c⟩ l → (∀ d ∈ l, d.length = k) →
      Yields next? ⟨n, some (a :: c)⟩ (l.map (a :: ·) ++ l')
  | [], c, h, _ => by
    obtain ⟨_, _, -, -, hnil⟩ := yields_some_iff.1 h
    cases hnil
  | d :: l, c, h, hlen => by
    obtain ⟨c', l₁, hadvance, hrest, heq⟩ := yields_some_iff.1 h
    obtain ⟨rfl, rfl⟩ := List.cons.inj heq
    obtain ⟨hd, hlen⟩ := List.forall_mem_cons.1 hlen
    have hadvance' : advance? n (a :: d) (a :: d).length = some (orRaiseFirst n a k c') := by
      rw [List.length_cons, advance?_cons a (hd ▸ hk) _ (Nat.le_refl _), hadvance, hd, Option.map_some]
    refine yields_some_iff.2 ⟨_, l.map (a :: ·) ++ l', hadvance', ?_, rfl⟩
    cases c' with
    | none =>
      obtain rfl := yields_none_iff.1 hrest
      exact hraised
    | some c' => exact yields_cons a hk hraised hrest hlen

end Combinations

theorem length_choices {α : Type} : ∀ (k : Nat) (l : List α), (choices k l).length = l.length.choose k
  | 0, l => by rw [choices, Nat.choose_zero_right, List.length_singleton]
  | k + 1, [] => rfl
  | k + 1, a :: l => by
    rw [choices, List.length_append, List.length_map, length_choices k l, length_choices (k + 1) l, List.length_cons,
      Nat.choose_succ_succ]

theorem choices_eq_nil_iff {α : Type} {k : Nat} {l : List α} : choices k l = [] ↔ l.length < k := by
  rw [← List.length_eq_zero_iff, length_choices, Nat.choose_eq_zero_iff]

namespace Combinations

variable {n k : Nat}

/-- **The subsets of one size come in the order of the choices.** -/
theorem yields_range' : ∀ (b : Nat) {a k : Nat}, a + b = n → k ≤ b →
    Yields next? ⟨n, some (List.range' a k)⟩ (choices k (List.range' a b))
  | b, a, 0, _, _ => by
    rw [choices]
    exact yields_some_iff.2 ⟨none, [], rfl, .done rfl, rfl⟩
  | 0, _, _ + 1, _, hk => absurd hk (Nat.not_succ_le_zero _)
  | b + 1, a, k + 1, hab, hk => by
    rw [List.range'_succ, List.range'_succ, choices]
    refine yields_cons a (by omega) ?_ (yields_range' b (by omega) (Nat.le_of_succ_le_succ hk))
      fun d hd => length_of_mem_choices hd
    unfold orRaiseFirst
    dsimp only
    by_cases hroom : k + 1 ≤ b
    · rw [if_pos (by omega)]
      exact yields_range' b (by omega) hroom
    · have hnone : choices (k + 1) (List.range' (a + 1) b) = [] := by
        rw [choices_eq_nil_iff, List.length_range']
        exact Nat.lt_of_not_le hroom
      rw [if_neg (by omega), hnone]
      exact .done rfl

theorem yields_ofSize (n k : Nat) : Yields next? (ofSize n k) (choices k (List.range n)) := by
  unfold ofSize
  by_cases hk : k ≤ n
  · rw [if_pos hk, List.range_eq_range', List.range_eq_range']
    exact yields_range' n (Nat.zero_add n) hk
  · have hnone : choices k (List.range n) = [] := by
      rw [choices_eq_nil_iff, List.length_range]
      exact Nat.lt_of_not_le hk
    rw [if_neg hk, hnone]
    exact .done rfl

theorem bound_of_next? {s s' : Combinations} {c : List Nat} (h : s.next? = some (some (c, s'))) :
    s'.bound = s.bound := by
  unfold next? at h
  split at h
  · cases h
  · obtain ⟨c', -, hc'⟩ := Option.map_eq_some_iff.1 h
    cases hc'
    rfl

end Combinations

/-! ## One size after the other -/

namespace Subsets

variable {n k : Nat} {current : Combinations} {sizes : List Nat} {l l' : List (List Nat)}

theorem next?_of_some {c : List Nat} {current' : Combinations} (h : current.next? = some (some (c, current'))) :
    ∀ sizes, next? ⟨current, sizes⟩ = some (some (c, ⟨current', sizes⟩))
  | [] => by
    unfold next? nextOf?
    rw [h]
    rfl
  | _ :: _ => by
    unfold next? nextOf?
    rw [h]

theorem next?_of_none (h : current.next? = some none) :
    ∀ sizes, next? ⟨current, k :: sizes⟩ = next? ⟨Combinations.ofSize current.bound k, sizes⟩ := by
  intro sizes
  unfold next?
  rw [nextOf?, h]

theorem yields_append (h : Yields Combinations.next? current l)
    (hrest : ∀ ended : Combinations, ended.bound = current.bound → ended.next? = some none →
      Yields next? ⟨ended, sizes⟩ l') : Yields next? ⟨current, sizes⟩ (l ++ l') := by
  induction h with
  | done hend => exact hrest _ rfl hend
  | more hnext _ ih =>
    refine .more (next?_of_some hnext sizes) (ih fun ended hbound => hrest ended ?_)
    rw [hbound, Combinations.bound_of_next? hnext]

theorem yields_sizes : ∀ (sizes : List Nat) {current : Combinations} {l : List (List Nat)},
    Yields Combinations.next? current l →
    Yields next? ⟨current, sizes⟩ (l ++ sizes.flatMap (choices · (List.range current.bound)))
  | [], current, l, h => yields_append h fun ended _ hend => by
    refine .done ?_
    unfold next? nextOf?
    rw [hend]
    rfl
  | k :: sizes, current, l, h => yields_append h fun ended hbound hend => by
    have hsize := yields_sizes sizes (Combinations.yields_ofSize ended.bound k)
    rw [List.flatMap_cons, ← hbound]
    exact hsize.congr (next?_of_none hend sizes)

theorem yields_below (n : Nat) : Yields next? (below n) (nonemptyChoices (List.range n)) := by
  have hnone : Yields Combinations.next? ⟨n, none⟩ [] := .done rfl
  have hsizes := yields_sizes (List.range' 1 n) hnone
  unfold nonemptyChoices
  rwa [List.length_range]

end Subsets

/-! ## All subsets -/

theorem sublist_range_iff {n : Nat} {c : List Nat} :
    c.Sublist (List.range n) ↔ c.Pairwise (· < ·) ∧ ∀ i ∈ c, i < n := by
  constructor
  · exact fun h => ⟨List.pairwise_lt_range.sublist h, fun i hi => List.mem_range.1 (h.subset hi)⟩
  · rintro ⟨hc, hlt⟩
    have hsub : c.Subperm (List.range n) := hc.nodup.subperm fun i hi => List.mem_range.2 (hlt i hi)
    exact List.sublist_of_subperm_of_pairwise hsub (hc.imp Nat.le_of_lt) (List.pairwise_lt_range.imp Nat.le_of_lt)

theorem mem_choices_iff {α : Type} {k : Nat} {l c : List α} : c ∈ choices k l ↔ c.length = k ∧ c.Sublist l := by
  constructor
  · exact fun h => ⟨length_of_mem_choices h, sublist_of_mem_choices h⟩
  · rintro ⟨rfl, hc⟩
    exact mem_choices_of_sublist hc

/-- Choices of one size from numbers in ascending order are listed in lexicographic order. -/
theorem pairwise_lt_choices : ∀ {k : Nat} {l : List Nat}, l.Pairwise (· < ·) → (choices k l).Pairwise (· < ·)
  | 0, l, _ => by
    rw [choices]
    exact List.pairwise_singleton _ _
  | _ + 1, [], _ => .nil
  | k + 1, a :: l, h => by
    obtain ⟨ha, hl⟩ := List.pairwise_cons.1 h
    have hwith : ((choices k l).map (a :: ·)).Pairwise (· < ·) :=
      List.pairwise_map.2 ((pairwise_lt_choices hl).imp fun hlt => List.cons_lt_cons_iff.2 (.inr ⟨rfl, hlt⟩))
    refine List.pairwise_append.2 ⟨hwith, pairwise_lt_choices hl, fun c hc d hd => ?_⟩
    obtain ⟨c₀, -, rfl⟩ := List.mem_map.1 hc
    obtain ⟨hlen, hsub⟩ := mem_choices_iff.1 hd
    cases d with
    | nil => cases hlen
    | cons b d => exact List.cons_lt_cons_iff.2 (.inl (ha b (hsub.subset List.mem_cons_self)))

/-- Smaller choices come first. -/
theorem pairwise_nonemptyChoices {l : List Nat} (h : l.Pairwise (· < ·)) :
    (nonemptyChoices l).Pairwise (fun c d => c.length < d.length ∨ c.length = d.length ∧ c < d) := by
  have hsizes : (List.range' 1 l.length).Pairwise (· < ·) := List.pairwise_lt_range'
  refine List.pairwise_flatMap.2 ⟨fun k _ => ?_, hsizes.imp fun hlt c hc d hd => .inl ?_⟩
  · refine (pairwise_lt_choices h).imp_of_mem fun hc hd hlt => .inr ⟨?_, hlt⟩
    rw [length_of_mem_choices hc, length_of_mem_choices hd]
  · rwa [length_of_mem_choices hc, length_of_mem_choices hd]

/-- Together with the empty one they are as many as there are sublists. -/
theorem length_nonemptyChoices {α : Type} {l : List α} (h : l.Nodup) :
    (nonemptyChoices l).length = 2 ^ l.length - 1 := by
  have hnodup : ([] :: nonemptyChoices l).Nodup :=
    List.nodup_cons.2 ⟨fun hnil => (mem_nonemptyChoices.1 hnil).2 rfl, nodup_nonemptyChoices h⟩
  have hperm : ([] :: nonemptyChoices l).Perm l.sublists := by
    refine (List.perm_ext_iff_of_nodup hnodup (List.nodup_sublists.2 h)).2 fun c => ?_
    rw [List.mem_cons, mem_nonemptyChoices, List.mem_sublists]
    by_cases hc : c = []
    · simp [hc]
    · simp [hc]
  have hlength := hperm.length_eq
  rw [List.length_cons, List.length_sublists] at hlength
  exact Nat.eq_sub_of_add_eq hlength

theorem choices_map {α β : Type} (f : α → β) : ∀ (k : Nat) (l : List α),
    choices k (l.map f) = (choices k l).map (List.map f)
  | 0, _ => by rw [choices, choices, List.map_singleton, List.map_nil]
  | _ + 1, [] => rfl
  | k + 1, a :: l => by
    rw [List.map_cons, choices, choices, choices_map f k l, choices_map f (k + 1) l, List.map_append, List.map_map,
      List.map_map]
    rfl

/-- Whatever a list is made of, the choices from it are made by position. -/
theorem nonemptyChoices_map {α β : Type} (f : α → β) (l : List α) :
    nonemptyChoices (l.map f) = (nonemptyChoices l).map (List.map f) := by
  unfold nonemptyChoices
  rw [List.length_map, List.map_flatMap]
  exact congrArg (List.flatMap · _) (funext fun k => choices_map f k l)

/-- **Every subset, once and in order.**  Asked as often as there are subsets of the numbers below `n`, the enumeration
gives every one that is not empty, as an ascending list, and then ends; smaller ones come first, and those of one size
in lexicographic order.  With them as positions, the choices of an OR-split with `n` outputs are listed.  The subsets of
each size, of those too that are larger than `n`, are all given in lexicographic order.  No subtraction on the way goes
below zero. -/
theorem subsets_enumerated (n : Nat) :
    (∃ l, drained? Subsets.next? (2 ^ n) (Subsets.below n) = some l ∧ l.length = 2 ^ n - 1 ∧ l.Nodup ∧
      (∀ c, c ∈ l ↔ c ≠ [] ∧ c.Pairwise (· < ·) ∧ ∀ i ∈ c, i < n) ∧
      l.Pairwise (fun c d => c.length < d.length ∨ c.length = d.length ∧ c < d) ∧
      ∀ output : Nat → PlaceId, nonemptyChoices ((List.range n).map output) = l.map (List.map output)) ∧
    ∀ k, ∃ l, drained? Combinations.next? (n.choose k + 1) (Combinations.ofSize n k) = some l ∧
      l.length = n.choose k ∧ (l = [] ↔ n < k) ∧
      (∀ c, c ∈ l ↔ c.length = k ∧ c.Pairwise (· < ·) ∧ ∀ i ∈ c, i < n) ∧ l.Pairwise (· < ·) := by
  constructor
  · have hlength : (nonemptyChoices (List.range n)).length = 2 ^ n - 1 := by
      rw [length_nonemptyChoices List.nodup_range, List.length_range]
    have hdrained := (Subsets.yields_below n).drained?
    rw [hlength, Nat.sub_add_cancel Nat.one_le_two_pow] at hdrained
    refine ⟨_, hdrained, hlength, nodup_nonemptyChoices List.nodup_range, fun c => ?_,
      pairwise_nonemptyChoices List.pairwise_lt_range, fun output => nonemptyChoices_map output _⟩
    rw [mem_nonemptyChoices, sublist_range_iff, and_comm]
  · intro k
    have hlength : (choices k (List.range n)).length = n.choose k := by rw [length_choices, List.length_range]
    have hdrained := (Combinations.yields_ofSize n k).drained?
    rw [hlength] at hdrained
    refine ⟨_, hdrained, hlength, ?_, fun c => ?_, pairwise_lt_choices List.pairwise_lt_range⟩
    · rw [choices_eq_nil_iff, List.length_range]
    · rw [mem_choices_iff, sublist_range_iff]

example : drained? Combinations.next? 7 (Combinations.ofSize 4 2) =
    some [[0, 1], [0, 2], [0, 3], [1, 2], [1, 3], [2, 3]] := rfl

end Workflow
