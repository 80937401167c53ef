import Mathlib.Algebra.Group.Action.Defs
import Mathlib.Algebra.Order.BigOperators.Group.Finset
import Workflow.Proofs.Room
/-!
# Comparison — markings in order

One marking covers another when it has at least as many tokens on every place, and a place beyond its end counts as
empty.  Whether it has more on some place is not looked for: it covers the other and its total is larger, which comes
to the same (`strictlyCovers_iff`).  The total of fewer than 2³² counts fits a word of 64 bits, so totals may be summed
up and compared in such words, and the comparison is the order of the counts (`covers_order`).
-/
namespace Workflow.Marking

variable {a b c m : Marking} {p n : Nat}

/-! ## Totals -/

/-- One more count in a word of 64 bits, if it fits. -/
def addToWord (s : UInt64) (c : UInt32) : Option UInt64 :=
  if s.toNat + c.toNat < UInt64.size then some (s + c.toUInt64) else none

/-- The total in a word of 64 bits, one count after the other. -/
def wordTotal? (m : Marking) : Option UInt64 := m.counts.foldlM addToWord 0

theorem count_cons_succ (k : UInt32) (counts : List UInt32) (p : Nat) :
    (⟨k :: counts⟩ : Marking).count (p + 1) = (⟨counts⟩ : Marking).count p := rfl

/-- The total is the sum of the counts on any places from the first on that include all of the marking. -/
theorem total_eq_sum : ∀ {counts : List UInt32} {n : Nat}, counts.length ≤ n →
    (⟨counts⟩ : Marking).total = ∑ p ∈ Finset.range n, (⟨counts⟩ : Marking).count p
  | [], n, _ => by
    have hzero : ∀ p ∈ Finset.range n, (⟨[]⟩ : Marking).count p = 0 := fun p _ => rfl
    rw [Finset.sum_eq_zero hzero]
    rfl
  | k :: counts, 0, h => by simp at h
  | k :: counts, n + 1, h => by
    rw [Finset.sum_range_succ', Nat.add_comm]
    simp only [count_cons_succ]
    rw [← total_eq_sum (Nat.le_of_succ_le_succ h)]
    rfl

/-- Each count is below 2³², and so is their number. -/
theorem total_le (m : Marking) : m.total ≤ m.size * (2 ^ 32 - 1) := by
  obtain ⟨counts⟩ := m
  rw [total_eq_sum (Nat.le_refl counts.length)]
  have hcount : ∀ p ∈ Finset.range counts.length, (⟨counts⟩ : Marking).count p ≤ 2 ^ 32 - 1 := fun p _ =>
    Nat.le_pred_of_lt (count_lt_size _ p)
  have hsum := Finset.sum_le_card_nsmul _ _ _ hcount
  rwa [Finset.card_range, smul_eq_mul] at hsum

theorem total_lt (h : m.size < 2 ^ 32) : m.total < 2 ^ 64 := by
  have hle := m.total_le
  have hmul : m.size * (2 ^ 32 - 1) ≤ (2 ^ 32 - 1) * (2 ^ 32 - 1) := Nat.mul_le_mul_right _ (Nat.le_pred_of_lt h)
  omega

theorem addToWord_eq_some {s : UInt64} {k : UInt32} (h : s.toNat + k.toNat < UInt64.size) :
    addToWord s k = some (s + k.toUInt64) ∧ (s + k.toUInt64).toNat = s.toNat + k.toNat := by
  refine ⟨if_pos h, ?_⟩
  rw [UInt64.toNat_add, UInt32.toNat_toUInt64, Nat.mod_eq_of_lt h]

/-- A sum that fits a word in the end has fitted all along. -/
theorem foldlM_addToWord : ∀ {counts : List UInt32} {s : UInt64}, s.toNat + (⟨counts⟩ : Marking).total < UInt64.size →
    ∃ w, counts.foldlM addToWord s = some w ∧ w.toNat = s.toNat + (⟨counts⟩ : Marking).total
  | [], s, _ => ⟨s, rfl, rfl⟩
  | k :: counts, s, h => by
    have htotal : (⟨k :: counts⟩ : Marking).total = k.toNat + (⟨counts⟩ : Marking).total := rfl
    rw [htotal, ← Nat.add_assoc] at h
    obtain ⟨hadd, hsum⟩ := addToWord_eq_some (Nat.lt_of_le_of_lt (Nat.le_add_right _ _) h)
    rw [← hsum] at h
    obtain ⟨w, hw, hvalue⟩ := foldlM_addToWord h
    refine ⟨w, ?_, by rw [hvalue, hsum, htotal, Nat.add_assoc]⟩
    rw [List.foldlM_cons, hadd]
    exact hw

/-- **The total fits a word.** -/
theorem exists_wordTotal? (h : m.size < 2 ^ 32) : ∃ w, m.wordTotal? = some w ∧ w.toNat = m.total := by
  have hfits : (0 : UInt64).toNat + m.total < UInt64.size := by
    rw [UInt64.toNat_zero, Nat.zero_add]
    exact total_lt h
  obtain ⟨w, hw, hvalue⟩ := foldlM_addToWord hfits
  rw [UInt64.toNat_zero, Nat.zero_add] at hvalue
  exact ⟨w, hw, hvalue⟩

/-! ## Covering -/

theorem covers_refl (m : Marking) : m.covers m = true := covers_iff.2 (Counts.Covers.refl _)

theorem covers_trans (hab : a.covers b = true) (hbc : b.covers c = true) : a.covers c = true :=
  covers_iff.2 ((covers_iff.1 hab).trans (covers_iff.1 hbc))

theorem covers_antisymm_iff : a.covers b = true ∧ b.covers a = true ↔ ∀ p, a.count p = b.count p := by
  rw [covers_iff, covers_iff]
  exact ⟨fun h p => Nat.le_antisymm (h.2 p) (h.1 p),
    fun h => ⟨fun p => Nat.le_of_eq (h p).symm, fun p => Nat.le_of_eq (h p)⟩⟩

/-- **More on some place, or more in all**: for a marking that covers another it is the same. -/
theorem strictlyCovers_iff : a.strictlyCovers b = true ↔ a.covers b = true ∧ ∃ p, b.count p < a.count p := by
  unfold strictlyCovers
  rw [Bool.and_eq_true, decide_eq_true_eq]
  refine and_congr_right fun hcovers => ?_
  have hle (p : Nat) : b.count p ≤ a.count p := covers_iff.1 hcovers p
  -- Both totals are sums over the same places, as many as either marking has.
  have ha := total_eq_sum (Nat.le_max_left a.size b.size)
  have hb := total_eq_sum (Nat.le_max_right a.size b.size)
  rw [ha, hb]
  constructor
  · intro hlt
    obtain ⟨p, -, hp⟩ := Finset.exists_lt_of_sum_lt hlt
    exact ⟨p, hp⟩
  · rintro ⟨p, hp⟩
    refine Finset.sum_lt_sum (fun q _ => hle q) ⟨p, Finset.mem_range.2 ?_, hp⟩
    have hmarked : a.isMarked p = true := decide_eq_true (Nat.zero_lt_of_lt hp)
    exact Nat.lt_of_lt_of_le (lt_size_of_isMarked hmarked) (Nat.le_max_left _ _)

theorem not_strictlyCovers_self (m : Marking) : m.strictlyCovers m = false := by
  rw [Bool.eq_false_iff, Ne, strictlyCovers_iff]
  rintro ⟨-, p, hp⟩
  exact Nat.lt_irrefl _ hp

theorem strictlyCovers_trans (hab : a.strictlyCovers b = true) (hbc : b.strictlyCovers c = true) :
    a.strictlyCovers c = true := by
  obtain ⟨hcovers, p, hp⟩ := strictlyCovers_iff.1 hab
  have hcovers' := (strictlyCovers_iff.1 hbc).1
  exact strictlyCovers_iff.2
    ⟨covers_trans hcovers hcovers', p, Nat.lt_of_le_of_lt (covers_iff.1 hcovers' p) hp⟩

/-- **Covering is the order of the counts**, in which a place beyond the end of a marking counts as empty.  Strict
covering is the strict order that goes with it: more on some place, although only totals are compared, and these fit
words of 64 bits. -/
theorem covers_order (a b c : Marking) (ha : a.size < 2 ^ 32) (hb : b.size < 2 ^ 32) :
    (a.covers b = true ↔ ∀ p, b.count p ≤ a.count p) ∧
    a.covers a = true ∧
    (a.covers b = true → b.covers c = true → a.covers c = true) ∧
    (a.covers b = true ∧ b.covers a = true ↔ ∀ p, a.count p = b.count p) ∧
    (a.strictlyCovers b = true ↔ a.covers b = true ∧ ∃ p, b.count p < a.count p) ∧
    a.strictlyCovers a = false ∧
    (a.strictlyCovers b = true → b.strictlyCovers c = true → a.strictlyCovers c = true) ∧
    ∃ v w, a.wordTotal? = some v ∧ b.wordTotal? = some w ∧ v.toNat = a.total ∧ w.toNat = b.total ∧
      a.strictlyCovers b = (a.covers b && w < v) := by
  refine ⟨covers_iff, covers_refl a, covers_trans, covers_antisymm_iff, strictlyCovers_iff,
    not_strictlyCovers_self a, strictlyCovers_trans, ?_⟩
  obtain ⟨v, hv, hvalue⟩ := exists_wordTotal? ha
  obtain ⟨w, hw, hvalue'⟩ := exists_wordTotal? hb
  refine ⟨v, w, hv, hw, hvalue, hvalue', ?_⟩
  unfold strictlyCovers
  rw [← hvalue, ← hvalue']
  rfl

/-- A marking with one token more than another, and one that is longer but has no more. -/
theorem longer_marking_covered : (Marking.mk [1, 1, 2]).size < 2 ^ 32 ∧
    (Marking.mk [1, 1, 2]).strictlyCovers ⟨[1, 0, 2, 0]⟩ = true ∧
    (∀ p, (Marking.mk [1, 0, 2, 0]).count p ≤ (Marking.mk [1, 1, 2]).count p) ∧
    (Marking.mk [1, 1, 2]).strictlyCovers ⟨[1]⟩ = true ∧
    (Marking.mk [1, 0, 2]).count = (Marking.mk [1, 0, 2, 0]).count := by
  obtain ⟨hcovers, -, -, -, hstrict, -, htrans, -⟩ :=
    covers_order ⟨[1, 1, 2]⟩ ⟨[1, 0, 2, 0]⟩ ⟨[1]⟩ (by decide) (by decide)
  obtain ⟨-, -, -, heq, -⟩ := covers_order ⟨[1, 0, 2]⟩ ⟨[1, 0, 2, 0]⟩ ⟨[]⟩ (by decide) (by decide)
  have h : (Marking.mk [1, 1, 2]).strictlyCovers ⟨[1, 0, 2, 0]⟩ = true := by decide
  exact ⟨by decide, h, hcovers.1 (hstrict.1 h).1, htrans h (by decide), funext (heq.1 (by decide))⟩

end Workflow.Marking
