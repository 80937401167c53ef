import Workflow.Failure
import Workflow.Net.Build
/-!
# Marking — how many tokens lie on each place

A marking is the list of token counts by place number.  A count is a 32-bit word and never wraps: what
would leave that range is a failure.  Reading is total, and a place beyond the end of the list reads as
empty, so markings of different lengths, also those made for another net, can be read and compared.
-/
namespace Workflow

structure Marking where
  counts : List UInt32 := []
deriving DecidableEq, Repr, Inhabited

namespace Marking

/-- The number of places the marking has a count for. -/
def size (m : Marking) : Nat := m.counts.length

def count (m : Marking) (p : PlaceId) : Nat := (m.counts[p]?).elim 0 UInt32.toNat

def isMarked (m : Marking) (p : PlaceId) : Bool := 0 < m.count p

def marked (m : Marking) : List PlaceId := (List.range m.size).filter m.isMarked

def total (m : Marking) : Nat := m.counts.foldr (fun c n => c.toNat + n) 0

def isEmpty (m : Marking) : Bool := m.counts.all (· == 0)

/-! ## Markings of a net -/

def empty (net : Net) : Marking := ⟨List.replicate net.places.length 0⟩

/-- One token on the source. -/
def initial (net : Net) : Marking := ⟨(List.replicate net.places.length 0).set net.source 1⟩

/-! ## Changing single counts -/

def add (m : Marking) (p : PlaceId) (n : Nat) : Except Failure Marking :=
  match m.counts[p]? with
  | none => .error (.badValue (.noSuchPlace p))
  | some c =>
    if c.toNat + n < UInt32.size then .ok ⟨m.counts.set p (UInt32.ofNat (c.toNat + n))⟩
    else .error (.conflict (.countOverflow p))

def remove (m : Marking) (p : PlaceId) (n : Nat) : Except Failure Marking :=
  match m.counts[p]? with
  | none => .error (.badValue (.noSuchPlace p))
  | some c =>
    if n ≤ c.toNat then .ok ⟨m.counts.set p (UInt32.ofNat (c.toNat - n))⟩
    else .error (.conflict (.countUnderflow p n c.toNat))

/-- Empties a place, and tells how many tokens were taken. -/
def clearPlace (m : Marking) (p : PlaceId) : Except Failure (Nat × Marking) :=
  match m.counts[p]? with
  | none => .error (.badValue (.noSuchPlace p))
  | some c => .ok (c.toNat, ⟨m.counts.set p 0⟩)

def clear (m : Marking) : Marking := ⟨m.counts.map (fun _ => 0)⟩

/-! ## Comparing -/

def covers (m n : Marking) : Bool :=
  (List.range (max m.size n.size)).all (fun p => n.count p ≤ m.count p)

/-- Covers `n` and holds more tokens in all. -/
def strictlyCovers (m n : Marking) : Bool := m.covers n && n.total < m.total

/-! ## What the operations do to the counts -/

variable {m m' : Marking} {p q : PlaceId} {n : Nat}

theorem count_eq_zero_of_size_le (h : m.size ≤ p) : m.count p = 0 := by
  rw [count, List.getElem?_eq_none h, Option.elim_none]

theorem lt_size_of_isMarked (h : m.isMarked p) : p < m.size := by
  apply Decidable.byContradiction
  intro hp
  simp [isMarked, count_eq_zero_of_size_le (Nat.le_of_not_lt hp)] at h

theorem mem_marked : p ∈ m.marked ↔ m.isMarked p := by
  simp only [marked, List.mem_filter, List.mem_range, and_iff_right_iff_imp]
  exact lt_size_of_isMarked

theorem count_of_getElem? {c : UInt32} (h : m.counts[p]? = some c) : m.count p = c.toNat := by
  rw [count, h, Option.elim_some]

theorem count_set {c : UInt32} (h : p < m.size) (q : PlaceId) :
    (⟨m.counts.set p c⟩ : Marking).count q = if q = p then c.toNat else m.count q := by
  simp only [count, List.getElem?_set]
  by_cases hq : q = p
  · subst hq
    have h' : q < m.counts.length := h
    simp [h']
  · simp [hq, Ne.symm hq]

theorem toNat_ofNat_of_lt_size (h : n < UInt32.size) : (UInt32.ofNat n).toNat = n := by
  rw [UInt32.toNat_ofNat']
  exact Nat.mod_eq_of_lt h

theorem count_lt_size (m : Marking) (p : PlaceId) : m.count p < UInt32.size := by
  unfold count
  cases m.counts[p]? with
  | none => decide
  | some n => exact UInt32.toNat_lt_size n

theorem size_of_add (h : m.add p n = .ok m') : m'.size = m.size := by
  unfold add at h
  split at h
  · cases h
  · split at h
    · cases h; simp [size]
    · cases h

theorem count_of_add (h : m.add p n = .ok m') (q : PlaceId) :
    m'.count q = if q = p then m.count p + n else m.count q := by
  unfold add at h
  split at h
  · cases h
  · rename_i c hc
    split at h
    · rename_i hlt
      cases h
      have hp : p < m.size := (List.getElem?_eq_some_iff.1 hc).1
      rw [count_set hp, toNat_ofNat_of_lt_size hlt, count_of_getElem? hc]
    · cases h

theorem size_of_remove (h : m.remove p n = .ok m') : m'.size = m.size := by
  unfold remove at h
  split at h
  · cases h
  · split at h
    · cases h; simp [size]
    · cases h

theorem count_of_remove (h : m.remove p n = .ok m') (q : PlaceId) :
    m'.count q = if q = p then m.count p - n else m.count q := by
  unfold remove at h
  split at h
  · cases h
  · rename_i c hc
    split at h
    · rename_i hle
      cases h
      have hp : p < m.size := (List.getElem?_eq_some_iff.1 hc).1
      have hlt : c.toNat - n < UInt32.size := Nat.lt_of_le_of_lt (Nat.sub_le _ _) (UInt32.toNat_lt_size c)
      rw [count_set hp, toNat_ofNat_of_lt_size hlt, count_of_getElem? hc]
    · cases h

theorem le_count_of_remove (h : m.remove p n = .ok m') : n ≤ m.count p := by
  unfold remove at h
  split at h
  · cases h
  · rename_i c hc
    split at h
    · rwa [count_of_getElem? hc]
    · cases h

theorem eq_count_of_clearPlace (h : m.clearPlace p = .ok (n, m')) : n = m.count p := by
  unfold clearPlace at h
  split at h
  · cases h
  · rename_i c hc
    cases h
    exact (count_of_getElem? hc).symm

theorem count_clear (m : Marking) (p : PlaceId) : m.clear.count p = 0 := by
  simp only [count, clear, List.getElem?_map]
  cases m.counts[p]? <;> rfl

end Marking

end Workflow
