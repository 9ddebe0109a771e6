import Mathlib.Order.Interval.Set.Basic
import Mathlib.Order.Interval.Set.Disjoint
import Mathlib.Order.CompletePartialOrder
import Mathlib.Order.ConditionallyCompleteLattice.Basic
import Mathlib.Data.Int.ConditionallyCompleteOrder

/-!
# Consecutive ranges of integers

Ranges with inclusive ends, each of which starts where the one before it ends.  A range may
be empty, but it never starts later than right behind its own end.
-/

namespace Ranges

/-- `n` ranges from `lo i` to `hi i`, one behind the other. -/
structure Consecutive (n : Nat) (lo hi : Nat → Int) : Prop where
  le : ∀ i < n, lo i ≤ hi i + 1
  succ : ∀ i, i + 1 < n → lo (i + 1) = hi i + 1

namespace Consecutive

variable {n : Nat} {lo hi : Nat → Int} (h : Consecutive n lo hi)

include h

/-- A range ends before a later one starts. -/
theorem hi_lt_lo {i j : Nat} (hij : i < j) (hj : j < n) : hi i < lo j := by
  induction j with
  | zero => omega
  | succ j ih =>
      have hnext := h.succ j hj
      by_cases heq : i = j
      · subst heq
        omega
      · have hlt := ih (by omega) (by omega)
        have hle := h.le j (by omega)
        omega

theorem lo_le {i : Nat} (hi' : i < n) : lo 0 ≤ lo i := by
  by_cases heq : i = 0
  · rw [heq]
  · have hlt := h.hi_lt_lo (Nat.pos_of_ne_zero heq) hi'
    have hle := h.le 0 (by omega)
    omega

theorem le_hi {i : Nat} (hi' : i < n) : hi i ≤ hi (n - 1) := by
  by_cases heq : i = n - 1
  · rw [heq]
  · have hbefore : i < n - 1 := by omega
    have hlt := h.hi_lt_lo hbefore (by omega)
    have hle := h.le (n - 1) (by omega)
    omega

theorem disjoint {i j : Nat} (hi' : i < n) (hj : j < n) (hne : i ≠ j) :
    Disjoint (Set.Icc (lo i) (hi i)) (Set.Icc (lo j) (hi j)) := by
  rw [Set.disjoint_left]
  intro x hx hx'
  obtain ⟨hlo, hhi⟩ := Set.mem_Icc.mp hx
  obtain ⟨hlo', hhi'⟩ := Set.mem_Icc.mp hx'
  cases Nat.lt_or_gt_of_ne hne with
  | inl hlt =>
      have hbefore := h.hi_lt_lo hlt hj
      omega
  | inr hlt =>
      have hbefore := h.hi_lt_lo hlt hi'
      omega

/-- What lies between the first start and the end of range `i` is in a range up to `i`. -/
theorem exists_mem {i : Nat} (hi' : i < n) {x : Int} (hlo : lo 0 ≤ x) (hhi : x ≤ hi i) :
    ∃ j ≤ i, x ∈ Set.Icc (lo j) (hi j) := by
  induction i with
  | zero => exact ⟨0, le_refl _, hlo, hhi⟩
  | succ i ih =>
      by_cases hle : lo (i + 1) ≤ x
      · exact ⟨i + 1, le_refl _, hle, hhi⟩
      · have hnext := h.succ i hi'
        obtain ⟨j, hj, hx⟩ := ih (by omega) (by omega)
        exact ⟨j, by omega, hx⟩

/-- Together the ranges are one range. -/
theorem mem_iff (hn : 0 < n) (x : Int) :
    (∃ i < n, x ∈ Set.Icc (lo i) (hi i)) ↔ x ∈ Set.Icc (lo 0) (hi (n - 1)) := by
  constructor
  · rintro ⟨i, hi', hx⟩
    obtain ⟨hlo, hhi⟩ := Set.mem_Icc.mp hx
    have hfirst := h.lo_le hi'
    have hlast := h.le_hi hi'
    exact Set.mem_Icc.mpr ⟨by omega, by omega⟩
  · intro hx
    obtain ⟨hlo, hhi⟩ := Set.mem_Icc.mp hx
    obtain ⟨j, hj, hmem⟩ := h.exists_mem (i := n - 1) (by omega) hlo hhi
    exact ⟨j, by omega, hmem⟩

end Consecutive

end Ranges
