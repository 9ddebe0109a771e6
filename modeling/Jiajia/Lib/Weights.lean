import Mathlib.Algebra.BigOperators.Field
import Mathlib.Algebra.Order.Chebyshev
import Mathlib.Tactic.FieldSimp
import Mathlib.Tactic.Linarith

/-!
# Normalised weights

Positive weights with sum one, over an ordered field, and how far some numbers lie
apart: the variance relative to the square of the mean.
-/

namespace Weights

variable {ι K : Type*} [Field K] [LinearOrder K] {s : Finset ι}

/-- Positive weights with sum one. -/
structure Normal (s : Finset ι) (w : ι → K) : Prop where
  pos : ∀ i ∈ s, 0 < w i
  sum : ∑ i ∈ s, w i = 1

theorem Normal.congr {w w' : ι → K} (h : Normal s w) (heq : ∀ i ∈ s, w' i = w i) :
    Normal s w' where
  pos i hi := heq i hi ▸ h.pos i hi
  sum := (Finset.sum_congr rfl heq).trans h.sum

variable [IsStrictOrderedRing K]

theorem Normal.uniform (hs : s.Nonempty) : Normal s fun _ => (1 : K) / s.card where
  pos _ _ := one_div_pos.mpr (Nat.cast_pos.mpr hs.card_pos)
  sum := by
    have hne : (s.card : K) ≠ 0 := Nat.cast_ne_zero.mpr hs.card_ne_zero
    rw [Finset.sum_const, nsmul_eq_mul, mul_one_div_cancel hne]

/-- Positive numbers over their total. -/
theorem Normal.rescale {w : ι → K} (hs : s.Nonempty) (hpos : ∀ i ∈ s, 0 < w i) :
    0 < ∑ i ∈ s, w i ∧ Normal s fun i => w i / ∑ j ∈ s, w j := by
  have htotal := Finset.sum_pos hpos hs
  refine ⟨htotal, fun i hi => div_pos (hpos i hi) htotal, ?_⟩
  rw [← Finset.sum_div, div_self htotal.ne']

/-- The mean of some numbers. -/
def mean (s : Finset ι) (t : ι → K) : K := (∑ i ∈ s, t i) / s.card

/-- The variance over the square of the mean. -/
def spread (s : Finset ι) (t : ι → K) : K :=
  (mean s (fun i => t i * t i) - mean s t * mean s t) / (mean s t * mean s t)

theorem mean_pos {t : ι → K} (hs : s.Nonempty) (h : 0 < ∑ i ∈ s, t i) : 0 < mean s t :=
  div_pos h (Nat.cast_pos.mpr hs.card_pos)

/-- Numbers of which one is zero lie far apart. -/
theorem spread_of_zero [DecidableEq ι] {t : ι → K} {i : ι} (hi : i ∈ s) (hzero : t i = 0)
    (hsum : 0 < ∑ j ∈ s, t j) : 1 ≤ spread s t * (s.card - 1) := by
  have hsplit : ∀ f : ι → K, f i = 0 → ∑ j ∈ s.erase i, f j = ∑ j ∈ s, f j := by
    intro f hf
    rw [← Finset.add_sum_erase s f hi, hf, zero_add]
  have hcard : ((s.erase i).card : K) = s.card - 1 := by
    rw [Finset.card_erase_of_mem hi, Nat.cast_pred (Finset.card_pos.mpr ⟨i, hi⟩)]
  have hchebyshev := sq_sum_le_card_mul_sum_sq (s := s.erase i) (f := t)
  rw [hsplit t hzero, hsplit (fun j => t j ^ 2) (by rw [hzero, zero_pow two_ne_zero]),
    hcard] at hchebyshev
  have hrest : (s.erase i).Nonempty := by
    rw [Finset.nonempty_iff_ne_empty]
    intro hempty
    have hnone := hsplit t hzero
    rw [hempty, Finset.sum_empty] at hnone
    exact hsum.ne hnone
  have hn1 : (0 : K) < s.card - 1 := by
    rw [← hcard]
    exact Nat.cast_pos.mpr hrest.card_pos
  have hmean := mean_pos ⟨i, hi⟩ hsum
  have hsq : ∑ j ∈ s, t j ^ 2 = ∑ j ∈ s, t j * t j :=
    Finset.sum_congr rfl fun j _ => pow_two (t j)
  rw [hsq] at hchebyshev
  rw [spread, div_mul_eq_mul_div, one_le_div₀ (mul_pos hmean hmean)]
  unfold mean
  generalize (∑ j ∈ s, t j) = total at *
  generalize (∑ j ∈ s, t j * t j) = squares at *
  generalize (s.card : K) = n at *
  have hn : 0 < n := by linarith
  have hn' : n ≠ 0 := hn.ne'
  calc total / n * (total / n) = (total ^ 2 / n) - (n - 1) * (total / n * (total / n)) := by
        field_simp
        ring
    _ ≤ ((n - 1) * squares / n) - (n - 1) * (total / n * (total / n)) := by
        have hdiv := div_le_div_of_nonneg_right hchebyshev hn.le
        linarith
    _ = (squares / n - total / n * (total / n)) * (n - 1) := by
        field_simp

end Weights
