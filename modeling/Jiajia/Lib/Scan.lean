import Mathlib.Data.Finset.Card
import Mathlib.Data.Fintype.Basic
import Mathlib.Logic.Function.Basic
import Mathlib.Tactic.Common

/-!
# Scanners over a row of slots

Every scanner walks once over the slots from the front and takes the first one
it finds free, while slots behind and ahead of it come free and are taken.  A
scanner cannot miss when from every position on at least as many slots are free
as there are scanners.
-/

namespace Scan

variable {ι : Type*} [Fintype ι]

/-- The scanners at a position from `j` on. -/
def scanners (pos : ι → Option Nat) (j : Nat) : Finset ι :=
  Finset.univ.filter fun t => ∃ i ∈ pos t, j ≤ i

/-- The free slots from `j` on. -/
def freeFrom (free : Finset Nat) (j : Nat) : Finset Nat := free.filter fun i => j ≤ i

/-- From every position on there are enough free slots for the scanners there. -/
def Enough (pos : ι → Option Nat) (free : Finset Nat) : Prop :=
  ∀ j, (scanners pos j).card ≤ (freeFrom free j).card

theorem mem_scanners {pos : ι → Option Nat} {j : Nat} {t : ι} :
    t ∈ scanners pos j ↔ ∃ i, pos t = some i ∧ j ≤ i := by
  simp [scanners]

theorem mem_freeFrom {free : Finset Nat} {i j : Nat} :
    i ∈ freeFrom free j ↔ i ∈ free ∧ j ≤ i := by
  simp [freeFrom]

@[simp] theorem freeFrom_zero (free : Finset Nat) : freeFrom free 0 = free := by
  ext i
  simp [mem_freeFrom]

@[simp] theorem scanners_none (j : Nat) : scanners (fun _ : ι => none) j = ∅ := by
  ext t
  simp [mem_scanners]

theorem mem_scanners_self {pos : ι → Option Nat} {t : ι} {i : Nat} (h : pos t = some i) :
    t ∈ scanners pos i :=
  mem_scanners.mpr ⟨i, h, Nat.le_refl i⟩

theorem not_mem_scanners {pos : ι → Option Nat} {t : ι} (h : pos t = none) (j : Nat) :
    t ∉ scanners pos j := by
  intro hmem
  obtain ⟨i, hi, _⟩ := mem_scanners.mp hmem
  rw [h] at hi
  cases hi

theorem freeFrom_erase (free : Finset Nat) (i j : Nat) :
    freeFrom (free.erase i) j = (freeFrom free j).erase i := by
  rw [freeFrom, freeFrom, Finset.filter_erase]

theorem freeFrom_insert (free : Finset Nat) (i j : Nat) :
    freeFrom free j ⊆ freeFrom (insert i free) j :=
  Finset.filter_subset_filter _ (Finset.subset_insert _ _)

/-! ## Moving one scanner -/

section Moves

variable [DecidableEq ι]

theorem scanners_update_none (pos : ι → Option Nat) (t : ι) (j : Nat) :
    scanners (Function.update pos t none) j = (scanners pos j).erase t := by
  ext u
  rw [Finset.mem_erase, mem_scanners, mem_scanners]
  by_cases hu : u = t
  · subst hu
    simp
  · simp [hu]

theorem scanners_update_some (pos : ι → Option Nat) (t : ι) (i j : Nat) :
    scanners (Function.update pos t (some i)) j =
      if j ≤ i then insert t (scanners pos j) else (scanners pos j).erase t := by
  ext u
  rw [mem_scanners]
  by_cases hu : u = t
  · subst hu
    split <;> simp_all
  · rw [Function.update_of_ne hu]
    split <;> simp [mem_scanners, hu]

end Moves

/-! ## The steps of the scanners -/

namespace Enough

variable {pos : ι → Option Nat} {free : Finset Nat}

theorem init (free : Finset Nat) : Enough (fun _ : ι => none) free := by
  intro j
  rw [scanners_none]
  exact Nat.zero_le _

/-- A scanner has a free slot at its position or ahead of it. -/
theorem exists_free (h : Enough pos free) {t : ι} {i : Nat} (ht : pos t = some i) :
    ∃ k ∈ free, i ≤ k := by
  have hpos : 0 < (freeFrom free i).card :=
    calc 0 < (scanners pos i).card := Finset.card_pos.mpr ⟨t, mem_scanners_self ht⟩
      _ ≤ (freeFrom free i).card := h i
  obtain ⟨k, hk⟩ := Finset.card_pos.mp hpos
  exact ⟨k, mem_freeFrom.mp hk⟩

/-- A slot comes free. -/
theorem give (h : Enough pos free) (i : Nat) : Enough pos (insert i free) :=
  fun j => (h j).trans (Finset.card_le_card (freeFrom_insert free i j))

variable [DecidableEq ι]

/-- A new scanner starts at the front while a slot is left over. -/
theorem enter (h : Enough pos free) {t : ι} (ht : pos t = none)
    (hleft : (scanners pos 0).card < free.card) :
    Enough (Function.update pos t (some 0)) free := by
  intro j
  rw [scanners_update_some]
  split
  · rename_i hj
    rw [Nat.le_zero.mp hj, freeFrom_zero,
      Finset.card_insert_of_notMem (not_mem_scanners ht 0)]
    exact hleft
  · exact (Finset.card_le_card (Finset.erase_subset _ _)).trans (h j)

/-- A scanner passes over a slot that is not free. -/
theorem skip (h : Enough pos free) {t : ι} {i : Nat} (ht : pos t = some i) (hi : i ∉ free) :
    Enough (Function.update pos t (some (i + 1))) free := by
  intro j
  rw [scanners_update_some]
  split
  · rename_i hj
    by_cases hlast : j = i + 1
    · -- nothing is free at `i`, so the bound at `i` is one for `i + 1`
      have hfree : freeFrom free (i + 1) = freeFrom free i := by
        ext k
        rw [mem_freeFrom, mem_freeFrom]
        constructor
        · rintro ⟨hk, hle⟩
          exact ⟨hk, by omega⟩
        · rintro ⟨hk, hle⟩
          have hne : k ≠ i := fun heq => hi (heq ▸ hk)
          exact ⟨hk, by omega⟩
      have hsub : insert t (scanners pos (i + 1)) ⊆ scanners pos i := by
        intro u hu
        rw [Finset.mem_insert] at hu
        cases hu with
        | inl heq => exact heq ▸ mem_scanners_self ht
        | inr hmem =>
            obtain ⟨k, hk, hle⟩ := mem_scanners.mp hmem
            exact mem_scanners.mpr ⟨k, hk, by omega⟩
      rw [hlast, hfree]
      exact (Finset.card_le_card hsub).trans (h i)
    · have hmem : t ∈ scanners pos j := mem_scanners.mpr ⟨i, ht, by omega⟩
      rw [Finset.insert_eq_of_mem hmem]
      exact h j
  · exact (Finset.card_le_card (Finset.erase_subset _ _)).trans (h j)

/-- A scanner takes the slot at its position. -/
theorem take (h : Enough pos free) {t : ι} {i : Nat} (ht : pos t = some i) :
    Enough (Function.update pos t none) (free.erase i) := by
  intro j
  rw [scanners_update_none, freeFrom_erase]
  by_cases hj : j ≤ i
  · have hmem : t ∈ scanners pos j := mem_scanners.mpr ⟨i, ht, hj⟩
    have hcard := h j
    have hge := (Finset.pred_card_le_card_erase : (freeFrom free j).card - 1 ≤ ((freeFrom free j).erase i).card)
    rw [Finset.card_erase_of_mem hmem]
    omega
  · have hnot : i ∉ freeFrom free j := fun hmem => hj (mem_freeFrom.mp hmem).2
    rw [Finset.erase_eq_of_notMem hnot]
    exact (Finset.card_le_card (Finset.erase_subset _ _)).trans (h j)

end Enough

end Scan
