import Mathlib.Data.Finset.Card

/-!
# Counting parties

How many of infinitely many parties have a property that only finitely many have.
-/

namespace Census

variable {ι : Type*} [DecidableEq ι]

/-- Exactly `n` parties have the property. -/
def Count (P : ι → Prop) (n : Nat) : Prop := ∃ s : Finset ι, (∀ i, i ∈ s ↔ P i) ∧ s.card = n

variable {P P' : ι → Prop} {n : Nat} {i : ι}

omit [DecidableEq ι] in
theorem Count.none (h : ∀ i, ¬ P i) : Count P 0 :=
  ⟨∅, fun i => ⟨fun hi => absurd hi (Finset.notMem_empty i), fun hi => absurd hi (h i)⟩, rfl⟩

omit [DecidableEq ι] in
theorem Count.congr (hc : Count P n) (h : ∀ i, P' i ↔ P i) : Count P' n := by
  obtain ⟨s, hs, hcard⟩ := hc
  exact ⟨s, fun i => (hs i).trans (h i).symm, hcard⟩

/-- One more party. -/
theorem Count.join (hc : Count P n) (hi : ¬ P i) (h : ∀ j, P' j ↔ j = i ∨ P j) :
    Count P' (n + 1) := by
  obtain ⟨s, hs, hcard⟩ := hc
  refine ⟨insert i s, ?_, ?_⟩
  · intro j
    rw [Finset.mem_insert, hs, h]
  · rw [Finset.card_insert_of_notMem (mt (hs i).mp hi), hcard]

/-- One party less. -/
theorem Count.leave (hc : Count P n) (hi : P i) (h : ∀ j, P' j ↔ j ≠ i ∧ P j) :
    0 < n ∧ Count P' (n - 1) := by
  obtain ⟨s, hs, hcard⟩ := hc
  have hmem := (hs i).mpr hi
  constructor
  · rw [← hcard]
    exact Finset.card_pos.mpr ⟨i, hmem⟩
  · refine ⟨s.erase i, ?_, ?_⟩
    · intro j
      rw [Finset.mem_erase, hs, h]
    · rw [Finset.card_erase_of_mem hmem, hcard]

omit [DecidableEq ι] in
theorem Count.pos (hc : Count P n) (hi : P i) : 0 < n := by
  obtain ⟨s, hs, hcard⟩ := hc
  rw [← hcard]
  exact Finset.card_pos.mpr ⟨i, (hs i).mpr hi⟩

end Census
