import Mathlib.Algebra.BigOperators.Group.Finset.Basic
import Mathlib.Data.List.GetD

/-!
# Values gathered from many parties

An operation that puts together what it says about disjoint sets of parties: sums, greatest
and least values, and all of these element by element.
-/

namespace Gather

variable {ι α : Type*} [DecidableEq ι]

/-- What the value gathered from a set of parties says about their contributions. -/
structure Summary (ι α : Type*) [DecidableEq ι] where
  op : α → α → α
  holds : (ι → α) → Finset ι → α → Prop
  single : ∀ f i, holds f {i} (f i)
  union : ∀ f s t a b, Disjoint s t → holds f s a → holds f t b → holds f (s ∪ t) (op a b)

namespace Summary

/-- The sum of all contributions. -/
def sum [AddCommMonoid α] : Summary ι α where
  op a b := a + b
  holds f s a := a = ∑ i ∈ s, f i
  single f i := (Finset.sum_singleton f i).symm
  union f s t a b hdisj ha hb := by rw [Finset.sum_union hdisj, ha, hb]

/-- A contribution that no other one exceeds; of two equal ones the second is kept. -/
def greatest (r : α → α → Prop) [DecidableRel r] (total : ∀ a b, r a b ∨ r b a)
    (trans : ∀ a b c, r a b → r b c → r a c) : Summary ι α where
  op a b := if r a b then b else a
  holds f s a := (∃ i ∈ s, a = f i) ∧ ∀ i ∈ s, r (f i) a
  single f i := by
    refine ⟨⟨i, Finset.mem_singleton_self i, rfl⟩, ?_⟩
    intro j hj
    rw [Finset.mem_singleton.mp hj]
    exact (total (f i) (f i)).elim id id
  union f s t a b _ ha hb := by
    obtain ⟨⟨i, hi, hai⟩, hs⟩ := ha
    obtain ⟨⟨j, hj, hbj⟩, ht⟩ := hb
    by_cases hab : r a b
    · rw [if_pos hab]
      refine ⟨⟨j, Finset.mem_union_right _ hj, hbj⟩, ?_⟩
      intro k hk
      cases Finset.mem_union.mp hk with
      | inl hleft => exact trans _ _ _ (hs k hleft) hab
      | inr hright => exact ht k hright
    · rw [if_neg hab]
      have hba := (total a b).resolve_left hab
      refine ⟨⟨i, Finset.mem_union_left _ hi, hai⟩, ?_⟩
      intro k hk
      cases Finset.mem_union.mp hk with
      | inl hleft => exact hs k hleft
      | inr hright => exact trans _ _ _ (ht k hright) hba

/-- Lists of `n` values, element by element; `d` stands where a list has ended. -/
structure Pointwise (S : Summary ι α) (d : α) (n : Nat) (f : ι → List α) (s : Finset ι)
    (l : List α) : Prop where
  length : l.length = n
  holds : ∀ k < n, S.holds (fun i => (f i).getD k d) s (l.getD k d)

variable {S : Summary ι α} {d : α} {n : Nat} {f : ι → List α} {s t : Finset ι} {l l' : List α}

theorem Pointwise.single {i : ι} (h : (f i).length = n) : S.Pointwise d n f {i} (f i) where
  length := h
  holds k _ := S.single (fun i => (f i).getD k d) i

theorem Pointwise.union (hdisj : Disjoint s t) (hl : S.Pointwise d n f s l)
    (hl' : S.Pointwise d n f t l') :
    S.Pointwise d n f (s ∪ t) (List.zipWith S.op l l') where
  length := by rw [List.length_zipWith, hl.length, hl'.length, Nat.min_self]
  holds k hk := by
    have hlt : k < l.length := hl.length.symm ▸ hk
    have hlt' : k < l'.length := hl'.length.symm ▸ hk
    have hzip : k < (List.zipWith S.op l l').length := by
      rw [List.length_zipWith]
      exact lt_min hlt hlt'
    have hget : (List.zipWith S.op l l').getD k d = S.op (l.getD k d) (l'.getD k d) := by
      rw [List.getD_eq_getElem _ _ hzip, List.getElem_zipWith, List.getD_eq_getElem _ _ hlt,
        List.getD_eq_getElem _ _ hlt']
    rw [hget]
    exact S.union _ s t _ _ hdisj (hl.holds k hk) (hl'.holds k hk)

end Summary

end Gather
