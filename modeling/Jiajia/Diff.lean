import Jiajia.Global

/-!
# Diffs

`encodediff` lists the runs of 4-byte units in which a cached page differs
from its twin; `diffserver` copies the runs into the home page.
-/

namespace Jiajia

/-- The unit at index `i` of a page. -/
def Page.unit (pg : Page) (i : Nat) : Word := if h : i < Pageunits then pg ⟨i, h⟩ else 0

@[simp] theorem Page.unit_val (pg : Page) (u : Fin Pageunits) : pg.unit u = pg u := by
  simp [Page.unit]

/-- A run of changed units: where it starts, and the units. -/
structure DiffRun where
  start : Nat
  units : List Word
deriving DecidableEq, Repr

/-- What `encodediff` writes for one page. -/
structure PageDiff where
  addr : Addr
  runs : List DiffRun
deriving DecidableEq, Repr

namespace PageDiff

/-- Bytes of the encoding: the address, the size field, and for each run a
header and its units. -/
def size (d : PageDiff) : Nat :=
  Addrbytes + Intbytes + (d.runs.map fun r => Intbytes + Diffunit * r.units.length).sum

end PageDiff

/-! ## `encodediff` -/

/-- The inner loops of `encodediff`: advance from `i` while `P` holds, at most
`k` units. -/
def advance (P : Nat → Bool) : Nat → Nat → Nat
  | 0, i => i
  | k + 1, i => if P i then advance P k (i + 1) else i

/-- The outer loop of `encodediff` from unit `i` on.  Every turn passes a unit
that differs, so `fuel` turns are enough for `fuel` units. -/
def encodeRuns (cur twin : Page) : Nat → Nat → List DiffRun
  | 0, _ => []
  | fuel + 1, i =>
      let start := advance (fun j => cur.unit j == twin.unit j) (Pageunits - i) i
      if start < Pageunits then
        let stop := advance (fun j => cur.unit j != twin.unit j) (Pageunits - start) start
        ⟨start, (List.range' start (stop - start)).map cur.unit⟩ :: encodeRuns cur twin fuel stop
      else []

/-- `encodediff` for the page at `addr`. -/
def encodediff (addr : Addr) (cur twin : Page) : PageDiff :=
  ⟨addr, encodeRuns cur twin Pageunits 0⟩

/-! ## Applying a diff -/

/-- One `memcpy` of `diffserver`. -/
def DiffRun.apply (r : DiffRun) (pg : Page) : Page :=
  fun u => if r.start ≤ u.val then r.units.getD (u.val - r.start) (pg u) else pg u

/-- The inner loop of `diffserver`. -/
def applyRuns (runs : List DiffRun) (pg : Page) : Page :=
  runs.foldl (fun pg r => r.apply pg) pg

/-- The page with the units of `cur` wherever `cur` and `twin` differ. -/
def mergeDiff (cur twin pg : Page) : Page :=
  fun u => if cur u = twin u then pg u else cur u

section Advance

variable {P : Nat → Bool} {k i : Nat}

theorem le_advance (P : Nat → Bool) (k i : Nat) : i ≤ advance P k i := by
  induction k generalizing i with
  | zero => exact Nat.le_refl i
  | succ k ih =>
      simp only [advance]
      split
      · exact (Nat.le_succ i).trans (ih (i + 1))
      · exact Nat.le_refl i

theorem advance_le (P : Nat → Bool) (k i : Nat) : advance P k i ≤ i + k := by
  induction k generalizing i with
  | zero => exact Nat.le_refl i
  | succ k ih =>
      simp only [advance]
      split
      · have := ih (i + 1)
        omega
      · omega

theorem advance_passed {j : Nat} (hi : i ≤ j) (hj : j < advance P k i) : P j = true := by
  induction k generalizing i with
  | zero =>
      simp only [advance] at hj
      omega
  | succ k ih =>
      simp only [advance] at hj
      split at hj
      · rename_i hP
        rcases Nat.lt_or_eq_of_le hi with hlt | rfl
        · exact ih hlt hj
        · exact hP
      · omega

theorem advance_stop (h : advance P k i < i + k) : P (advance P k i) = false := by
  induction k generalizing i with
  | zero =>
      simp only [advance] at h
      omega
  | succ k ih =>
      simp only [advance] at h ⊢
      split
      · rename_i hP
        rw [if_pos hP] at h
        exact ih (by omega)
      · rename_i hP
        simpa using hP

end Advance

theorem DiffRun.apply_of_mem {r : DiffRun} {pg : Page} {u : Fin Pageunits}
    (h₁ : r.start ≤ u.val) (h₂ : u.val < r.start + r.units.length) :
    r.apply pg u = r.units.get ⟨u.val - r.start, by omega⟩ := by
  rw [DiffRun.apply, if_pos h₁, List.getD_eq_getElem?_getD, List.getElem?_eq_getElem (by omega)]
  rfl

theorem DiffRun.apply_of_not_mem {r : DiffRun} {pg : Page} {u : Fin Pageunits}
    (h : u.val < r.start ∨ r.start + r.units.length ≤ u.val) : r.apply pg u = pg u := by
  unfold DiffRun.apply
  split
  · rw [List.getD_eq_getElem?_getD, List.getElem?_eq_none (by omega)]
    rfl
  · rfl

/-- The runs from unit `i` on merge exactly the units from `i` on that differ. -/
theorem applyRuns_encodeRuns (cur twin pg : Page) {fuel i : Nat} (h : Pageunits ≤ i + fuel) :
    applyRuns (encodeRuns cur twin fuel i) pg =
      fun u => if i ≤ u.val ∧ cur u ≠ twin u then cur u else pg u := by
  induction fuel generalizing i pg with
  | zero =>
      funext u
      have hu := u.isLt
      rw [if_neg (by omega)]
      rfl
  | succ fuel ih =>
      simp only [encodeRuns]
      generalize hstart : advance (fun j => cur.unit j == twin.unit j) (Pageunits - i) i = start
      have hle : i ≤ start := hstart ▸ le_advance _ _ _
      have hsame : ∀ u : Fin Pageunits, i ≤ u.val → u.val < start → cur u = twin u := by
        intro u hi hu
        have hP := advance_passed hi (hstart.symm ▸ hu)
        simpa using hP
      split
      · rename_i hlt
        generalize hstop : advance (fun j => cur.unit j != twin.unit j) (Pageunits - start) start
          = stop
        have hdiffer : ∀ u : Fin Pageunits, start ≤ u.val → u.val < stop → cur u ≠ twin u := by
          intro u hs hu
          have hP := advance_passed hs (hstop.symm ▸ hu)
          simpa using hP
        have hfirst : cur ⟨start, hlt⟩ ≠ twin ⟨start, hlt⟩ := by
          have hP := advance_stop (P := fun j => cur.unit j == twin.unit j)
            (k := Pageunits - i) (i := i) (by omega)
          rw [hstart] at hP
          simpa [Page.unit, hlt] using hP
        -- the run is not empty: its first unit differs
        have hpos : start < stop := by
          rcases Nat.lt_or_eq_of_le (hstop ▸ le_advance _ _ _ : start ≤ stop) with hs | rfl
          · exact hs
          · have hP := advance_stop (P := fun j => cur.unit j != twin.unit j)
              (k := Pageunits - start) (i := start) (by omega)
            rw [hstop] at hP
            exact absurd (by simpa [Page.unit, hlt] using hP) hfirst
        simp only [applyRuns, List.foldl_cons]
        have hrest := ih (DiffRun.apply
          ⟨start, (List.range' start (stop - start)).map cur.unit⟩ pg) (i := stop) (by omega)
        rw [applyRuns] at hrest
        rw [hrest]
        funext u
        by_cases hu : stop ≤ u.val ∧ cur u ≠ twin u
        · rw [if_pos hu, if_pos ⟨by omega, hu.2⟩]
        · rw [if_neg hu]
          by_cases hin : start ≤ u.val ∧ u.val < stop
          · rw [if_pos ⟨by omega, hdiffer u hin.1 hin.2⟩, DiffRun.apply_of_mem hin.1 (by simp; omega)]
            simp [Nat.add_sub_cancel' hin.1]
          · rw [DiffRun.apply_of_not_mem (by simp; omega), if_neg]
            rintro ⟨hi, hne⟩
            by_cases hs : u.val < start
            · exact hne (hsame u hi hs)
            · exact hu ⟨by omega, hne⟩
      · funext u
        have hu := u.isLt
        rw [if_neg]
        · rfl
        · rintro ⟨hi, hne⟩
          exact hne (hsame u hi (by omega))

/-- Applying the diff of a page merges the units that differ from the twin, and
no others. -/
theorem applyRuns_encodediff (addr : Addr) (cur twin pg : Page) :
    applyRuns (encodediff addr cur twin).runs pg = mergeDiff cur twin pg := by
  rw [encodediff, applyRuns_encodeRuns cur twin pg (by omega)]
  funext u
  by_cases h : cur u = twin u <;> simp [mergeDiff, h]

end Jiajia
