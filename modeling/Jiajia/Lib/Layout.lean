import Jiajia.Lib.Bytes

/-!
# Fields back to back in a buffer

`At b off bs`: the buffer holds the bytes `bs` from offset `off` on.  A record is read
field by field once its bytes are known to stand somewhere.
-/

namespace Bytes

/-- The bytes `bs` stand in the buffer from `off` on. -/
def At (b : Buffer) (off : Nat) (bs : List Byte) : Prop :=
  ∀ i (h : i < bs.length), b (off + i) = bs.get ⟨i, h⟩

variable {b : Buffer} {off : Nat} {bs cs : List Byte}

theorem at_nil : At b off [] := fun _ h => absurd h (Nat.not_lt_zero _)

theorem at_append : At b off (bs ++ cs) ↔ At b off bs ∧ At b (off + bs.length) cs := by
  constructor
  · intro h
    refine ⟨?_, ?_⟩
    · intro i hi
      rw [h i (by rw [List.length_append]; omega)]
      simp [List.getElem_append_left hi]
    · intro i hi
      rw [Nat.add_assoc, h (bs.length + i) (by rw [List.length_append]; omega)]
      simp
  · rintro ⟨hb, hc⟩ i hi
    rw [List.length_append] at hi
    by_cases hlt : i < bs.length
    · rw [hb i hlt]
      simp [List.getElem_append_left hlt]
    · have hsub : off + i = off + bs.length + (i - bs.length) := by omega
      rw [hsub, hc (i - bs.length) (by omega)]
      simp [List.getElem_append_right (Nat.le_of_not_lt hlt)]

/-- An integer is read back where its bytes stand. -/
theorem At.readLE {n v : Nat} (h : At b off (toLE n v)) : readLE b n off = v % 256 ^ n :=
  readLE_eq_of_bytes fun i hi => h i (by simpa using hi)

/-- The bytes of a list, and anything behind them. -/
def overlay (bs : List Byte) (rest : Buffer) : Buffer := fun i => bs.getD i (rest i)

theorem at_overlay (bs : List Byte) (rest : Buffer) : At (overlay bs rest) 0 bs := by
  intro i hi
  rw [overlay, Nat.zero_add, List.getD_eq_getElem _ _ hi]
  rfl

/-- The low half of an integer of twice the size. -/
theorem At.readLE_low {n k v : Nat} (h : At b off (toLE n v)) :
    Bytes.readLE b (n + k) off % 256 ^ n = v % 256 ^ n := by
  rw [readLE_mod, h.readLE]

/-! ## Copying a record -/

/-- The `n` bytes from `off` on. -/
def readBytes (b : Buffer) (off n : Nat) : List Byte := (List.range' off n).map b

@[simp] theorem length_readBytes (b : Buffer) (off n : Nat) : (readBytes b off n).length = n := by
  rw [readBytes, List.length_map, List.length_range']

theorem At.readBytes (h : At b off bs) : Bytes.readBytes b off bs.length = bs := by
  apply List.ext_getElem
  · rw [length_readBytes]
  · intro i _ hi
    simp only [Bytes.readBytes, List.getElem_map, List.getElem_range', Nat.one_mul]
    exact h i hi

theorem at_write (b : Buffer) (off : Nat) (bs : List Byte) : At (write b off bs) off bs :=
  fun _ h => write_apply_add b off h

/-- A list of records of `k` bytes each: record `i` stands `k * i` bytes in. -/
theorem At.flatMap_get {α : Type} {f : α → List Byte} {k : Nat} {xs : List α}
    (hlen : ∀ x, (f x).length = k) (h : At b off (xs.flatMap f)) {i : Nat} (hi : i < xs.length) :
    At b (off + k * i) (f (xs.get ⟨i, hi⟩)) := by
  induction xs generalizing off i with
  | nil => exact absurd hi (Nat.not_lt_zero _)
  | cons x xs ih =>
      rw [List.flatMap_cons, at_append, hlen] at h
      cases i with
      | zero => exact h.1
      | succ i =>
          have hoff : off + k * (i + 1) = off + k + k * i := by ring
          rw [hoff]
          exact ih h.2 (Nat.lt_of_succ_lt_succ hi)

theorem length_flatMap_const {α : Type} {f : α → List Byte} {k : Nat}
    (hlen : ∀ x, (f x).length = k) (xs : List α) : (xs.flatMap f).length = k * xs.length := by
  induction xs with
  | nil => rfl
  | cons x xs ih =>
      rw [List.flatMap_cons, List.length_append, hlen, ih, List.length_cons]
      ring

theorem At.write_behind {woff : Nat} (h : At b off bs) (hle : off + bs.length ≤ woff) :
    At (write b woff cs) off bs := by
  intro i hi
  rw [write_apply_of_lt b cs (by omega), h i hi]

theorem At.write_before {woff : Nat} (h : At b off bs) (hle : woff + cs.length ≤ off) :
    At (write b woff cs) off bs := by
  intro i hi
  rw [write_apply_of_ge b cs (by omega), h i hi]

theorem toLE_get {n v i : Nat} (h : i < (toLE n v).length) :
    (toLE n v).get ⟨i, h⟩ = BitVec.ofNat 8 (v / 256 ^ i) := by
  induction n generalizing v i with
  | zero => simp [toLE] at h
  | succ n ih =>
      cases i with
      | zero => simp [toLE]
      | succ i =>
          have hi : i < (toLE n (v / 256)).length := by simpa using h
          show (toLE n (v / 256)).get ⟨i, hi⟩ = _
          rw [ih hi, Nat.div_div_eq_div_mul, Nat.pow_succ']

end Bytes
