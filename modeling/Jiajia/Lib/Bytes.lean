import Mathlib.Data.List.GetD
import Mathlib.Tactic.Ring

/-!
# Little-endian integers in a byte buffer

A buffer is a function from offsets to bytes.  `write` is `memcpy` into it,
`readLE` reads an unsigned integer of `n` bytes, least significant byte first.
-/

namespace Bytes

abbrev Byte := BitVec 8

abbrev Buffer := Nat → Byte

/-- Copy `bs` into the buffer at offset `off`. -/
def write (b : Buffer) (off : Nat) (bs : List Byte) : Buffer :=
  fun i => if off ≤ i then bs.getD (i - off) (b i) else b i

/-- The `n` low bytes of `v`, least significant first. -/
def toLE : Nat → Nat → List Byte
  | 0, _ => []
  | n + 1, v => BitVec.ofNat 8 v :: toLE n (v / 256)

/-- The unsigned `n`-byte integer at offset `off`. -/
def readLE (b : Buffer) : Nat → Nat → Nat
  | 0, _ => 0
  | n + 1, off => (b off).toNat + 256 * readLE b n (off + 1)

@[simp] theorem length_toLE (n v : Nat) : (toLE n v).length = n := by
  induction n generalizing v with
  | zero => rfl
  | succ n ih => simp [toLE, ih]

theorem write_apply_of_lt (b : Buffer) {off i : Nat} (bs : List Byte) (h : i < off) :
    write b off bs i = b i := by
  rw [write, if_neg (by omega)]

theorem write_apply_of_ge (b : Buffer) {off i : Nat} (bs : List Byte)
    (h : off + bs.length ≤ i) : write b off bs i = b i := by
  unfold write
  split
  · rw [List.getD_eq_default _ _ (by omega)]
  · rfl

theorem write_apply_add (b : Buffer) (off : Nat) {i : Nat} {bs : List Byte}
    (h : i < bs.length) : write b off bs (off + i) = bs.get ⟨i, h⟩ := by
  rw [write, if_pos (by omega), Nat.add_sub_cancel_left, List.getD_eq_getElem _ _ h]
  rfl

/-- Two buffers that agree on the bytes read give the same integer. -/
theorem readLE_congr {b b' : Buffer} {n off : Nat}
    (h : ∀ i, off ≤ i → i < off + n → b i = b' i) : readLE b n off = readLE b' n off := by
  induction n generalizing off with
  | zero => rfl
  | succ n ih =>
      have hrest : readLE b n (off + 1) = readLE b' n (off + 1) :=
        ih fun i hi hlt => h i (by omega) (by omega)
      rw [readLE, readLE, hrest, h off (by omega) (by omega)]

theorem readLE_eq_of_bytes {b : Buffer} {n off v : Nat}
    (h : ∀ i (hi : i < n), b (off + i) = (toLE n v).get ⟨i, by simpa using hi⟩) :
    readLE b n off = v % 256 ^ n := by
  induction n generalizing off v with
  | zero => simp [readLE, Nat.mod_one]
  | succ n ih =>
      have hhead : b off = BitVec.ofNat 8 v := by simpa [toLE] using h 0 (by omega)
      have htail : readLE b n (off + 1) = v / 256 % 256 ^ n := by
        apply ih
        intro i hi
        have hi' := h (i + 1) (by omega)
        rw [show off + 1 + i = off + (i + 1) by ring, hi']
        simp [toLE]
      have hpow : 256 ^ (n + 1) = 256 * 256 ^ n := Nat.pow_succ'
      rw [readLE, hhead, htail, BitVec.toNat_ofNat, hpow, Nat.mod_mul]

/-- An integer written to a buffer reads back. -/
theorem readLE_write_toLE (b : Buffer) (n off v : Nat) :
    readLE (write b off (toLE n v)) n off = v % 256 ^ n := by
  apply readLE_eq_of_bytes
  intro i hi
  exact write_apply_add b off (by simpa using hi)

/-- A read in front of the bytes written is not affected. -/
theorem readLE_write_of_le (b : Buffer) {n off woff : Nat} (bs : List Byte)
    (h : off + n ≤ woff) : readLE (write b woff bs) n off = readLE b n off := by
  apply readLE_congr
  intro i _ hlt
  exact write_apply_of_lt b bs (by omega)

/-- Reading the first bytes of an integer gives its low part. -/
theorem readLE_mod (b : Buffer) (n k off : Nat) :
    readLE b (n + k) off % 256 ^ n = readLE b n off := by
  induction n generalizing off with
  | zero => simp [readLE, Nat.mod_one]
  | succ n ih =>
      have hlt : (b off).toNat < 256 := (b off).isLt
      rw [Nat.succ_add, readLE, readLE, Nat.pow_succ', Nat.mod_mul, Nat.add_mul_mod_self_left,
        Nat.mod_eq_of_lt hlt, Nat.add_mul_div_left _ _ (by omega), Nat.div_eq_of_lt hlt,
        Nat.zero_add, ih]

end Bytes
