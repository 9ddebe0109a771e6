import Mathlib.Data.Nat.Bitwise
import Mathlib.Data.Nat.ModEq
import Mathlib.Data.List.Basic
import Mathlib.Logic.Function.Basic
import Mathlib.Tactic.Ring

/-!
# Ring buffers with a mask

A ring of slots whose indices advance with `& (size - 1)`, with one counter of
free and one of filled slots.  The consumer works on the slot it has taken and
frees it afterwards.  When the size is a power of two, the ring is a queue.
-/

namespace MaskRing

universe u

variable {α : Type u}

/-- A ring of slots; `taken` is the slot the consumer works on. -/
structure Buffer (α : Type u) where
  slot : Nat → α
  head : Nat
  tail : Nat
  busy : Nat
  free : Nat
  taken : Option Nat

/-- The next index. -/
def succ (size i : Nat) : Nat := (i + 1) &&& (size - 1)

namespace Buffer

def init (size : Nat) (x : α) : Buffer α where
  slot _ := x
  head := 0
  tail := 0
  busy := 0
  free := size
  taken := none

/-- Fill the slot at the tail; without a free slot the producer waits. -/
def put (size : Nat) (r : Buffer α) (x : α) : Option (Buffer α) :=
  if 0 < r.free then
    some { r with
      slot := Function.update r.slot r.tail x
      tail := succ size r.tail
      busy := r.busy + 1
      free := r.free - 1 }
  else none

/-- Take the slot at the head; without a filled slot the consumer waits. -/
def take (size : Nat) (r : Buffer α) : Option (Buffer α) :=
  if r.taken = none ∧ 0 < r.busy then
    some { r with
      head := succ size r.head
      busy := r.busy - 1
      taken := some r.head }
  else none

/-- What the slot holds on which the consumer works. -/
def cur (r : Buffer α) : Option α := r.taken.map r.slot

/-- Write to the slot on which the consumer works. -/
def setCur (r : Buffer α) (x : α) : Buffer α :=
  match r.taken with
  | none => r
  | some i => { r with slot := Function.update r.slot i x }

/-- Give the slot back. -/
def release (r : Buffer α) : Buffer α := { r with free := r.free + 1, taken := none }

end Buffer

/-! ## The queue in the ring -/

/-- A bounded queue with an element in hand. -/
structure Queue (α : Type u) where
  cur : Option α
  rest : List α

namespace Queue

/-- The elements that occupy a slot. -/
def all (q : Queue α) : List α := q.cur.toList ++ q.rest

def init : Queue α := ⟨none, []⟩

def put (size : Nat) (q : Queue α) (x : α) : Option (Queue α) :=
  if q.all.length < size then some ⟨q.cur, q.rest ++ [x]⟩ else none

def take (q : Queue α) : Option (Queue α) :=
  match q.cur, q.rest with
  | none, x :: xs => some ⟨some x, xs⟩
  | _, _ => none

def setCur (q : Queue α) (x : α) : Queue α := ⟨q.cur.map fun _ => x, q.rest⟩

def release (q : Queue α) : Queue α := ⟨none, q.rest⟩

@[simp] theorem all_mk_none (l : List α) : (⟨none, l⟩ : Queue α).all = l := rfl

@[simp] theorem all_mk_some (x : α) (l : List α) : (⟨some x, l⟩ : Queue α).all = x :: l := rfl

theorem put_eq_some {size : Nat} {q q' : Queue α} {x : α} (h : q.put size x = some q') :
    q.all.length < size ∧ q' = ⟨q.cur, q.rest ++ [x]⟩ := by
  rw [put] at h
  split at h
  · rename_i hlt
    exact ⟨hlt, (Option.some.inj h).symm⟩
  · cases h

theorem take_eq_some {q q' : Queue α} (h : q.take = some q') :
    ∃ x, q = ⟨none, x :: q'.rest⟩ ∧ q'.cur = some x := by
  obtain ⟨cur, rest⟩ := q
  rw [take] at h
  split at h
  · rename_i x xs hcur hrest
    dsimp only at hcur hrest
    subst hcur hrest
    rw [← Option.some.inj h]
    exact ⟨x, rfl, rfl⟩
  · cases h

end Queue

theorem succ_eq_mod {k : Nat} (i : Nat) : succ (2 ^ k) i = (i + 1) % 2 ^ k :=
  Nat.and_two_pow_sub_one_eq_mod _ _

theorem succ_mod {k : Nat} (i : Nat) : succ (2 ^ k) (i % 2 ^ k) = (i + 1) % 2 ^ k := by
  rw [succ_eq_mod, Nat.mod_add_mod]

theorem add_mod_ne {size a i j : Nat} (hi : i < size) (hj : j < size) (hne : i ≠ j) :
    (a + i) % size ≠ (a + j) % size := by
  intro h
  have hmod : i ≡ j [MOD size] := Nat.ModEq.add_left_cancel' a h
  exact hne (hmod.eq_of_lt_of_lt hi hj)

/-- The ring holds the elements of the queue in consecutive slots from `base` on. -/
structure Holds (size : Nat) (r : Buffer α) (base : Nat) (q : Queue α) : Prop where
  head : r.head = (base + q.cur.toList.length) % size
  tail : r.tail = (base + q.all.length) % size
  busy : r.busy = q.rest.length
  free : r.free + q.all.length = size
  taken : r.taken = q.cur.map fun _ => base % size
  slot : ∀ i x, q.all[i]? = some x → r.slot ((base + i) % size) = x

/-- The ring is the queue. -/
def Models (size : Nat) (r : Buffer α) (q : Queue α) : Prop := ∃ base, Holds size r base q

section

variable {k : Nat} {r r' : Buffer α} {q : Queue α} {x : α}

theorem models_init (x : α) : Models (2 ^ k) (Buffer.init (2 ^ k) x) Queue.init := by
  refine ⟨0, ?_, ?_, rfl, rfl, rfl, ?_⟩
  · exact (Nat.zero_mod _).symm
  · exact (Nat.zero_mod _).symm
  · intro i y hy
    simp [Queue.init, Queue.all] at hy

theorem Models.put (h : Models (2 ^ k) r q) (hput : r.put (2 ^ k) x = some r') :
    ∃ q', q.put (2 ^ k) x = some q' ∧ Models (2 ^ k) r' q' := by
  obtain ⟨base, h⟩ := h
  rw [Buffer.put] at hput
  split at hput
  · rename_i hfree
    have hlt : q.all.length < 2 ^ k := by
      have := h.free
      omega
    have hall : (⟨q.cur, q.rest ++ [x]⟩ : Queue α).all = q.all ++ [x] := by
      rw [Queue.all, Queue.all, List.append_assoc]
    rw [← Option.some.inj hput]
    refine ⟨⟨q.cur, q.rest ++ [x]⟩, by rw [Queue.put, if_pos hlt], base, h.head, ?_, ?_, ?_,
      h.taken, ?_⟩
    · rw [hall, List.length_append, List.length_singleton, ← Nat.add_assoc, ← succ_mod, ← h.tail]
    · rw [List.length_append, List.length_singleton, ← h.busy]
    · rw [hall, List.length_append, List.length_singleton]
      have := h.free
      dsimp only
      omega
    · intro i y hy
      rw [hall, List.getElem?_append] at hy
      split at hy
      · rename_i hi
        have hne : (base + i) % 2 ^ k ≠ r.tail := by
          rw [h.tail]
          exact add_mod_ne (by omega) hlt (by omega)
        dsimp only
        rw [Function.update_of_ne hne]
        exact h.slot i y hy
      · have hi : i = q.all.length := by
          have := (List.getElem?_eq_some_iff.mp hy).1
          rw [List.length_singleton] at this
          omega
        subst hi
        rw [Nat.sub_self] at hy
        have hxy : x = y := Option.some.inj hy
        dsimp only
        rw [← h.tail, Function.update_self, hxy]
  · cases hput

theorem Models.take (h : Models (2 ^ k) r q) (htake : r.take (2 ^ k) = some r') :
    ∃ q', q.take = some q' ∧ Models (2 ^ k) r' q' := by
  obtain ⟨base, h⟩ := h
  rw [Buffer.take] at htake
  split at htake
  · rename_i hguard
    obtain ⟨htaken, hbusy⟩ := hguard
    obtain ⟨cur, rest⟩ := q
    have hcur : cur = none := by
      have := h.taken
      rw [htaken] at this
      cases cur with
      | none => rfl
      | some x => cases this
    subst hcur
    cases rest with
    | nil =>
        have := h.busy
        simp only [List.length_nil] at this
        omega
    | cons x xs =>
        rw [← Option.some.inj htake]
        have hhead : r.head = base % 2 ^ k := h.head
        refine ⟨⟨some x, xs⟩, rfl, base, ?_, h.tail, ?_, h.free, ?_, h.slot⟩
        · exact (congrArg (succ (2 ^ k)) hhead).trans (succ_mod base)
        · have := h.busy
          simp only [List.length_cons] at this
          dsimp only
          omega
        · exact congrArg some hhead
  · cases htake

theorem Models.cur (h : Models (2 ^ k) r q) : r.cur = q.cur := by
  obtain ⟨base, h⟩ := h
  rw [Buffer.cur, h.taken]
  obtain ⟨cur, rest⟩ := q
  cases cur with
  | none => rfl
  | some x => exact congrArg some (h.slot 0 x rfl)

theorem Models.setCur (h : Models (2 ^ k) r q) (x : α) :
    Models (2 ^ k) (r.setCur x) (q.setCur x) := by
  obtain ⟨base, h⟩ := h
  obtain ⟨cur, rest⟩ := q
  have htaken := h.taken
  cases cur with
  | none =>
      rw [Option.map_none] at htaken
      rw [Buffer.setCur, htaken]
      exact ⟨base, h⟩
  | some y =>
      rw [Option.map_some] at htaken
      rw [Buffer.setCur, htaken]
      refine ⟨base, h.head, h.tail, h.busy, h.free, rfl, ?_⟩
      intro i z hz
      dsimp only
      have hlen := (List.getElem?_eq_some_iff.mp hz).1
      have hfree := h.free
      simp only [Queue.all_mk_some, List.length_cons] at hfree
      simp only [Queue.setCur, Option.map_some, Queue.all_mk_some, List.length_cons] at hlen
      cases i with
      | zero =>
          have hxz : x = z := Option.some.inj hz
          rw [Nat.add_zero, Function.update_self, hxz]
      | succ i =>
          have hne : (base + (i + 1)) % 2 ^ k ≠ base % 2 ^ k := by
            exact add_mod_ne (j := 0) (by omega) (by omega) (by omega)
          rw [Function.update_of_ne hne]
          exact h.slot (i + 1) z hz

theorem Models.release (h : Models (2 ^ k) r q) (hcur : q.cur ≠ none) :
    Models (2 ^ k) r.release q.release := by
  obtain ⟨base, h⟩ := h
  obtain ⟨cur, rest⟩ := q
  cases cur with
  | none => exact absurd rfl hcur
  | some x =>
      refine ⟨base + 1, h.head, ?_, h.busy, ?_, rfl, ?_⟩
      · have htail := h.tail
        rw [Queue.all_mk_some, List.length_cons] at htail
        rw [Queue.release, Queue.all_mk_none, Nat.add_right_comm]
        exact htail
      · have hfree := h.free
        rw [Queue.all_mk_some, List.length_cons] at hfree
        rw [Queue.release, Queue.all_mk_none]
        dsimp only [Buffer.release]
        omega
      · intro i y hy
        have hslot := h.slot (i + 1) y hy
        rw [Nat.add_right_comm, Nat.add_assoc]
        exact hslot

end

end MaskRing
