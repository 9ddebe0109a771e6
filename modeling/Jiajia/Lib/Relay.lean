import Jiajia.Lib.Fifo
import Mathlib.Data.List.Range
import Mathlib.Tactic.Common

/-!
# Broadcasts over relays

The copy of a message that is meant for a party crosses one channel on each
level, from the highest level down to level 0, where the party handles it.  The
copies on their way to a party form one queue over all levels.
-/

namespace Relay

open Fifo

universe u v

variable {μ : Type u} {α : Type v}

/-- The channels a copy for party `h` takes, by level, and what a message of a
level carries. -/
structure Cast (μ : Type u) (α : Type v) where
  parties : Nat
  levels : Nat
  src : Nat → Nat → Nat
  dst : Nat → Nat → Nat
  read : Nat → μ → Option α
  levels_pos : 0 < levels
  dst_zero : ∀ h < parties, dst h 0 = h
  read_unique : ∀ {l l' : Nat} {m : μ}, read l m ≠ none → read l' m ≠ none → l = l'

/-- Moving an element between neighbouring lists does not change the whole. -/
theorem flatMap_range_shift {f g : Nat → List α} {l k : Nat} (hl : l + 1 < k)
    (hoff : ∀ j, j ≠ l → j ≠ l + 1 → f j = g j) (hpair : f l ++ f (l + 1) = g l ++ g (l + 1)) :
    (List.range k).flatMap f = (List.range k).flatMap g := by
  obtain ⟨d, rfl⟩ := Nat.exists_eq_add_of_lt hl
  induction d with
  | zero =>
      have hbelow : (List.range l).flatMap f = (List.range l).flatMap g := by
        apply List.flatMap_congr
        intro j hj
        have hj : j < l := List.mem_range.mp hj
        exact hoff j (by omega) (by omega)
      rw [List.range_succ, List.range_succ]
      simp only [List.flatMap_append, List.flatMap_singleton, List.append_assoc, hbelow]
      rw [hpair]
  | succ d ih =>
      have hlast := hoff (l + 1 + (d + 1)) (by omega) (by omega)
      have hinit : (List.range (l + 1 + (d + 1))).flatMap f =
          (List.range (l + 1 + (d + 1))).flatMap g := ih (by omega)
      rw [List.range_succ, List.flatMap_append, List.flatMap_append, hinit]
      simp [hlast]

namespace Cast

variable (c : Cast μ α)

/-- The copies for `h` on the channel of level `l`. -/
def segment (n : Net μ) (h l : Nat) : List α := (n (c.src h l) (c.dst h l)).filterMap (c.read l)

/-- The copies on their way to `h`, next one first. -/
def pending (n : Net μ) (h : Nat) : List α := (List.range c.levels).flatMap (c.segment n h)

variable {c} {n : Net μ} {a b h : Nat} {m : μ} {rest : List μ} {x : α}

theorem pending_congr {n' : Net μ} (hseg : ∀ l < c.levels, c.segment n' h l = c.segment n h l) :
    c.pending n' h = c.pending n h := by
  apply List.flatMap_congr
  intro l hl
  exact hseg l (List.mem_range.mp hl)

theorem segment_send (out : Outbox μ) (l : Nat) :
    c.segment (send n a out) h l = c.segment n h l ++
      if c.src h l = a then (outboxTo out (c.dst h l)).filterMap (c.read l) else [] := by
  unfold segment
  by_cases ha : c.src h l = a
  · rw [if_pos ha, ha, send_same, List.filterMap_append]
  · rw [if_neg ha, send_of_ne _ _ _ ha, List.append_nil]

theorem segment_drop_of_ne (l : Nat) (hne : ¬ (c.src h l = a ∧ c.dst h l = b)) :
    c.segment (drop n a b) h l = c.segment n h l := by
  rw [segment, drop_of_ne _ hne]
  rfl

theorem segment_drop_none (hnet : n a b = m :: rest) {l : Nat} (hm : c.read l m = none) :
    c.segment (drop n a b) h l = c.segment n h l := by
  by_cases hab : c.src h l = a ∧ c.dst h l = b
  · obtain ⟨rfl, rfl⟩ := hab
    simp only [segment]
    rw [drop_same hnet, hnet, List.filterMap_cons_none hm]
  · exact segment_drop_of_ne l hab

theorem segment_drop_some (hnet : n a b = m :: rest) {l : Nat} (hm : c.read l m = some x)
    (ha : c.src h l = a) (hb : c.dst h l = b) :
    c.segment n h l = x :: c.segment (drop n a b) h l := by
  subst ha
  subst hb
  simp only [segment]
  rw [drop_same hnet, hnet, List.filterMap_cons_some hm]

/-- Messages that carry nothing of the broadcast. -/
theorem pending_drop_quiet (hnet : n a b = m :: rest) (hm : ∀ l, c.read l m = none) :
    c.pending (drop n a b) h = c.pending n h :=
  pending_congr fun l _ => segment_drop_none hnet (hm l)

theorem pending_send_quiet {out : Outbox μ} (hout : ∀ y ∈ out, ∀ l, c.read l y.2 = none) :
    c.pending (send n a out) h = c.pending n h := by
  apply pending_congr
  intro l hl
  have hnone : (outboxTo out (c.dst h l)).filterMap (c.read l) = [] := by
    rw [List.filterMap_eq_nil_iff]
    intro m hm
    exact hout _ (mem_outboxTo.mp hm) l
  rw [segment_send, hnone, ite_self, List.append_nil]

/-- A party takes the next copy off its queue. -/
theorem pending_deliver (hh : h < c.parties) (hnet : n a h = m :: rest)
    (hm : c.read 0 m = some x) (ha : c.src h 0 = a) :
    c.pending n h = x :: c.pending (drop n a h) h := by
  have habove : ∀ l, c.segment (drop n a h) h (l + 1) = c.segment n h (l + 1) := by
    intro l
    apply segment_drop_none hnet
    by_contra hsome
    have hzero : c.read 0 m ≠ none := by simp [hm]
    exact absurd (c.read_unique hsome hzero) (by omega)
  obtain ⟨k, hk⟩ := Nat.exists_eq_add_of_lt c.levels_pos
  rw [Nat.zero_add] at hk
  simp only [pending, hk, List.range_succ_eq_map, List.flatMap_cons, List.flatMap_map]
  rw [segment_drop_some hnet hm ha (c.dst_zero h hh), List.cons_append]
  simp only [habove]

theorem pending_deliver_ne {h' : Nat} (hh : h' < c.parties) (hne : h' ≠ h)
    (hnet : n a h = m :: rest) (hm : c.read 0 m = some x) :
    c.pending (drop n a h) h' = c.pending n h' := by
  apply pending_congr
  intro l _
  cases l with
  | zero => exact segment_drop_of_ne 0 (by simp [c.dst_zero h' hh, hne])
  | succ l =>
      apply segment_drop_none hnet
      by_contra hsome
      have hzero : c.read 0 m ≠ none := by simp [hm]
      exact absurd (c.read_unique hsome hzero) (by omega)

/-- A new message of the broadcast enters on the highest level. -/
theorem pending_start {out : Outbox μ} {xs : List α} {top : Nat} (htop : c.levels = top + 1)
    (hlast : c.src h top = a ∧ (outboxTo out (c.dst h top)).filterMap (c.read top) = xs)
    (hother : ∀ l < top, ∀ y ∈ out, c.read l y.2 = none) :
    c.pending (send n a out) h = c.pending n h ++ xs := by
  have hbelow : (List.range top).flatMap (c.segment (send n a out) h) =
      (List.range top).flatMap (c.segment n h) := by
    apply List.flatMap_congr
    intro l hl
    have hnone : (outboxTo out (c.dst h l)).filterMap (c.read l) = [] := by
      rw [List.filterMap_eq_nil_iff]
      intro m hm
      exact hother l (List.mem_range.mp hl) _ (mem_outboxTo.mp hm)
    rw [segment_send, hnone, ite_self, List.append_nil]
  simp only [pending, htop, List.range_succ, List.flatMap_append, List.flatMap_singleton, hbelow]
  rw [segment_send, if_pos hlast.1, hlast.2, List.append_assoc]

/-- A relay passes a message on to the next lower level. -/
theorem pending_forward {out : Outbox μ} {l : Nat} (hl : l + 1 < c.levels)
    (hnet : n a b = m :: rest) (hm : c.read (l + 1) m = some x)
    (hon : c.src h (l + 1) = a ∧ c.dst h (l + 1) = b →
      c.src h l = b ∧ (outboxTo out (c.dst h l)).filterMap (c.read l) = [x])
    (hoff : ¬ (c.src h (l + 1) = a ∧ c.dst h (l + 1) = b) → c.src h l = b →
      (outboxTo out (c.dst h l)).filterMap (c.read l) = [])
    (hother : ∀ k ≠ l, ∀ y ∈ out, c.read k y.2 = none) :
    c.pending (send (drop n a b) b out) h = c.pending n h := by
  have hquiet : ∀ k, k ≠ l →
      c.segment (send (drop n a b) b out) h k = c.segment (drop n a b) h k := by
    intro k hk
    have hnone : (outboxTo out (c.dst h k)).filterMap (c.read k) = [] := by
      rw [List.filterMap_eq_nil_iff]
      intro m hm
      exact hother k hk _ (mem_outboxTo.mp hm)
    rw [segment_send, hnone, ite_self, List.append_nil]
  have hread : ∀ k, k ≠ l + 1 → c.read k m = none := by
    intro k hk
    by_contra hsome
    exact hk (c.read_unique hsome (by simp [hm]))
  apply flatMap_range_shift hl
  · intro k hk hk'
    rw [hquiet k hk, segment_drop_none hnet (hread k hk')]
  · rw [hquiet (l + 1) (by omega), segment_send,
      segment_drop_none (l := l) hnet (hread l (by omega))]
    by_cases hpath : c.src h (l + 1) = a ∧ c.dst h (l + 1) = b
    · obtain ⟨hsrc, hout⟩ := hon hpath
      rw [if_pos hsrc, hout, segment_drop_some hnet hm hpath.1 hpath.2, List.append_assoc]
      rfl
    · rw [segment_drop_of_ne _ hpath]
      by_cases hsrc : c.src h l = b
      · rw [if_pos hsrc, hoff hpath hsrc, List.append_nil]
      · rw [if_neg hsrc, List.append_nil]

end Cast

end Relay
