import Mathlib.Data.List.Nodup
import Mathlib.Data.List.Range
import Mathlib.Algebra.BigOperators.Ring.Finset

/-!
# Reliable FIFO channels

One queue for each ordered pair of parties.  A party sends a list of addressed
messages; the oldest message of a channel is delivered first.
-/

namespace Fifo

universe u

/-- The messages in flight, by sender and receiver. -/
abbrev Net (μ : Type u) := Nat → Nat → List μ

/-- Addressed messages of one sender. -/
abbrev Outbox (μ : Type u) := List (Nat × μ)

variable {μ : Type u}

/-- What an outbox holds for `dst`, in order. -/
def outboxTo (out : Outbox μ) (dst : Nat) : List μ :=
  (out.filter fun x => x.1 = dst).map Prod.snd

/-- `src` sends an outbox. -/
def send (n : Net μ) (src : Nat) (out : Outbox μ) : Net μ :=
  fun a b => if a = src then n a b ++ outboxTo out b else n a b

/-- Remove the oldest message of a channel. -/
def drop (n : Net μ) (src dst : Nat) : Net μ :=
  fun a b => if a = src ∧ b = dst then (n a b).tail else n a b

@[simp] theorem outboxTo_nil (dst : Nat) : outboxTo ([] : Outbox μ) dst = [] := rfl

@[simp] theorem outboxTo_cons_same (dst : Nat) (msg : μ) (out : Outbox μ) :
    outboxTo ((dst, msg) :: out) dst = msg :: outboxTo out dst := by
  simp [outboxTo]

theorem outboxTo_cons_ne {d dst : Nat} (msg : μ) (out : Outbox μ) (h : d ≠ dst) :
    outboxTo ((d, msg) :: out) dst = outboxTo out dst := by
  simp [outboxTo, h]

@[simp] theorem outboxTo_append (out out' : Outbox μ) (dst : Nat) :
    outboxTo (out ++ out') dst = outboxTo out dst ++ outboxTo out' dst := by
  simp [outboxTo]

@[simp] theorem mem_outboxTo {out : Outbox μ} {dst : Nat} {msg : μ} :
    msg ∈ outboxTo out dst ↔ (dst, msg) ∈ out := by
  simp only [outboxTo, List.mem_map, List.mem_filter, decide_eq_true_eq]
  constructor
  · rintro ⟨⟨d, msg'⟩, ⟨hmem, rfl⟩, rfl⟩
    exact hmem
  · exact fun h => ⟨(dst, msg), ⟨h, rfl⟩, rfl⟩

/-- Messages that all go to one party. -/
theorem outboxTo_map_same (msgs : List μ) (dst : Nat) :
    outboxTo (msgs.map fun msg => (dst, msg)) dst = msgs := by
  simp [outboxTo, List.filter_map, Function.comp_def]

/-- Messages that are filled in with their address. -/
theorem outboxTo_map_addr {ν : Type u} (f : Nat → μ → ν) (out : Outbox μ) (dst : Nat) :
    outboxTo (out.map fun x => (x.1, f x.1 x.2)) dst = (outboxTo out dst).map (f dst) := by
  induction out with
  | nil => rfl
  | cons x out ih =>
      obtain ⟨d, msg⟩ := x
      by_cases hd : d = dst
      · subst hd
        rw [List.map_cons, outboxTo_cons_same, outboxTo_cons_same, ih, List.map_cons]
      · rw [List.map_cons, outboxTo_cons_ne _ _ hd, outboxTo_cons_ne _ _ hd, ih]

theorem send_same (n : Net μ) (src dst : Nat) (out : Outbox μ) :
    send n src out src dst = n src dst ++ outboxTo out dst := by
  simp [send]

theorem send_of_ne (n : Net μ) {src a : Nat} (dst : Nat) (out : Outbox μ) (h : a ≠ src) :
    send n src out a dst = n a dst := by
  simp [send, h]

@[simp] theorem send_nil (n : Net μ) (src : Nat) : send n src [] = n := by
  funext a b
  simp [send]

theorem send_append (n : Net μ) (src : Nat) (out out' : Outbox μ) :
    send n src (out ++ out') = send (send n src out) src out' := by
  funext a b
  by_cases h : a = src
  · subst h
    rw [send_same, send_same, send_same, outboxTo_append, List.append_assoc]
  · rw [send_of_ne _ _ _ h, send_of_ne _ _ _ h, send_of_ne _ _ _ h]

/-- One message to each of the first `k` parties. -/
theorem outboxTo_map_range (msg : μ) {k dst : Nat} (h : dst < k) :
    outboxTo ((List.range k).map fun d => (d, msg)) dst = [msg] := by
  have hnodup : (List.range k).Nodup := List.nodup_range
  obtain ⟨l, r, hlr⟩ := List.append_of_mem (List.mem_range.mpr h)
  rw [hlr] at hnodup ⊢
  rw [List.nodup_middle, List.nodup_cons, List.mem_append, not_or] at hnodup
  have hnone : ∀ js : List Nat, dst ∉ js → outboxTo (js.map fun d => (d, msg)) dst = [] := by
    intro js hjs
    rw [List.eq_nil_iff_forall_not_mem]
    intro m hm
    obtain ⟨j, hj, heq⟩ := List.mem_map.mp (mem_outboxTo.mp hm)
    obtain ⟨rfl, -⟩ := Prod.mk.inj heq
    exact hjs hj
  rw [List.map_append, List.map_cons, outboxTo_append, outboxTo_cons_same, hnone l hnodup.1.1,
    hnone r hnodup.1.2]
  rfl

/-- One message to each of some parties. -/
theorem outboxTo_map_nodup (f : Nat → μ) {ks : List Nat} (hnodup : ks.Nodup) (dst : Nat) :
    outboxTo (ks.map fun d => (d, f d)) dst = if dst ∈ ks then [f dst] else [] := by
  induction ks with
  | nil => rfl
  | cons k ks ih =>
      rw [List.nodup_cons] at hnodup
      rw [List.map_cons]
      by_cases hk : k = dst
      · subst hk
        rw [outboxTo_cons_same, ih hnodup.2, if_neg hnodup.1, if_pos List.mem_cons_self]
      · have hmem : dst ∈ k :: ks ↔ dst ∈ ks := by simp [Ne.symm hk]
        rw [outboxTo_cons_ne _ _ hk, ih hnodup.2]
        simp only [hmem]

theorem drop_same {n : Net μ} {src dst : Nat} {msg : μ} {rest : List μ}
    (h : n src dst = msg :: rest) : drop n src dst src dst = rest := by
  simp [drop, h]

theorem drop_of_ne (n : Net μ) {src dst a b : Nat} (h : ¬ (a = src ∧ b = dst)) :
    drop n src dst a b = n a b := by
  simp [drop, h]

/-- What is on its way after a send was on its way before, or has just been sent. -/
theorem mem_send {n : Net μ} {src a b : Nat} {out : Outbox μ} {msg : μ} :
    msg ∈ send n src out a b ↔ msg ∈ n a b ∨ a = src ∧ (b, msg) ∈ out := by
  by_cases ha : a = src
  · subst ha
    rw [send_same, List.mem_append, mem_outboxTo, and_iff_right rfl]
  · rw [send_of_ne _ _ _ ha, or_iff_left fun h => ha h.1]

theorem mem_of_mem_drop {n : Net μ} {src dst a b : Nat} {msg : μ}
    (h : msg ∈ drop n src dst a b) : msg ∈ n a b := by
  unfold drop at h
  split at h
  · exact List.mem_of_mem_tail h
  · exact h

/-- Only the message that is taken leaves a channel. -/
theorem mem_drop_of_mem {n : Net μ} {src dst a b : Nat} {msg m : μ} {rest : List μ}
    (hnet : n src dst = msg :: rest) (hm : m ∈ n a b) (hne : a = src → b = dst → m ≠ msg) :
    m ∈ drop n src dst a b := by
  by_cases hab : a = src ∧ b = dst
  · obtain ⟨rfl, rfl⟩ := hab
    rw [drop_same hnet]
    rw [hnet] at hm
    exact (List.mem_cons.mp hm).resolve_left (hne rfl rfl)
  · rw [drop_of_ne n hab]
    exact hm

/-! ## The load of a network -/

/-- The weight of all messages between the first `k` parties. -/
def load (w : μ → Nat) (k : Nat) (n : Net μ) : Nat :=
  ∑ a ∈ Finset.range k, ∑ b ∈ Finset.range k, ((n a b).map w).sum

variable {w : μ → Nat} {k : Nat} {n : Net μ} {src dst : Nat}

/-- A network that differs on one channel. -/
theorem load_of_channel {n' : Net μ} {x : Nat} (hsrc : src < k) (hdst : dst < k)
    (hother : ∀ a b, ¬ (a = src ∧ b = dst) → n' a b = n a b)
    (hsum : ((n' src dst).map w).sum = ((n src dst).map w).sum + x) :
    load w k n' = load w k n + x := by
  have hcell : ∀ a b, ((n' a b).map w).sum =
      ((n a b).map w).sum + if a = src then if b = dst then x else 0 else 0 := by
    intro a b
    by_cases h : a = src ∧ b = dst
    · obtain ⟨rfl, rfl⟩ := h
      simpa using hsum
    · rw [hother a b h]
      split
      · split
        · rename_i ha hb
          exact absurd ⟨ha, hb⟩ h
        · rfl
      · rfl
  have hinner : ∀ a, ∑ b ∈ Finset.range k, (if a = src then if b = dst then x else 0 else 0) =
      if a = src then x else 0 := by
    intro a
    by_cases ha : a = src
    · simp [ha, hdst]
    · simp [ha]
  simp only [load, hcell, Finset.sum_add_distrib, hinner]
  simp [hsrc]

theorem load_send (hsrc : src < k) {out : Outbox μ} (hout : ∀ x ∈ out, x.1 < k) :
    load w k (send n src out) = load w k n + (out.map fun x => w x.2).sum := by
  induction out generalizing n with
  | nil => simp
  | cons x out ih =>
      obtain ⟨d, msg⟩ := x
      have hd : d < k := hout (d, msg) List.mem_cons_self
      have hone : load w k (send n src [(d, msg)]) = load w k n + w msg := by
        apply load_of_channel hsrc hd
        · intro a b h
          by_cases ha : a = src
          · subst ha
            have hb : d ≠ b := fun hb => h ⟨rfl, hb.symm⟩
            rw [send_same, outboxTo_cons_ne _ _ hb, outboxTo_nil, List.append_nil]
          · exact send_of_ne _ _ _ ha
        · simp [send_same]
      rw [← List.singleton_append, send_append,
        ih fun x hx => hout x (List.mem_cons_of_mem _ hx), hone]
      simp [Nat.add_assoc]

theorem load_drop (hsrc : src < k) (hdst : dst < k) {msg : μ} {rest : List μ}
    (h : n src dst = msg :: rest) : load w k n = load w k (drop n src dst) + w msg := by
  apply load_of_channel hsrc hdst
  · intro a b hab
    exact (drop_of_ne n hab).symm
  · rw [drop_same h, h]
    simp [Nat.add_comm]

end Fifo
