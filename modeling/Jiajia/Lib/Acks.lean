import Jiajia.Lib.Fifo

/-!
# Requests and their answers

A party sends requests over FIFO channels, and each request is answered once by
the party that gets it.  What a party waits for are the requests of it that are
still on their way and the answers that are on their way back.
-/

namespace Acks

open Fifo

universe u

variable {μ : Type u} (req ans : μ → Bool)

/-- What party `i` waits for from party `b`. -/
def pending (n : Net μ) (i b : Nat) : Nat := (n i b).countP req + (n b i).countP ans

/-- What party `i` waits for from the first `k` parties. -/
def outstanding (k : Nat) (n : Net μ) (i : Nat) : Nat :=
  ∑ b ∈ Finset.range k, pending req ans n i b

variable {req ans} {n : Net μ} {src dst i b k : Nat} {msg : μ} {rest : List μ} {out : Outbox μ}

theorem pending_eq_zero :
    pending req ans n i b = 0 ↔
      (∀ m ∈ n i b, req m = false) ∧ ∀ m ∈ n b i, ans m = false := by
  simp [pending, List.countP_eq_zero]

theorem pending_send :
    pending req ans (send n src out) i b = pending req ans n i b +
      ((if i = src then (outboxTo out b).countP req else 0) +
        if b = src then (outboxTo out i).countP ans else 0) := by
  have hone : ∀ (f : μ → Bool) (c d : Nat), (send n src out c d).countP f =
      (n c d).countP f + if c = src then (outboxTo out d).countP f else 0 := by
    intro f c d
    by_cases hc : c = src
    · subst hc
      rw [send_same, List.countP_append, if_pos rfl]
    · rw [send_of_ne _ _ _ hc, if_neg hc, Nat.add_zero]
  simp only [pending, hone]
  omega

theorem pending_drop (hnet : n src dst = msg :: rest) :
    pending req ans n i b = pending req ans (drop n src dst) i b +
      ((if i = src ∧ b = dst then (req msg).toNat else 0) +
        if b = src ∧ i = dst then (ans msg).toNat else 0) := by
  have hone : ∀ (f : μ → Bool) (c d : Nat), (n c d).countP f =
      (drop n src dst c d).countP f + if c = src ∧ d = dst then (f msg).toNat else 0 := by
    intro f c d
    by_cases hcd : c = src ∧ d = dst
    · obtain ⟨rfl, rfl⟩ := hcd
      rw [drop_same hnet, hnet, List.countP_cons, if_pos (And.intro rfl rfl)]
      cases f msg <;> rfl
    · rw [drop_of_ne _ hcd, if_neg hcd, Nat.add_zero]
  simp only [pending, hone req i b, hone ans b i]
  omega

theorem pending_drop_quiet (hnet : n src dst = msg :: rest) (hreq : req msg = false)
    (hans : ans msg = false) :
    pending req ans (drop n src dst) i b = pending req ans n i b := by
  have h : pending req ans n i b = _ := pending_drop hnet
  simpa [hreq, hans] using h.symm

theorem countP_outboxTo_quiet {f : μ → Bool} (hout : ∀ x ∈ out, f x.2 = false) (d : Nat) :
    (outboxTo out d).countP f = 0 := by
  rw [List.countP_eq_zero]
  intro m hm
  simp [hout _ (mem_outboxTo.mp hm)]

theorem pending_send_quiet (hreq : ∀ x ∈ out, req x.2 = false)
    (hans : ∀ x ∈ out, ans x.2 = false) :
    pending req ans (send n src out) i b = pending req ans n i b := by
  rw [pending_send, countP_outboxTo_quiet hreq, countP_outboxTo_quiet hans]
  simp

/-- The party that gets a request answers it: nobody waits for more or less. -/
theorem pending_answer {a : μ} (hnet : n src dst = msg :: rest) (hreq : req msg = true)
    (hmsg : ans msg = false) (hans : ans a = true) (ha : req a = false) :
    pending req ans (send (drop n src dst) dst [(src, a)]) i b = pending req ans n i b := by
  have hone : ∀ d, (outboxTo [(src, a)] d).countP req = 0 :=
    countP_outboxTo_quiet (by simpa using ha)
  have hto : (outboxTo [(src, a)] i).countP ans = if i = src then 1 else 0 := by
    by_cases hi : i = src
    · subst hi
      simp [hans]
    · rw [outboxTo_cons_ne _ _ (Ne.symm hi), if_neg hi]
      rfl
  rw [pending_send, hone, hto, pending_drop hnet, hreq, hmsg]
  by_cases hi : i = src
  · by_cases hb : b = dst
    · simp [hi, hb]
    · simp [hi, hb]
  · simp [hi]

/-- A party hears an answer: it waits for one thing less. -/
theorem pending_hear (hnet : n src dst = msg :: rest) (hreq : req msg = false)
    (hans : ans msg = true) :
    pending req ans n i b = pending req ans (drop n src dst) i b +
      if i = dst ∧ b = src then 1 else 0 := by
  rw [pending_drop hnet, hreq, hans]
  by_cases h : i = dst ∧ b = src
  · simp [h]
  · have hcomm : ¬ (b = src ∧ i = dst) := fun hc => h hc.symm
    simp [h, hcomm]

theorem outstanding_congr {n' : Net μ} (h : ∀ b, pending req ans n' i b = pending req ans n i b) :
    outstanding req ans k n' i = outstanding req ans k n i :=
  Finset.sum_congr rfl fun b _ => h b

theorem outstanding_eq_zero :
    outstanding req ans k n i = 0 ↔ ∀ b < k, pending req ans n i b = 0 := by
  simp [outstanding]

theorem outstanding_hear (hnet : n src dst = msg :: rest) (hreq : req msg = false)
    (hans : ans msg = true) (hsrc : src < k) :
    outstanding req ans k n i = outstanding req ans k (drop n src dst) i +
      if i = dst then 1 else 0 := by
  simp only [outstanding, pending_hear hnet hreq hans, Finset.sum_add_distrib]
  by_cases hi : i = dst
  · simp [hi, hsrc]
  · simp [hi]

theorem sum_outboxTo {f : μ → Bool} (hout : ∀ x ∈ out, x.1 < k) :
    ∑ d ∈ Finset.range k, (outboxTo out d).countP f = out.countP fun x => f x.2 := by
  induction out with
  | nil => simp
  | cons x out ih =>
      obtain ⟨d, msg⟩ := x
      have hd : d < k := hout (d, msg) List.mem_cons_self
      have hcons : ∀ d', (outboxTo ((d, msg) :: out) d').countP f =
          (outboxTo out d').countP f + if d' = d then (f msg).toNat else 0 := by
        intro d'
        by_cases hdd : d' = d
        · subst hdd
          rw [outboxTo_cons_same, List.countP_cons, if_pos rfl]
          cases f msg <;> rfl
        · rw [outboxTo_cons_ne _ _ (Ne.symm hdd), if_neg hdd, Nat.add_zero]
      simp only [hcons, Finset.sum_add_distrib, Finset.sum_ite_eq', Finset.mem_range, hd, if_true,
        ih fun x hx => hout x (List.mem_cons_of_mem _ hx), List.countP_cons]
      cases f msg <;> rfl

/-- A party sends requests only. -/
theorem outstanding_ask (hout : ∀ x ∈ out, x.1 < k) (hans : ∀ x ∈ out, ans x.2 = false) :
    outstanding req ans k (send n src out) i = outstanding req ans k n i +
      if i = src then out.countP fun x => req x.2 else 0 := by
  simp only [outstanding, pending_send, countP_outboxTo_quiet hans, ite_self, Nat.add_zero,
    Finset.sum_add_distrib]
  by_cases hi : i = src
  · simp only [hi, if_true, sum_outboxTo hout]
  · simp [hi]

end Acks
