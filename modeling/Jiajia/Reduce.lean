import Jiajia.Global
import Jiajia.Lib.Fifo
import Jiajia.Lib.Gather
import Jiajia.Lib.Transition
import Mathlib.Algebra.Order.BigOperators.Group.Finset
import Mathlib.Data.BitVec
import Mathlib.Data.Nat.Log

/-!
# `jia_reduce`

All hosts of a program call `jia_reduce` with the same count, operation and root.  A host
takes one turn of its loop at a time; `jia_send` puts a buffer behind the others that are on
their way to the same host, and `jia_recv` waits for the oldest one from a host.
-/

namespace Jiajia.Reduce

open Fifo Transition Gather

/-- SUM_INT, MAX_INT and MIN_INT. -/
inductive IntOp
  | sum
  | max
  | min
deriving DecidableEq

/-- `thesizeof(op)` -/
abbrev thesizeof : Nat := Intbytes

/-- One turn of the loop of `reduce`. -/
def IntOp.apply (op : IntOp) (dest source : Word) : Word :=
  match op with
  | .sum => dest + source
  | .max => if dest.toInt ≤ source.toInt then source else dest
  | .min => if dest.toInt ≤ source.toInt then dest else source

/-- `reduce(dest, source, count, op)` -/
def reduce (op : IntOp) (dest source : List Word) : List Word := List.zipWith op.apply dest source

/-- A call of `jia_reduce` on all hosts, each with its own `sendbuf`. -/
structure Call where
  hostc : Nat
  root : Nat
  count : Nat
  op : IntOp
  sendbuf : Nat → List Word
  root_lt : root < hostc
  length_sendbuf : ∀ i, (sendbuf i).length = count

/-- A host inside `jia_reduce`. -/
structure Reducer where
  j : Nat
  recvbuf : List Word
  returned : Bool

structure ReduceState where
  host : Nat → Reducer
  net : Net (List Word)

namespace Call

variable (r : Call)

/-- `len` -/
def len : Nat := r.count * thesizeof

/-- `mypid` of host `i`. -/
def mypid (i : Nat) : Nat := (i + r.hostc - r.root) % r.hostc

/-- The host at a place in the tree. -/
def hostOf (p : Nat) : Nat := (p + r.root) % r.hostc

/-- Host `i` goes on to the next level. -/
def next (s : ReduceState) (i : Nat) (recvbuf : List Word) (net : Net (List Word)) : ReduceState where
  host := upd s.host i { s.host i with j := (s.host i).j + 1, recvbuf := recvbuf }
  net := net

/-- Host `i` returns. -/
def finish (s : ReduceState) (i : Nat) : ReduceState :=
  { s with host := upd s.host i { s.host i with returned := true } }

/-- `jia_recv` and the rest of its branch. -/
def receive (s : ReduceState) (i fromproc : Nat) : Result ReduceState :=
  match s.net fromproc i with
  | [] => .error .blocked
  | tempbuf :: _ => do
      jiaAssert (r.len = tempbuf.length * thesizeof) "Unmatched length in jia_reduce"
      return next s i (reduce r.op (s.host i).recvbuf tempbuf) (drop s.net fromproc i)

/-- The next turn of the loop on host `i`, or its end. -/
def turn (s : ReduceState) (i : Nat) : Result ReduceState :=
  let h := s.host i
  let mypid := r.mypid i
  if i < r.hostc ∧ h.returned = false then
    if 2 ^ h.j < r.hostc then
      if mypid % 2 ^ h.j = 0 then
        if mypid % 2 ^ (h.j + 1) ≠ 0 then
          .ok (next s i h.recvbuf
            (send s.net i [(r.hostOf (mypid - 2 ^ h.j), h.recvbuf)]))
        else if mypid + 2 ^ h.j < r.hostc then r.receive s i (r.hostOf (mypid + 2 ^ h.j))
        else .ok (next s i h.recvbuf s.net)
      else .ok (next s i h.recvbuf s.net)
    else .ok (finish s i)
  else .error .blocked

/-- Up to the loop. -/
def start : ReduceState where
  host i := ⟨0, r.sendbuf i, false⟩
  net _ _ := []

def system : System ReduceState Nat where
  start := r.start
  next s i s' := r.turn s i = .ok s'

/-! ## Places in the tree -/

section Places

variable {r}

theorem hostc_pos : 0 < r.hostc := Nat.zero_lt_of_lt r.root_lt

theorem mypid_lt (i : Nat) : r.mypid i < r.hostc := Nat.mod_lt _ hostc_pos

theorem hostOf_lt (p : Nat) : r.hostOf p < r.hostc := Nat.mod_lt _ hostc_pos

theorem hostOf_mypid {i : Nat} (hi : i < r.hostc) : r.hostOf (r.mypid i) = i := by
  have hroot := r.root_lt
  unfold hostOf mypid
  rw [Nat.mod_add_mod, Nat.sub_add_cancel (by omega), Nat.add_mod_right, Nat.mod_eq_of_lt hi]

theorem mypid_hostOf {p : Nat} (hp : p < r.hostc) : r.mypid (r.hostOf p) = p := by
  have hroot := r.root_lt
  unfold hostOf mypid
  by_cases hlt : p + r.root < r.hostc
  · rw [Nat.mod_eq_of_lt hlt, show p + r.root + r.hostc - r.root = p + r.hostc by omega,
      Nat.add_mod_right, Nat.mod_eq_of_lt hp]
  · have hmod : (p + r.root) % r.hostc = p + r.root - r.hostc := by
      rw [Nat.mod_eq_sub_mod (by omega), Nat.mod_eq_of_lt (by omega)]
    rw [hmod, show p + r.root - r.hostc + r.hostc - r.root = p by omega, Nat.mod_eq_of_lt hp]

theorem hostOf_inj {p q : Nat} (hp : p < r.hostc) (hq : q < r.hostc)
    (h : r.hostOf p = r.hostOf q) : p = q := by
  rw [← mypid_hostOf hp, h, mypid_hostOf hq]

theorem hostOf_zero : r.hostOf 0 = r.root := by
  unfold hostOf
  rw [Nat.zero_add, Nat.mod_eq_of_lt r.root_lt]

/-- The hosts of `2^k` places from `p` on. -/
def hosts (r : Call) (p k : Nat) : Finset Nat :=
  (Finset.Ico p (min (p + 2 ^ k) r.hostc)).image r.hostOf

theorem hosts_zero {p : Nat} (hp : p < r.hostc) : r.hosts p 0 = {r.hostOf p} := by
  have hone : min (p + 1) r.hostc = p + 1 := Nat.min_eq_left hp
  unfold hosts
  rw [pow_zero, hone, Nat.Ico_succ_singleton, Finset.image_singleton]

theorem hosts_succ (p k : Nat) (hp : p + 2 ^ k < r.hostc) :
    r.hosts p (k + 1) = r.hosts p k ∪ r.hosts (p + 2 ^ k) k := by
  unfold hosts
  rw [← Finset.image_union, Nat.min_eq_left hp.le, Finset.Ico_union_Ico_eq_Ico]
  · rw [Nat.pow_succ, Nat.mul_two, Nat.add_assoc]
  · exact Nat.le_add_right _ _
  · exact le_min (Nat.le_add_right _ _) hp.le

theorem hosts_disjoint {p k : Nat} (hp : p + 2 ^ k < r.hostc) :
    Disjoint (r.hosts p k) (r.hosts (p + 2 ^ k) k) := by
  rw [Finset.disjoint_left]
  intro i hi hi'
  obtain ⟨q, hq, rfl⟩ := Finset.mem_image.mp hi
  obtain ⟨q', hq', heq⟩ := Finset.mem_image.mp hi'
  rw [Finset.mem_Ico] at hq hq'
  have hsame := hostOf_inj (by omega) (by omega) heq
  omega

theorem hosts_succ_last {p k : Nat} (hp : r.hostc ≤ p + 2 ^ k) :
    r.hosts p (k + 1) = r.hosts p k := by
  have hle : 2 ^ k ≤ 2 ^ (k + 1) := Nat.pow_le_pow_right (by decide) (Nat.le_succ k)
  unfold hosts
  rw [Nat.min_eq_right hp, Nat.min_eq_right (by omega)]

theorem hosts_all {k : Nat} (hk : r.hostc ≤ 2 ^ k) : r.hosts 0 k = Finset.range r.hostc := by
  unfold hosts
  rw [Nat.zero_add, Nat.min_eq_right hk]
  ext i
  rw [Finset.mem_image, Finset.mem_range]
  constructor
  · rintro ⟨p, -, rfl⟩
    exact hostOf_lt p
  · intro hi
    exact ⟨r.mypid i, Finset.mem_Ico.mpr ⟨Nat.zero_le _, mypid_lt i⟩, hostOf_mypid hi⟩

/-- A place that sends at level `k` is one power of two behind the one that receives. -/
theorem sender_eq {q k : Nat} (hdvd : 2 ^ k ∣ q) (hnot : ¬ 2 ^ (k + 1) ∣ q) :
    2 ^ (k + 1) ∣ q - 2 ^ k ∧ q - 2 ^ k + 2 ^ k = q := by
  obtain ⟨m, rfl⟩ := hdvd
  have hodd : m % 2 = 1 := by
    by_contra heven
    apply hnot
    have hm : m = 2 * (m / 2) := by omega
    rw [hm, Nat.pow_succ, ← Nat.mul_assoc]
    exact Nat.dvd_mul_right _ _
  have hm : m = 2 * (m / 2) + 1 := by omega
  have hsub : 2 ^ k * m - 2 ^ k = 2 ^ (k + 1) * (m / 2) := by
    rw [hm, Nat.mul_add, Nat.mul_one, Nat.add_sub_cancel, Nat.pow_succ, ← hm]
    rw [Nat.mul_assoc]
  constructor
  · rw [hsub]
    exact Nat.dvd_mul_right _ _
  · apply Nat.sub_add_cancel
    exact Nat.le_mul_of_pos_right _ (by omega)

theorem sender_dvd {p k : Nat} (hdvd : 2 ^ (k + 1) ∣ p) : 2 ^ k ∣ p + 2 ^ k :=
  Nat.dvd_add ((pow_dvd_pow 2 (Nat.le_succ k)).trans hdvd) (Nat.dvd_refl _)

theorem sender_not_dvd {p k : Nat} (hdvd : 2 ^ (k + 1) ∣ p) : ¬ 2 ^ (k + 1) ∣ p + 2 ^ k := by
  intro hcon
  have hpow : 2 ^ (k + 1) ∣ 2 ^ k := (Nat.dvd_add_right hdvd).mp hcon
  have hle := Nat.le_of_dvd (Nat.two_pow_pos k) hpow
  have hlt : 2 ^ k < 2 ^ (k + 1) := Nat.pow_lt_pow_right (by decide) (Nat.lt_succ_self k)
  omega

end Places

/-! ## What is gathered -/

/-- What an operation says about the values of its hosts. -/
def summary (op : IntOp) : Summary Nat Word :=
  match op with
  | .sum => Summary.sum
  | .max => Summary.greatest (fun a b => a.toInt ≤ b.toInt) (fun a b => le_total a.toInt b.toInt)
      fun _ _ _ => le_trans
  | .min => Summary.greatest (fun a b => b.toInt ≤ a.toInt) (fun a b => le_total b.toInt a.toInt)
      fun _ _ _ hab hbc => le_trans hbc hab

theorem summary_op (op : IntOp) (dest source : Word) :
    (summary op).op dest source = op.apply dest source := by
  cases op with
  | sum => rfl
  | max => rfl
  | min =>
      show (if source.toInt ≤ dest.toInt then source else dest) =
        if dest.toInt ≤ source.toInt then dest else source
      by_cases hle : dest.toInt ≤ source.toInt
      · by_cases hge : source.toInt ≤ dest.toInt
        · rw [if_pos hle, if_pos hge]
          exact BitVec.eq_of_toInt_eq (le_antisymm hge hle)
        · rw [if_pos hle, if_neg hge]
      · rw [if_neg hle, if_pos (Int.le_of_not_le hle)]

theorem reduce_eq (op : IntOp) (dest source : List Word) :
    reduce op dest source = List.zipWith (summary op).op dest source := by
  have hop : (summary op).op = op.apply := by
    funext a b
    exact summary_op op a b
  rw [reduce, hop]

/-- A buffer holds the reduction over the hosts of `2^k` places from `p` on. -/
def Gathered (p k : Nat) (buf : List Word) : Prop :=
  (summary r.op).Pointwise 0 r.count r.sendbuf (r.hosts p k) buf

/-- A buffer holds the element-wise reduction over all hosts. -/
def Reduction (buf : List Word) : Prop :=
  (summary r.op).Pointwise 0 r.count r.sendbuf (Finset.range r.hostc) buf

/-! ## The invariant -/

/-- The level of the host at place `p`, and its buffer. -/
def level (s : ReduceState) (p : Nat) : Nat := (s.host (r.hostOf p)).j

/-- The message from place `p + 2^k` to place `p`: it is on its way from the one's turn at
level `k` to the other's. -/
structure Link (s : ReduceState) (p k : Nat) : Prop where
  behind : k < r.level s p → k < r.level s (p + 2 ^ k)
  sent : k < r.level s (p + 2 ^ k) → r.level s p ≤ k →
    ∃ buf, s.net (r.hostOf (p + 2 ^ k)) (r.hostOf p) = [buf] ∧ r.Gathered (p + 2 ^ k) k buf
  empty : ¬ (k < r.level s (p + 2 ^ k) ∧ r.level s p ≤ k) →
    s.net (r.hostOf (p + 2 ^ k)) (r.hostOf p) = []

/-- The pairs of places that a message is sent between, and its level. -/
def Pair (p k : Nat) : Prop := 2 ^ (k + 1) ∣ p ∧ p + 2 ^ k < r.hostc

structure Inv (s : ReduceState) : Prop where
  value : ∀ p < r.hostc, 2 ^ r.level s p ∣ p →
    r.Gathered p (r.level s p) (s.host (r.hostOf p)).recvbuf
  link : ∀ p k, r.Pair p k → r.Link s p k
  other : ∀ a b, s.net a b ≠ [] →
    ∃ p k, r.Pair p k ∧ a = r.hostOf (p + 2 ^ k) ∧ b = r.hostOf p
  level_le : ∀ i, (s.host i).j ≤ Nat.clog 2 r.hostc
  returned : ∀ i, (s.host i).returned = true → r.hostc ≤ 2 ^ (s.host i).j

section Steps

variable {r} {s s' : ReduceState}

theorem Link.keep {p k : Nat} (h : r.Link s p k)
    (hsender : k < r.level s' (p + 2 ^ k) ↔ k < r.level s (p + 2 ^ k))
    (hreceiver : k < r.level s' p ↔ k < r.level s p)
    (hnet : s'.net (r.hostOf (p + 2 ^ k)) (r.hostOf p) = s.net (r.hostOf (p + 2 ^ k)) (r.hostOf p)) :
    r.Link s' p k where
  behind := by
    rw [hsender, hreceiver]
    exact h.behind
  sent hs hr := by
    rw [hnet]
    apply h.sent (hsender.mp hs)
    exact not_lt.mp (mt hreceiver.mpr (not_lt.mpr hr))
  empty hnot := by
    rw [hnet]
    apply h.empty
    rw [← hsender, ← not_lt, ← hreceiver, not_lt]
    exact hnot

theorem Inv.start : r.Inv r.start where
  value p hp _ := by
    show (summary r.op).Pointwise 0 r.count r.sendbuf (r.hosts p 0) (r.sendbuf (r.hostOf p))
    rw [hosts_zero hp]
    exact Summary.Pointwise.single (r.length_sendbuf _)
  link p k _ := ⟨nofun, nofun, fun _ => rfl⟩
  other a b hne := absurd rfl hne
  level_le _ := Nat.zero_le _
  returned _ h := by cases h

theorem host_next_of_ne {i q : Nat} {buf : List Word} {net : Net (List Word)} (h : q ≠ i) :
    (next s i buf net).host q = s.host q := upd_of_ne _ _ h

theorem host_next {i : Nat} {buf : List Word} {net : Net (List Word)} :
    (next s i buf net).host i = { s.host i with j := (s.host i).j + 1, recvbuf := buf } :=
  upd_same _ _ _

/-- The level after host `i` has gone on. -/
theorem level_next {i p : Nat} {buf : List Word} {net : Net (List Word)} (hi : i < r.hostc)
    (hp : p < r.hostc) :
    r.level (next s i buf net) p = if p = r.mypid i then r.level s p + 1 else r.level s p := by
  unfold level
  by_cases hpi : p = r.mypid i
  · rw [if_pos hpi, hpi, hostOf_mypid hi, host_next]
  · have hne : r.hostOf p ≠ i := by
      intro heq
      rw [← heq, mypid_hostOf hp] at hpi
      exact hpi rfl
    rw [if_neg hpi, host_next_of_ne hne]

/-- A pair of which the host that goes on is no part, at the level where it stands. -/
theorem Link.of_next {i p k : Nat} {buf : List Word} {net : Net (List Word)} (hi : i < r.hostc)
    (hpair : r.Pair p k) (h : r.Link s p k)
    (hsender : p + 2 ^ k = r.mypid i → k ≠ (s.host i).j)
    (hreceiver : p = r.mypid i → k ≠ (s.host i).j)
    (hnet : net (r.hostOf (p + 2 ^ k)) (r.hostOf p) =
      s.net (r.hostOf (p + 2 ^ k)) (r.hostOf p)) : r.Link (next s i buf net) p k := by
  have hlevel : ∀ q, q < r.hostc → (q = r.mypid i → k ≠ (s.host i).j) →
      (k < r.level (next s i buf net) q ↔ k < r.level s q) := by
    intro q hq hne
    rw [level_next hi hq]
    by_cases hqi : q = r.mypid i
    · have hj : r.level s q = (s.host i).j := by
        unfold level
        rw [hqi, hostOf_mypid hi]
      have hkj := hne hqi
      rw [if_pos hqi, hj]
      omega
    · rw [if_neg hqi]
  apply h.keep (hlevel _ hpair.2 hsender) ?_ hnet
  exact hlevel p (lt_of_le_of_lt (Nat.le_add_right _ _) hpair.2) hreceiver

theorem Inv.next (hinv : r.Inv s) {i : Nat} (hi : i < r.hostc) (hreturned : (s.host i).returned = false)
    (hlevel : 2 ^ (s.host i).j < r.hostc) {buf : List Word} {net : Net (List Word)}
    (hvalue : 2 ^ ((s.host i).j + 1) ∣ r.mypid i →
      r.Gathered (r.mypid i) ((s.host i).j + 1) buf)
    (hlink : ∀ p k, r.Pair p k → r.Link (Call.next s i buf net) p k)
    (hother : ∀ a b, net a b ≠ [] →
      ∃ p k, r.Pair p k ∧ a = r.hostOf (p + 2 ^ k) ∧ b = r.hostOf p) :
    r.Inv (Call.next s i buf net) where
  value p hp hdvd := by
    rw [level_next hi hp] at hdvd ⊢
    have hj : r.level s (r.mypid i) = (s.host i).j := by
      unfold level
      rw [hostOf_mypid hi]
    by_cases hpi : p = r.mypid i
    · rw [if_pos hpi, hpi, hj] at hdvd
      rw [if_pos hpi, hpi, hj, hostOf_mypid hi, host_next]
      exact hvalue hdvd
    · have hne : r.hostOf p ≠ i := by
        intro heq
        rw [← heq, mypid_hostOf hp] at hpi
        exact hpi rfl
      rw [if_neg hpi] at hdvd ⊢
      rw [host_next_of_ne hne]
      exact hinv.value p hp hdvd
  link := hlink
  other := hother
  level_le q := by
    by_cases hq : q = i
    · rw [hq, host_next]
      exact (Nat.lt_clog_iff_pow_lt (by decide)).mpr hlevel
    · rw [host_next_of_ne hq]
      exact hinv.level_le q
  returned q hq := by
    by_cases hqi : q = i
    · rw [hqi, host_next] at hq
      rw [hreturned] at hq
      cases hq
    · rw [host_next_of_ne hqi] at hq ⊢
      exact hinv.returned q hq

theorem Inv.skip (hinv : r.Inv s) {i : Nat} (hi : i < r.hostc)
    (hreturned : (s.host i).returned = false) (hlevel : 2 ^ (s.host i).j < r.hostc)
    (hvalue : 2 ^ ((s.host i).j + 1) ∣ r.mypid i →
      r.Gathered (r.mypid i) ((s.host i).j + 1) (s.host i).recvbuf)
    (hnosend : 2 ^ (s.host i).j ∣ r.mypid i → 2 ^ ((s.host i).j + 1) ∣ r.mypid i)
    (hnorecv : 2 ^ ((s.host i).j + 1) ∣ r.mypid i → r.hostc ≤ r.mypid i + 2 ^ (s.host i).j) :
    r.Inv (Call.next s i (s.host i).recvbuf s.net) := by
  apply hinv.next hi hreturned hlevel hvalue ?_ hinv.other
  intro p k hpair
  apply (hinv.link p k hpair).of_next hi hpair ?_ ?_ rfl
  · intro hsender hk
    rw [hk] at hpair hsender
    have hdvd := hnosend (hsender ▸ sender_dvd hpair.1)
    exact sender_not_dvd hpair.1 (hsender ▸ hdvd)
  · intro hreceiver hk
    rw [hk, hreceiver] at hpair
    have hle := hnorecv hpair.1
    exact absurd hpair.2 (not_lt.mpr hle)

theorem Inv.value_of (hinv : r.Inv s) {i : Nat} (hi : i < r.hostc)
    (hdvd : 2 ^ (s.host i).j ∣ r.mypid i) :
    r.Gathered (r.mypid i) (s.host i).j (s.host i).recvbuf := by
  have hlevel : r.level s (r.mypid i) = (s.host i).j := by
    unfold level
    rw [hostOf_mypid hi]
  have hvalue := hinv.value (r.mypid i) (mypid_lt i) (hlevel.symm ▸ hdvd)
  rwa [hlevel, hostOf_mypid hi] at hvalue

theorem channel_ne {p k q l : Nat} (hp : r.Pair p k) (hq : r.Pair q l) (hne : ¬ (p = q ∧ k = l)) :
    ¬ (r.hostOf (p + 2 ^ k) = r.hostOf (q + 2 ^ l) ∧ r.hostOf p = r.hostOf q) := by
  rintro ⟨hsrc, hdst⟩
  have hpq := hostOf_inj (lt_of_le_of_lt (Nat.le_add_right _ _) hp.2)
    (lt_of_le_of_lt (Nat.le_add_right _ _) hq.2) hdst
  have hsum := hostOf_inj hp.2 hq.2 hsrc
  rw [hpq] at hsum
  exact hne ⟨hpq, Nat.pow_right_injective (le_refl 2) (Nat.add_left_cancel hsum)⟩

theorem Inv.send (hinv : r.Inv s) {i : Nat} (hi : i < r.hostc)
    (hreturned : (s.host i).returned = false) (hlevel : 2 ^ (s.host i).j < r.hostc)
    (hdvd : 2 ^ (s.host i).j ∣ r.mypid i) (hnot : ¬ 2 ^ ((s.host i).j + 1) ∣ r.mypid i) :
    r.Inv (Call.next s i (s.host i).recvbuf
      (Fifo.send s.net i [(r.hostOf (r.mypid i - 2 ^ (s.host i).j), (s.host i).recvbuf)])) := by
  obtain ⟨hparent, hsum⟩ := sender_eq hdvd hnot
  generalize hq : r.mypid i - 2 ^ (s.host i).j = q at *
  have hpair : r.Pair q (s.host i).j := ⟨hparent, hsum ▸ mypid_lt i⟩
  have hsrc : r.hostOf (q + 2 ^ (s.host i).j) = i := by rw [hsum, hostOf_mypid hi]
  have hlevel_i : r.level s (q + 2 ^ (s.host i).j) = (s.host i).j := by
    unfold level
    rw [hsrc]
  have hlink := hinv.link q _ hpair
  have hwaits : r.level s q ≤ (s.host i).j := by
    by_contra hlt
    have hbehind := hlink.behind (not_le.mp hlt)
    rw [hlevel_i] at hbehind
    exact absurd hbehind (lt_irrefl _)
  have hempty : s.net i (r.hostOf q) = [] := by
    have hnone := hlink.empty (fun hand => by
      rw [hlevel_i] at hand
      exact lt_irrefl _ hand.1)
    rwa [hsrc] at hnone
  have hother : ∀ a b, ¬ (a = i ∧ b = r.hostOf q) →
      Fifo.send s.net i [(r.hostOf q, (s.host i).recvbuf)] a b = s.net a b := by
    intro a b hab
    by_cases ha : a = i
    · have hb : r.hostOf q ≠ b := fun heq => hab ⟨ha, heq.symm⟩
      rw [ha, send_same, outboxTo_cons_ne _ _ hb, outboxTo_nil, List.append_nil]
    · rw [send_of_ne _ _ _ ha]
  have hsame : Fifo.send s.net i [(r.hostOf q, (s.host i).recvbuf)] i (r.hostOf q) =
      [(s.host i).recvbuf] := by
    rw [send_same, outboxTo_cons_same, outboxTo_nil, hempty, List.nil_append]
  apply hinv.next hi hreturned hlevel (fun hcon => absurd hcon hnot)
  · intro p k hpk
    by_cases heq : p = q ∧ k = (s.host i).j
    · -- the message that has just gone out
      obtain ⟨rfl, rfl⟩ := heq
      have hp : p < r.hostc := lt_of_le_of_lt (Nat.le_add_right _ _) hpair.2
      have hself : r.mypid i ≠ p := by
        have hpos := Nat.two_pow_pos (s.host i).j
        omega
      have hsender : r.level (Call.next s i (s.host i).recvbuf
          (Fifo.send s.net i [(r.hostOf p, (s.host i).recvbuf)])) (p + 2 ^ (s.host i).j) =
          (s.host i).j + 1 := by
        rw [level_next hi hpair.2, if_pos hsum, hlevel_i]
      have hreceiver : r.level (Call.next s i (s.host i).recvbuf
          (Fifo.send s.net i [(r.hostOf p, (s.host i).recvbuf)])) p = r.level s p := by
        rw [level_next hi hp, if_neg hself.symm]
      constructor
      · intro _
        rw [hsender]
        exact Nat.lt_succ_self _
      · intro _ _
        refine ⟨(s.host i).recvbuf, ?_, ?_⟩
        · rw [hsrc]
          exact hsame
        · rw [hsum]
          exact hinv.value_of hi hdvd
      · intro hcon
        apply absurd _ hcon
        rw [hsender, hreceiver]
        exact ⟨Nat.lt_succ_self _, hwaits⟩
    · have hchannel := channel_ne hpk hpair heq
      rw [hsrc] at hchannel
      apply (hinv.link p k hpk).of_next hi hpk ?_ ?_ (hother _ _ hchannel)
      · intro hsender hk
        apply heq
        rw [hk] at hsender
        exact ⟨Nat.add_right_cancel (hsender.trans hsum.symm), hk⟩
      · intro hreceiver hk
        apply hnot
        rw [← hk, ← hreceiver]
        exact hpk.1
  · intro a b hne
    by_cases hab : a = i ∧ b = r.hostOf q
    · exact ⟨q, _, hpair, hab.1.trans hsrc.symm, hab.2⟩
    · rw [hother a b hab] at hne
      exact hinv.other a b hne

theorem Inv.receive (hinv : r.Inv s) {i : Nat} (hi : i < r.hostc)
    (hreturned : (s.host i).returned = false) (hlevel : 2 ^ (s.host i).j < r.hostc)
    (hdvd : 2 ^ ((s.host i).j + 1) ∣ r.mypid i) (hpartner : r.mypid i + 2 ^ (s.host i).j < r.hostc)
    {buf : List Word} {rest : List (List Word)}
    (hnet : s.net (r.hostOf (r.mypid i + 2 ^ (s.host i).j)) i = buf :: rest) :
    r.len = buf.length * thesizeof ∧
    r.Inv (Call.next s i (reduce r.op (s.host i).recvbuf buf)
      (drop s.net (r.hostOf (r.mypid i + 2 ^ (s.host i).j)) i)) := by
  have hpair : r.Pair (r.mypid i) (s.host i).j := ⟨hdvd, hpartner⟩
  have hdst := hostOf_mypid hi
  have hlevel_i : r.level s (r.mypid i) = (s.host i).j := by
    unfold level
    rw [hdst]
  have hlink := hinv.link _ _ hpair
  have hsent : (s.host i).j < r.level s (r.mypid i + 2 ^ (s.host i).j) := by
    by_contra hnot
    have hempty := hlink.empty (fun hand => hnot hand.1)
    rw [hdst, hnet] at hempty
    cases hempty
  obtain ⟨buf', hone, hgathered⟩ := hlink.sent hsent hlevel_i.le
  rw [hdst, hnet, List.cons.injEq] at hone
  obtain ⟨rfl, rfl⟩ := hone
  have hdrop : drop s.net (r.hostOf (r.mypid i + 2 ^ (s.host i).j)) i
      (r.hostOf (r.mypid i + 2 ^ (s.host i).j)) i = [] := drop_same hnet
  constructor
  · rw [len, hgathered.length]
  · apply hinv.next hi hreturned hlevel
    · intro _
      have hmine := hinv.value_of hi ((pow_dvd_pow 2 (Nat.le_succ _)).trans hdvd)
      have hboth := hmine.union (hosts_disjoint hpartner) hgathered
      rw [← reduce_eq, ← hosts_succ _ _ hpartner] at hboth
      exact hboth
    · intro p k hpk
      by_cases heq : p = r.mypid i ∧ k = (s.host i).j
      · -- the message that has just been taken
        obtain ⟨rfl, rfl⟩ := heq
        have hself : r.mypid i + 2 ^ (s.host i).j ≠ r.mypid i := by
          have hpos := Nat.two_pow_pos (s.host i).j
          omega
        have hsender : ∀ net, r.level (Call.next s i (reduce r.op (s.host i).recvbuf buf) net)
            (r.mypid i + 2 ^ (s.host i).j) = r.level s (r.mypid i + 2 ^ (s.host i).j) := by
          intro net
          rw [level_next hi hpartner, if_neg hself]
        have hreceiver : ∀ net, r.level (Call.next s i (reduce r.op (s.host i).recvbuf buf) net)
            (r.mypid i) = (s.host i).j + 1 := by
          intro net
          rw [level_next hi (mypid_lt i), if_pos rfl, hlevel_i]
        constructor
        · intro _
          rw [hsender]
          exact hsent
        · intro _ hle
          rw [hreceiver] at hle
          exact absurd hle (Nat.not_succ_le_self _)
        · intro _
          rw [hdst]
          exact hdrop
      · have hchannel := channel_ne hpk hpair heq
        rw [hdst] at hchannel
        apply (hinv.link p k hpk).of_next hi hpk ?_ ?_ (drop_of_ne _ hchannel)
        · intro hsender hk
          rw [hk] at hpk hsender
          exact sender_not_dvd hpk.1 (hsender ▸ hdvd)
        · intro hreceiver hk
          exact heq ⟨hreceiver, hk⟩
    · intro a b hne
      by_cases hab : a = r.hostOf (r.mypid i + 2 ^ (s.host i).j) ∧ b = i
      · rw [hab.1, hab.2, hdrop] at hne
        exact absurd rfl hne
      · rw [drop_of_ne _ hab] at hne
        exact hinv.other a b hne

theorem finish_host (i : Nat) :
    (Call.finish s i).host i = { s.host i with returned := true } := upd_same _ _ _

theorem finish_of_ne {i q : Nat} (h : q ≠ i) : (Call.finish s i).host q = s.host q :=
  upd_of_ne _ _ h

theorem finish_j (i q : Nat) : ((Call.finish s i).host q).j = (s.host q).j := by
  by_cases hq : q = i
  · rw [hq, finish_host]
  · rw [finish_of_ne hq]

theorem finish_recvbuf (i q : Nat) : ((Call.finish s i).host q).recvbuf = (s.host q).recvbuf := by
  by_cases hq : q = i
  · rw [hq, finish_host]
  · rw [finish_of_ne hq]

theorem Inv.finish (hinv : r.Inv s) {i : Nat} (hlevel : ¬ 2 ^ (s.host i).j < r.hostc) :
    r.Inv (Call.finish s i) := by
  have hlevels : ∀ q, r.level (Call.finish s i) q = r.level s q := fun q => finish_j i _
  constructor
  · intro p hp hdvd
    rw [hlevels] at hdvd ⊢
    rw [finish_recvbuf]
    exact hinv.value p hp hdvd
  · intro p k hpair
    have hlink := hinv.link p k hpair
    apply @Link.keep r s (Call.finish s i) p k hlink ?_ ?_ rfl
    · rw [hlevels]
    · rw [hlevels]
  · exact hinv.other
  · intro q
    rw [finish_j]
    exact hinv.level_le q
  · intro q hq
    rw [finish_j]
    by_cases hqi : q = i
    · rw [hqi]
      exact not_lt.mp hlevel
    · rw [finish_of_ne hqi] at hq
      exact hinv.returned q hq

/-! ## One turn -/

/-- The turns the hosts have taken. -/
def turnsOf (h : Reducer) : Nat := h.j + if h.returned then 1 else 0

def turns (r : Call) (s : ReduceState) : Nat := ∑ i ∈ Finset.range r.hostc, turnsOf (s.host i)

theorem turns_of_host {i : Nat} (hi : i < r.hostc)
    (hone : turnsOf (s'.host i) = turnsOf (s.host i) + 1)
    (hother : ∀ q, q ≠ i → s'.host q = s.host q) : r.turns s' = r.turns s + 1 := by
  have hmem : i ∈ Finset.range r.hostc := Finset.mem_range.mpr hi
  unfold turns
  rw [← Finset.add_sum_erase _ _ hmem, ← Finset.add_sum_erase _ _ hmem, hone]
  have hrest : ∑ q ∈ (Finset.range r.hostc).erase i, turnsOf (s'.host q) =
      ∑ q ∈ (Finset.range r.hostc).erase i, turnsOf (s.host q) := by
    apply Finset.sum_congr rfl
    intro q hq
    rw [hother q (Finset.ne_of_mem_erase hq)]
  rw [hrest]
  omega

theorem turns_next {i : Nat} {buf : List Word} {net : Net (List Word)} (hi : i < r.hostc) :
    r.turns (Call.next s i buf net) = r.turns s + 1 := by
  apply turns_of_host hi
  · rw [host_next]
    show (s.host i).j + 1 + (if (s.host i).returned = true then 1 else 0) =
      (s.host i).j + (if (s.host i).returned = true then 1 else 0) + 1
    omega
  · exact fun q hq => host_next_of_ne hq

theorem turns_finish {i : Nat} (hi : i < r.hostc) (hreturned : (s.host i).returned = false) :
    r.turns (Call.finish s i) = r.turns s + 1 := by
  apply turns_of_host hi
  · unfold turnsOf
    rw [finish_host, hreturned]
    rfl
  · exact fun q hq => finish_of_ne hq

/-- A turn is one of: a wait for a buffer that is not there, or a step. -/
theorem Inv.turn (hinv : r.Inv s) (i : Nat) :
    (r.turn s i = .error .blocked ∧
      (i < r.hostc → (s.host i).returned = false → 2 ^ (s.host i).j < r.hostc ∧
        r.Pair (r.mypid i) (s.host i).j ∧
        s.net (r.hostOf (r.mypid i + 2 ^ (s.host i).j)) i = [])) ∨
    ∃ s', r.turn s i = .ok s' ∧ r.Inv s' ∧ r.turns s' = r.turns s + 1 := by
  unfold Call.turn
  by_cases hactive : i < r.hostc ∧ (s.host i).returned = false
  · rw [if_pos hactive]
    obtain ⟨hi, hreturned⟩ := hactive
    by_cases hlevel : 2 ^ (s.host i).j < r.hostc
    · rw [if_pos hlevel]
      by_cases hdvd : r.mypid i % 2 ^ (s.host i).j = 0
      · rw [if_pos hdvd]
        have hdvd' := Nat.dvd_of_mod_eq_zero hdvd
        by_cases hsend : r.mypid i % 2 ^ ((s.host i).j + 1) ≠ 0
        · right
          rw [if_pos hsend]
          have hnot : ¬ 2 ^ ((s.host i).j + 1) ∣ r.mypid i := mt Nat.mod_eq_zero_of_dvd hsend
          exact ⟨_, rfl, hinv.send hi hreturned hlevel hdvd' hnot, turns_next hi⟩
        · rw [if_neg hsend]
          have hnext := Nat.dvd_of_mod_eq_zero (not_not.mp hsend)
          by_cases hpartner : r.mypid i + 2 ^ (s.host i).j < r.hostc
          · rw [if_pos hpartner]
            cases hnet : s.net (r.hostOf (r.mypid i + 2 ^ (s.host i).j)) i with
            | nil =>
                left
                refine ⟨?_, fun _ _ => ⟨hlevel, ⟨hnext, hpartner⟩, rfl⟩⟩
                unfold Call.receive
                rw [hnet]
            | cons buf rest =>
                right
                obtain ⟨hlen, hinv'⟩ := hinv.receive hi hreturned hlevel hnext hpartner hnet
                refine ⟨_, ?_, hinv', turns_next hi⟩
                unfold Call.receive jiaAssert
                simp only [hnet, if_pos hlen]
                rfl
          · right
            rw [if_neg hpartner]
            refine ⟨_, rfl, hinv.skip hi hreturned hlevel ?_ (fun _ => hnext)
              (fun _ => not_lt.mp hpartner), turns_next hi⟩
            intro _
            unfold Gathered
            rw [hosts_succ_last (not_lt.mp hpartner)]
            exact hinv.value_of hi hdvd'
      · right
        rw [if_neg hdvd]
        have hnot : ¬ 2 ^ (s.host i).j ∣ r.mypid i := mt Nat.mod_eq_zero_of_dvd hdvd
        have hnot' : ¬ 2 ^ ((s.host i).j + 1) ∣ r.mypid i :=
          fun hcon => hnot ((pow_dvd_pow 2 (Nat.le_succ _)).trans hcon)
        exact ⟨_, rfl, hinv.skip hi hreturned hlevel (fun hcon => absurd hcon hnot')
          (fun hcon => absurd hcon hnot) (fun hcon => absurd hcon hnot'), turns_next hi⟩
    · right
      rw [if_neg hlevel]
      exact ⟨_, rfl, hinv.finish hlevel, turns_finish hi hreturned⟩
  · left
    rw [if_neg hactive]
    exact ⟨rfl, fun hi hreturned => absurd ⟨hi, hreturned⟩ hactive⟩

end Steps

/-! ## The whole reduction -/

/-- What `jia_reduce` promises in every state of a run. -/
structure Correct (s : ReduceState) : Prop where
  /-- No assertion fails: a host can only be stopped by waiting for a buffer. -/
  sound : ∀ i a, r.turn s i = .error a → a = .blocked
  /-- While a host is inside, some host can go on. -/
  live : (∃ i < r.hostc, (s.host i).returned = false) → ∃ i < r.hostc, ∃ s', r.turn s i = .ok s'
  /-- Once all hosts are out, every buffer that was sent has been received. -/
  drained : (∀ i < r.hostc, (s.host i).returned = true) → ∀ a b, s.net a b = []
  /-- The root returns with the reduction. -/
  result : (s.host r.root).returned = true → r.Reduction (s.host r.root).recvbuf

section Results

variable {r} {s : ReduceState}

theorem Inv.live (hinv : r.Inv s) (h : ∃ i < r.hostc, (s.host i).returned = false) :
    ∃ i < r.hostc, ∃ s', r.turn s i = .ok s' := by
  -- of the hosts inside, one at the lowest level
  let inside := (Finset.range r.hostc).filter fun i => (s.host i).returned = false
  have hmem : ∀ i, i ∈ inside ↔ i < r.hostc ∧ (s.host i).returned = false := by
    intro i
    rw [Finset.mem_filter, Finset.mem_range]
  obtain ⟨i₀, hi₀⟩ := h
  obtain ⟨i, hi, hmin⟩ := inside.exists_min_image (fun i => (s.host i).j)
    ⟨i₀, (hmem i₀).mpr hi₀⟩
  obtain ⟨hlt, hreturned⟩ := (hmem i).mp hi
  cases hinv.turn i with
  | inr hstep =>
      obtain ⟨s', hok, -⟩ := hstep
      exact ⟨i, hlt, s', hok⟩
  | inl hblocked =>
      obtain ⟨-, hwait⟩ := hblocked
      obtain ⟨hlevel, hpair, hnet⟩ := hwait hlt hreturned
      -- it waits for a host at the same level, which can send
      have hsrc := @hostOf_lt r (r.mypid i + 2 ^ (s.host i).j)
      have hplace := mypid_hostOf hpair.2
      generalize hq : r.hostOf (r.mypid i + 2 ^ (s.host i).j) = q at *
      have hlink := hinv.link _ _ hpair
      have hlevel_i : r.level s (r.mypid i) = (s.host i).j := by
        unfold Call.level
        rw [hostOf_mypid hlt]
      have hlevel_q : r.level s (r.mypid i + 2 ^ (s.host i).j) = (s.host q).j := by
        unfold Call.level
        rw [hq]
      have hle : (s.host q).j ≤ (s.host i).j := by
        by_contra hgt
        obtain ⟨buf, hbuf, -⟩ := hlink.sent (hlevel_q ▸ not_le.mp hgt) hlevel_i.le
        rw [hq, hostOf_mypid hlt, hnet] at hbuf
        cases hbuf
      have hinside : (s.host q).returned = false := by
        by_contra hout
        have hdone := hinv.returned q (Bool.not_eq_false _ ▸ hout)
        have hpow := Nat.pow_le_pow_right (show 0 < 2 by decide) hle
        omega
      have hsame : (s.host q).j = (s.host i).j :=
        le_antisymm hle (hmin q ((hmem q).mpr ⟨hsrc, hinside⟩))
      refine ⟨q, hsrc, ?_⟩
      cases hinv.turn q with
      | inr hstep =>
          obtain ⟨s', hok, -⟩ := hstep
          exact ⟨s', hok⟩
      | inl hstuck =>
          have hpair' := (hstuck.2 hsrc hinside).2.1
          rw [hplace, hsame] at hpair'
          exact absurd hpair'.1 (sender_not_dvd hpair.1)

theorem Inv.drained (hinv : r.Inv s) (hall : ∀ i < r.hostc, (s.host i).returned = true)
    (a b : Nat) : s.net a b = [] := by
  by_contra hne
  obtain ⟨p, k, hpair, rfl, rfl⟩ := hinv.other a b hne
  apply hne
  apply (hinv.link p k hpair).empty
  rintro ⟨-, hle⟩
  have hdone := hinv.returned _ (hall (r.hostOf p) (hostOf_lt p))
  have hpow := Nat.pow_le_pow_right (show 0 < 2 by decide) hle
  have hlt := hpair.2
  unfold Call.level at hpow
  omega

theorem Inv.result (hinv : r.Inv s) (hout : (s.host r.root).returned = true) :
    r.Reduction (s.host r.root).recvbuf := by
  have hvalue := hinv.value 0 hostc_pos (Nat.dvd_zero _)
  have hdone := hinv.returned r.root hout
  unfold Gathered Call.level at hvalue
  rw [hostOf_zero, hosts_all hdone] at hvalue
  exact hvalue

theorem Inv.correct (hinv : r.Inv s) : r.Correct s where
  sound i a h := by
    cases hinv.turn i with
    | inl hblocked =>
        rw [hblocked.1] at h
        exact (Except.error.inj h).symm
    | inr hstep =>
        obtain ⟨s', hok, -⟩ := hstep
        rw [hok] at h
        cases h
  live := hinv.live
  drained := hinv.drained
  result := hinv.result

/-- A trace has as many steps as turns were taken. -/
theorem trace_inv {es : List Nat} (h : r.system.Trace es s) : r.Inv s ∧ es.length = r.turns s := by
  apply h.invariant (I := fun es s => r.Inv s ∧ es.length = r.turns s)
  · refine ⟨.start, ?_⟩
    symm
    exact Finset.sum_eq_zero fun i _ => rfl
  · intro es s i s' _ hi hstep
    obtain ⟨hinv, hlen⟩ := hi
    cases hinv.turn i with
    | inl hblocked =>
        have hok : r.turn s i = .ok s' := hstep
        rw [hblocked.1] at hok
        cases hok
    | inr hgo =>
        obtain ⟨s₁, hok, hinv', hturns⟩ := hgo
        have hsame : s₁ = s' := Except.ok.inj (hok.symm.trans hstep)
        subst hsame
        refine ⟨hinv', ?_⟩
        rw [List.length_append, List.length_singleton, hlen, hturns]

theorem Inv.turns_le (hinv : r.Inv s) : r.turns s ≤ r.hostc * (Nat.clog 2 r.hostc + 1) := by
  have hone : ∀ i ∈ Finset.range r.hostc, turnsOf (s.host i) ≤ Nat.clog 2 r.hostc + 1 := by
    intro i _
    have hle := hinv.level_le i
    unfold turnsOf
    split <;> omega
  have hsum := Finset.sum_le_card_nsmul _ _ _ hone
  rwa [Finset.card_range, nsmul_eq_mul, Nat.cast_id] at hsum

/-- Every run of `jia_reduce` on all hosts ends, and does what it is for. -/
theorem jia_reduce_correct (r : Call) {es : List Nat} {s : ReduceState}
    (h : r.system.Trace es s) :
    es.length ≤ r.hostc * (Nat.clog 2 r.hostc + 1) ∧ r.Correct s := by
  obtain ⟨hinv, hlen⟩ := trace_inv h
  refine ⟨?_, hinv.correct⟩
  rw [hlen]
  exact hinv.turns_le

end Results

/-- Three hosts add up; the root is host 1. -/
def threeHosts : Call where
  hostc := 3
  root := 1
  count := 2
  op := .sum
  sendbuf i := [BitVec.ofNat 32 (10 ^ i), 0xffffffff]
  root_lt := by decide
  length_sendbuf _ := rfl

/-- A run of all three to its end. -/
def threeRun : List Nat := [2, 1, 0, 0, 1, 2, 0, 1, 2]

theorem jia_reduce_correct_threeHosts :
    ∃ s, threeHosts.system.Trace threeRun s ∧ threeHosts.Correct s := by
  obtain ⟨s, hs⟩ := System.exists_trace (S := threeHosts.system) (f := threeHosts.turn)
    (fun _ _ _ hstep => hstep) threeRun (by decide)
  exact ⟨s, hs, (jia_reduce_correct threeHosts hs).2⟩

example : (System.execBy threeHosts.turn threeRun threeHosts.start).toOption.map
    (fun s => (s.host 1).recvbuf) = some [111, 0xfffffffd] := by decide

end Call

end Jiajia.Reduce
