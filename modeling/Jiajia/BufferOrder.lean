import Jiajia.MsgPass
import Jiajia.Lib.Transition

/-!
# The order of the receive buffer

`msgbuf[]` over any history of arrivals and removals.  The age of a chunk is the number of
`msgrecvserver` calls up to its own; `msgbuf[]` keeps it as an `unsigned int`, and
`nextpacket` only looks below `Maxmsgno`.
-/

namespace Jiajia.MsgPass

open Transition

inductive BufEvent
  /-- `msgrecvserver` stores a chunk. -/
  | arrive (req : Chunk)
  /-- A chunk is taken out. -/
  | remove (i : Nat)

/-- The receive buffer, however chunks arrive and are taken out. -/
def bufferSystem : System MsgBufs BufEvent where
  start := initmsg
  next b e b' :=
    match e with
    | .arrive req => req.op ≠ .errmsg ∧ msgrecvserver b req = .ok b'
    | .remove i => i < Maxmsgbufs ∧ b' = clearOp b i

/-- The first free entry. -/
def freeEntry (b : MsgBufs) : Nat := firstIdx (fun i => (b.msgbuf i).op == .errmsg) Maxmsgbufs 0

/-- The age of the chunk in each entry. -/
def ageHistory : System.Observer MsgBufs BufEvent (Nat → Nat) where
  start _ := 0
  obs age b e b' :=
    match e with
    | .arrive _ => upd age (freeEntry b) b'.msgseqno
    | .remove _ => age

/-! ## The search -/

section Search

variable {b : MsgBufs} {fromproc tag : BitVec 32}

/-- Entry `i` is found before entry `j`. -/
def Before (seqno : Nat → Nat) (i j : Nat) : Prop :=
  seqno i < seqno j ∨ (seqno i = seqno j ∧ i < j)

/-- What the loop of `nextpacket` has after the first `k` entries. -/
def Scanned (fromproc tag : BitVec 32) (b : MsgBufs) (k : Nat) (r : Nat × Nat) : Prop :=
  (r = (Maxmsgbufs, Maxmsgno) ∧
    ∀ j < k, Wanted fromproc tag (b.msgbuf j) → Maxmsgno ≤ (b.msgbuf j).seqno) ∨
  (r.1 < k ∧ Wanted fromproc tag (b.msgbuf r.1) ∧ r.2 = (b.msgbuf r.1).seqno ∧ r.2 < Maxmsgno ∧
    ∀ j < k, Wanted fromproc tag (b.msgbuf j) → j ≠ r.1 →
      Before (fun i => (b.msgbuf i).seqno) r.1 j)

theorem Scanned.turn {k : Nat} {r : Nat × Nat} (h : Scanned fromproc tag b k r) :
    Scanned fromproc tag b (k + 1) (nextpacketTurn fromproc tag b r k) := by
  by_cases hk : Wanted fromproc tag (b.msgbuf k) ∧ (b.msgbuf k).seqno < r.2
  · have hturn : nextpacketTurn fromproc tag b r k = (k, (b.msgbuf k).seqno) := if_pos hk
    rw [hturn]
    right
    cases h with
    | inl hnone =>
        obtain ⟨hr, hlate⟩ := hnone
        have hlt : (b.msgbuf k).seqno < Maxmsgno := by
          rw [hr] at hk
          exact hk.2
        refine ⟨Nat.lt_succ_self k, hk.1, rfl, hlt, ?_⟩
        intro j hj hwanted hne
        have hge := hlate j (by omega) hwanted
        exact Or.inl (hlt.trans_le hge)
    | inr hsome =>
        obtain ⟨hr, hwanted', hseq, hlt, hfirst⟩ := hsome
        refine ⟨Nat.lt_succ_self k, hk.1, rfl, hk.2.trans hlt, ?_⟩
        intro j hj hwanted hne
        left
        show (b.msgbuf k).seqno < (b.msgbuf j).seqno
        by_cases hjr : j = r.1
        · rw [hjr, ← hseq]
          exact hk.2
        · have hbefore := hfirst j (by omega) hwanted hjr
          simp only [Before, ← hseq] at hbefore
          omega
  · have hturn : nextpacketTurn fromproc tag b r k = r := if_neg hk
    rw [hturn]
    cases h with
    | inl hnone =>
        obtain ⟨hr, hlate⟩ := hnone
        left
        refine ⟨hr, ?_⟩
        intro j hj hwanted
        by_cases hjk : j = k
        · subst hjk
          rw [hr] at hk
          exact not_lt.mp fun hlt => hk ⟨hwanted, hlt⟩
        · exact hlate j (by omega) hwanted
    | inr hsome =>
        obtain ⟨hr, hwanted', hseq, hlt, hfirst⟩ := hsome
        right
        refine ⟨by omega, hwanted', hseq, hlt, ?_⟩
        intro j hj hwanted hne
        by_cases hjk : j = k
        · subst hjk
          have hge : ¬ (b.msgbuf j).seqno < r.2 := fun hlt' => hk ⟨hwanted, hlt'⟩
          simp only [Before, ← hseq]
          omega
        · exact hfirst j (by omega) hwanted hne

variable (fromproc tag b) in
theorem scanned (k : Nat) : Scanned fromproc tag b k
    ((List.range k).foldl (nextpacketTurn fromproc tag b) (Maxmsgbufs, Maxmsgno)) := by
  induction k with
  | zero => exact Or.inl ⟨rfl, fun j hj => absurd hj (Nat.not_lt_zero j)⟩
  | succ k ih =>
      rw [List.range_succ, List.foldl_append]
      exact ih.turn

/-- `nextpacket` finds an entry exactly when it is before all others and below `Maxmsgno`. -/
theorem nextpacket_eq_iff {i : Nat} (hi : i < Maxmsgbufs) :
    nextpacket fromproc tag b = i ↔
      Wanted fromproc tag (b.msgbuf i) ∧ (b.msgbuf i).seqno < Maxmsgno ∧
        ∀ j < Maxmsgbufs, Wanted fromproc tag (b.msgbuf j) → j ≠ i →
          Before (fun i => (b.msgbuf i).seqno) i j := by
  have hscan := scanned b fromproc tag Maxmsgbufs
  have hdef : ((List.range Maxmsgbufs).foldl (nextpacketTurn fromproc tag b)
      (Maxmsgbufs, Maxmsgno)).1 = nextpacket fromproc tag b := rfl
  generalize (List.range Maxmsgbufs).foldl (nextpacketTurn fromproc tag b)
    (Maxmsgbufs, Maxmsgno) = r at hscan hdef
  rw [← hdef]
  cases hscan with
  | inl hnone =>
      obtain ⟨hr, hlate⟩ := hnone
      rw [hr]
      constructor
      · intro heq
        exact absurd heq (Nat.ne_of_gt hi)
      · rintro ⟨hwanted, hlt, -⟩
        exact absurd hlt (not_lt.mpr (hlate i hi hwanted))
  | inr hsome =>
      obtain ⟨hr, hwanted, hseq, hlt, hfirst⟩ := hsome
      constructor
      · intro heq
        subst heq
        exact ⟨hwanted, hseq ▸ hlt, hfirst⟩
      · rintro ⟨hwanted', -, hfirst'⟩
        by_contra hne
        have hbefore := hfirst i hi hwanted' fun h => hne h.symm
        have hbefore' := hfirst' r.1 hr hwanted hne
        simp only [Before] at hbefore hbefore'
        omega

/-- Without a chunk to find `nextpacket` returns `Maxmsgbufs`. -/
theorem nextpacket_none (h : ∀ i < Maxmsgbufs, ¬ Wanted fromproc tag (b.msgbuf i)) :
    nextpacket fromproc tag b = Maxmsgbufs := by
  cases scanned b fromproc tag Maxmsgbufs with
  | inl hnone => exact congrArg Prod.fst hnone.1
  | inr hsome => exact absurd hsome.2.1 (h _ hsome.1)

end Search

/-! ## Ages -/

section Ages

variable {b : MsgBufs} {age : Nat → Nat} {fromproc tag : BitVec 32}

/-- The entry holds the oldest chunk from `fromproc` with `tag`. -/
def Oldest (b : MsgBufs) (age : Nat → Nat) (fromproc tag : BitVec 32) (i : Nat) : Prop :=
  i < Maxmsgbufs ∧ Wanted fromproc tag (b.msgbuf i) ∧
    ∀ j < Maxmsgbufs, Wanted fromproc tag (b.msgbuf j) → age i ≤ age j

/-- `nextpacket` returns the oldest chunk that matches, or `Maxmsgbufs`. -/
def Answers (b : MsgBufs) (age : Nat → Nat) (fromproc tag : BitVec 32) : Prop :=
  ((∃ i < Maxmsgbufs, Wanted fromproc tag (b.msgbuf i)) →
    Oldest b age fromproc tag (nextpacket fromproc tag b)) ∧
  ((∀ i < Maxmsgbufs, ¬ Wanted fromproc tag (b.msgbuf i)) →
    nextpacket fromproc tag b = Maxmsgbufs)

/-- `msgrecvserver` puts the chunk into a free entry and leaves the others alone, or reports
that there is none. -/
def Stores (b : MsgBufs) (req : Chunk) : Prop :=
  ((∃ i < Maxmsgbufs, (b.msgbuf i).op = .errmsg) →
    ∃ i < Maxmsgbufs, (b.msgbuf i).op = .errmsg ∧ ∃ seqno b', msgrecvserver b req = .ok b' ∧
      b'.msgbuf = upd b.msgbuf i { req with seqno := seqno }) ∧
  ((∀ i < Maxmsgbufs, (b.msgbuf i).op ≠ .errmsg) →
    msgrecvserver b req = .error (.assert "Message Buffer Overflow!"))

/-- The oldest chunk that matches has the first number, counted modulo `2^32`, and it is
below `Maxmsgno`. -/
def InOrder (b : MsgBufs) (age : Nat → Nat) (fromproc tag : BitVec 32) : Prop :=
  ∀ i, Oldest b age fromproc tag i → age i % 2 ^ 32 < Maxmsgno ∧
    ∀ j < Maxmsgbufs, Wanted fromproc tag (b.msgbuf j) → j ≠ i →
      Before (fun i => age i % 2 ^ 32) i j

theorem exists_oldest (h : ∃ i < Maxmsgbufs, Wanted fromproc tag (b.msgbuf i)) :
    ∃ i, Oldest b age fromproc tag i := by
  obtain ⟨i₀, hi₀, hwanted₀⟩ := h
  let wanted := (Finset.range Maxmsgbufs).filter fun i => Wanted fromproc tag (b.msgbuf i)
  have hmem : ∀ i, i ∈ wanted ↔ i < Maxmsgbufs ∧ Wanted fromproc tag (b.msgbuf i) := by
    intro i
    rw [Finset.mem_filter, Finset.mem_range]
  obtain ⟨i, hi, hmin⟩ := wanted.exists_min_image age ⟨i₀, (hmem i₀).mpr ⟨hi₀, hwanted₀⟩⟩
  refine ⟨i, ((hmem i).mp hi).1, ((hmem i).mp hi).2, ?_⟩
  intro j hj hwanted
  exact hmin j ((hmem j).mpr ⟨hj, hwanted⟩)

/-- Ages are counted by `msgseqno`, no two chunks have the same age, and entries keep theirs
as an `unsigned int`. -/
structure AgesOk (b : MsgBufs) (age : Nat → Nat) : Prop where
  le : ∀ i < Maxmsgbufs, (b.msgbuf i).op ≠ .errmsg → age i ≤ b.msgseqno
  inj : ∀ i < Maxmsgbufs, ∀ j < Maxmsgbufs, (b.msgbuf i).op ≠ .errmsg →
    (b.msgbuf j).op ≠ .errmsg → age i = age j → i = j
  seqno : ∀ i < Maxmsgbufs, (b.msgbuf i).op ≠ .errmsg → (b.msgbuf i).seqno = age i % 2 ^ 32

theorem Wanted.used {c : MsgBuf} (h : Wanted fromproc tag c) : c.op ≠ .errmsg := by
  intro hop
  cases h.1 with
  | inl htail => exact absurd (hop.symm.trans htail) (by decide)
  | inr hbody => exact absurd (hop.symm.trans hbody) (by decide)

theorem Oldest.unique (hok : AgesOk b age) {i j : Nat} (hi : Oldest b age fromproc tag i)
    (hj : Oldest b age fromproc tag j) : i = j := by
  have hle := hi.2.2 j hj.1 hj.2.1
  have hge := hj.2.2 i hi.1 hi.2.1
  exact hok.inj i hi.1 j hj.1 hi.2.1.used hj.2.1.used (le_antisymm hle hge)

theorem answers_iff (hok : AgesOk b age) :
    Answers b age fromproc tag ↔ InOrder b age fromproc tag := by
  have hseqno : ∀ i < Maxmsgbufs, Wanted fromproc tag (b.msgbuf i) →
      (b.msgbuf i).seqno = age i % 2 ^ 32 := fun i hi h => hok.seqno i hi h.used
  have hfound : ∀ i, Oldest b age fromproc tag i → (nextpacket fromproc tag b = i ↔
      age i % 2 ^ 32 < Maxmsgno ∧ ∀ j < Maxmsgbufs, Wanted fromproc tag (b.msgbuf j) → j ≠ i →
        Before (fun i => age i % 2 ^ 32) i j) := by
    intro i hi
    rw [nextpacket_eq_iff hi.1, hseqno i hi.1 hi.2.1]
    constructor
    · rintro ⟨-, hlt, hfirst⟩
      refine ⟨hlt, ?_⟩
      intro j hj hwanted hne
      simpa only [Before, hseqno i hi.1 hi.2.1, hseqno j hj hwanted] using
        hfirst j hj hwanted hne
    · rintro ⟨hlt, hfirst⟩
      refine ⟨hi.2.1, hlt, ?_⟩
      intro j hj hwanted hne
      simpa only [Before, hseqno i hi.1 hi.2.1, hseqno j hj hwanted] using
        hfirst j hj hwanted hne
  constructor
  · intro hanswers i hi
    have hnext := hanswers.1 ⟨i, hi.1, hi.2.1⟩
    exact (hfound i hi).mp (hnext.unique hok hi)
  · intro horder
    refine ⟨?_, nextpacket_none⟩
    intro hexists
    obtain ⟨i, hi⟩ := @exists_oldest b age fromproc tag hexists
    rw [(hfound i hi).mpr (horder i hi)]
    exact hi

theorem msgrecvserver_free {req : Chunk} (h : freeEntry b < Maxmsgbufs) :
    msgrecvserver b req = .ok { b with
      msgbuf := upd b.msgbuf (freeEntry b) { req with seqno := (b.msgseqno + 1) % 2 ^ 32 }
      msgseqno := b.msgseqno + 1 } := by
  have hfree : firstIdx (fun i => (b.msgbuf i).op == .errmsg) Maxmsgbufs 0 < Maxmsgbufs := h
  unfold msgrecvserver defined
  simp only [if_pos hfree]
  rfl

theorem msgrecvserver_full {req : Chunk} (h : ¬ freeEntry b < Maxmsgbufs) :
    msgrecvserver b req = .error (.undefined "msgbuf[Maxmsgbufs] in msgrecvserver") := by
  have hfree : ¬ firstIdx (fun i => (b.msgbuf i).op == .errmsg) Maxmsgbufs 0 < Maxmsgbufs := h
  unfold msgrecvserver defined
  simp only [if_neg hfree]
  rfl

theorem freeEntry_free (h : freeEntry b < Maxmsgbufs) : (b.msgbuf (freeEntry b)).op = .errmsg := by
  have hfound := firstIdx_found (P := fun i => (b.msgbuf i).op == .errmsg) (k := Maxmsgbufs)
    (i := 0) (by simpa [freeEntry] using h)
  exact beq_iff_eq.mp hfound

theorem freeEntry_lt_iff : freeEntry b < Maxmsgbufs ↔
    ∃ i < Maxmsgbufs, (b.msgbuf i).op = .errmsg := by
  constructor
  · intro h
    exact ⟨freeEntry b, h, freeEntry_free h⟩
  · rintro ⟨i, hi, hop⟩
    by_contra hfull
    have hbefore := firstIdx_before (P := fun i => (b.msgbuf i).op == .errmsg)
      (k := Maxmsgbufs) (i := 0) (j := i) (Nat.zero_le i) (hi.trans_le (not_lt.mp hfull))
    rw [hop] at hbefore
    cases hbefore

theorem stores_iff {req : Chunk} :
    Stores b req ↔ ∃ i < Maxmsgbufs, (b.msgbuf i).op = .errmsg := by
  constructor
  · intro hstores
    by_contra hfull
    have hused : ∀ i < Maxmsgbufs, (b.msgbuf i).op ≠ .errmsg :=
      fun i hi hop => hfull ⟨i, hi, hop⟩
    have hreport := hstores.2 hused
    rw [msgrecvserver_full (mt freeEntry_lt_iff.mp hfull)] at hreport
    cases hreport
  · intro hfree
    have hlt := freeEntry_lt_iff.mpr hfree
    refine ⟨fun _ => ?_, ?_⟩
    · exact ⟨freeEntry b, hlt, freeEntry_free hlt, _, _, msgrecvserver_free hlt, rfl⟩
    · intro hused
      obtain ⟨i, hi, hop⟩ := hfree
      exact absurd hop (hused i hi)

/-! ### Over a run -/

theorem AgesOk.start : AgesOk initmsg (fun _ => 0) where
  le _ _ hop := absurd rfl hop
  inj _ _ _ _ hop _ _ := absurd rfl hop
  seqno _ _ hop := absurd rfl hop

theorem AgesOk.arrive (hok : AgesOk b age) {req : Chunk} {b' : MsgBufs}
    (h : msgrecvserver b req = .ok b') : AgesOk b' (upd age (freeEntry b) b'.msgseqno) := by
  by_cases hfree : freeEntry b < Maxmsgbufs
  · rw [msgrecvserver_free hfree, Except.ok.injEq] at h
    subst h
    generalize freeEntry b = k at *
    have hother : ∀ i, i ≠ k → upd b.msgbuf k
        { req with seqno := (b.msgseqno + 1) % 2 ^ 32 } i = b.msgbuf i :=
      fun i hi => upd_of_ne _ _ hi
    constructor
    · intro i hi hop
      by_cases hik : i = k
      · rw [hik, upd_same]
      · rw [upd_of_ne _ _ hik]
        exact (hok.le i hi (hother i hik ▸ hop)).trans (Nat.le_succ _)
    · intro i hi j hj hopi hopj heq
      by_cases hik : i = k
      · by_cases hjk : j = k
        · rw [hik, hjk]
        · rw [hik, upd_same, upd_of_ne _ _ hjk] at heq
          have hle := hok.le j hj (hother j hjk ▸ hopj)
          exact absurd hle (not_le.mpr ((Nat.lt_succ_self b.msgseqno).trans_eq heq))
      · by_cases hjk : j = k
        · rw [hjk, upd_same, upd_of_ne _ _ hik] at heq
          have hle := hok.le i hi (hother i hik ▸ hopi)
          exact absurd hle (not_le.mpr ((Nat.lt_succ_self b.msgseqno).trans_eq heq.symm))
        · rw [upd_of_ne _ _ hik, upd_of_ne _ _ hjk] at heq
          exact hok.inj i hi j hj (hother i hik ▸ hopi) (hother j hjk ▸ hopj) heq
    · intro i hi hop
      show (upd b.msgbuf k { req with seqno := (b.msgseqno + 1) % 2 ^ 32 } i).seqno =
        upd age k (b.msgseqno + 1) i % 2 ^ 32
      by_cases hik : i = k
      · rw [hik, upd_same, upd_same]
      · rw [hother i hik, upd_of_ne _ _ hik]
        exact hok.seqno i hi (hother i hik ▸ hop)
  · rw [msgrecvserver_full hfree] at h
    cases h

theorem AgesOk.remove (hok : AgesOk b age) (k : Nat) : AgesOk (clearOp b k) age := by
  have hentry : ∀ i, ((clearOp b k).msgbuf i).op ≠ .errmsg →
      (b.msgbuf i).op ≠ .errmsg ∧ (clearOp b k).msgbuf i = b.msgbuf i := by
    intro i hop
    have hik : i ≠ k := by
      intro hik
      apply hop
      show (upd b.msgbuf k { b.msgbuf k with op := .errmsg } i).op = .errmsg
      rw [hik, upd_same]
    have hsame : (clearOp b k).msgbuf i = b.msgbuf i := upd_of_ne _ _ hik
    exact ⟨hsame ▸ hop, hsame⟩
  constructor
  · intro i hi hop
    exact hok.le i hi (hentry i hop).1
  · intro i hi j hj hopi hopj
    exact hok.inj i hi j hj (hentry i hopi).1 (hentry j hopj).1
  · intro i hi hop
    rw [(hentry i hop).2]
    exact hok.seqno i hi (hentry i hop).1

theorem agesOk {x : MsgBufs × (Nat → Nat)} (hx : (bufferSystem.withHist ageHistory).Reach x) :
    AgesOk x.1 x.2 := by
  apply hx.invariant (I := fun x => AgesOk x.1 x.2)
  · exact AgesOk.start
  · intro x e x' _ hok hstep
    obtain ⟨hnext, hhist⟩ := hstep
    rw [hhist]
    cases e with
    | arrive req => exact hok.arrive hnext.2
    | remove i =>
        rw [hnext.2]
        exact hok.remove i

/-- Fewer than `Maxmsgno` arrivals keep the numbers in the order of the ages. -/
theorem AgesOk.inOrder (hok : AgesOk b age) (h : b.msgseqno < Maxmsgno) :
    InOrder b age fromproc tag := by
  have hage : ∀ i < Maxmsgbufs, Wanted fromproc tag (b.msgbuf i) →
      age i < Maxmsgno ∧ age i % 2 ^ 32 = age i := by
    intro i hi hwanted
    have hlt := (hok.le i hi hwanted.used).trans_lt h
    exact ⟨hlt, Nat.mod_eq_of_lt (hlt.trans (by decide))⟩
  intro i holdest
  have hi := hage i holdest.1 holdest.2.1
  rw [hi.2]
  refine ⟨hi.1, ?_⟩
  intro j hj hwanted hne
  left
  show age i % 2 ^ 32 < age j % 2 ^ 32
  rw [hi.2, (hage j hj hwanted).2]
  apply lt_of_le_of_ne (holdest.2.2 j hj hwanted)
  intro heq
  exact hne (hok.inj i holdest.1 j hj holdest.2.1.used hwanted.used heq).symm

end Ages

/-! ## The whole buffer -/

/-- `nextpacket` and `msgrecvserver` do what they are for. -/
def Served (b : MsgBufs) (age : Nat → Nat) : Prop :=
  (∀ fromproc tag, Answers b age fromproc tag) ∧ ∀ req, Stores b req

/-- The numbers of the buffered chunks are in order, and some entry is free. -/
def Serves (b : MsgBufs) (age : Nat → Nat) : Prop :=
  (∀ fromproc tag, InOrder b age fromproc tag) ∧ ∃ i < Maxmsgbufs, (b.msgbuf i).op = .errmsg

/-- After any history of arrivals and removals. -/
theorem msgbuf_served_iff {x : MsgBufs × (Nat → Nat)}
    (hx : (bufferSystem.withHist ageHistory).Reach x) : Served x.1 x.2 ↔ Serves x.1 x.2 := by
  have hok := agesOk hx
  constructor
  · rintro ⟨hanswers, hstores⟩
    refine ⟨fun fromproc tag => (answers_iff hok).mp (hanswers fromproc tag), ?_⟩
    exact stores_iff.mp (hstores ⟨.msgbody, 0, 0, []⟩)
  · rintro ⟨horder, hfree⟩
    refine ⟨fun fromproc tag => (answers_iff hok).mpr (horder fromproc tag), ?_⟩
    intro req
    exact stores_iff.mpr hfree

/-- Until `Maxmsgno` chunks have arrived only a full buffer goes wrong. -/
theorem Serves.of_lt {x : MsgBufs × (Nat → Nat)}
    (hx : (bufferSystem.withHist ageHistory).Reach x) (hlt : x.1.msgseqno < Maxmsgno)
    (hfree : ∃ i < Maxmsgbufs, (x.1.msgbuf i).op = .errmsg) : Serves x.1 x.2 :=
  ⟨fun _ _ => (agesOk hx).inOrder hlt, hfree⟩

/-! ## Arrivals that are taken out at once -/

/-- A whole message. -/
def wholeMessage : Chunk := ⟨.msgtail, 1, 7, []⟩

theorem freeEntry_empty {b : MsgBufs} (h : ∀ i, (b.msgbuf i).op = .errmsg) : freeEntry b = 0 := by
  unfold freeEntry firstIdx
  rw [h 0]
  rfl

/-- An empty buffer after an arrival. -/
def withOne (b : MsgBufs) : MsgBufs :=
  { b with
    msgbuf := upd b.msgbuf 0 (.mk wholeMessage ((b.msgseqno + 1) % 2 ^ 32))
    msgseqno := b.msgseqno + 1 }

@[simp] theorem withOne_zero (b : MsgBufs) :
    (withOne b).msgbuf 0 = .mk wholeMessage ((b.msgseqno + 1) % 2 ^ 32) := by
  show upd b.msgbuf 0 (.mk wholeMessage ((b.msgseqno + 1) % 2 ^ 32)) 0 = _
  rw [upd_same]

theorem withOne_of_ne (b : MsgBufs) {i : Nat} (hi : i ≠ 0) :
    (withOne b).msgbuf i = b.msgbuf i := upd_of_ne _ _ hi

theorem reach_withOne {b : MsgBufs} (hb : bufferSystem.Reach b)
    (h : ∀ i, (b.msgbuf i).op = .errmsg) : bufferSystem.Reach (withOne b) := by
  have hfree := freeEntry_empty h
  have hstored := @msgrecvserver_free b wholeMessage (hfree ▸ (by decide))
  rw [hfree] at hstored
  have hnext : bufferSystem.next b (.arrive wholeMessage) (withOne b) := ⟨by decide, hstored⟩
  exact hb.step hnext

/-- After any number of arrivals the buffer can be empty. -/
theorem reach_empty (n : Nat) :
    ∃ b, bufferSystem.Reach b ∧ b.msgseqno = n ∧ ∀ i, (b.msgbuf i).op = .errmsg := by
  induction n with
  | zero => exact ⟨initmsg, .start, rfl, fun _ => rfl⟩
  | succ n ih =>
      obtain ⟨b, hreach, hseqno, hempty⟩ := ih
      have hnext : bufferSystem.next (withOne b) (.remove 0) (clearOp (withOne b) 0) :=
        ⟨by decide, rfl⟩
      refine ⟨_, (reach_withOne hreach hempty).step hnext, congrArg (· + 1) hseqno, ?_⟩
      intro i
      show (upd (withOne b).msgbuf 0 { (withOne b).msgbuf 0 with op := .errmsg } i).op = .errmsg
      by_cases hi : i = 0
      · rw [hi, upd_same]
      · rw [upd_of_ne _ _ hi, withOne_of_ne b hi]
        exact hempty i

/-- The chunk with the number `Maxmsgno` is not found. -/
theorem lateChunk_lost :
    ¬ ∀ x, (bufferSystem.withHist ageHistory).Reach x → Served x.1 x.2 := by
  intro hserved
  obtain ⟨b, hreach, hseqno, hempty⟩ := reach_empty (Maxmsgno - 1)
  obtain ⟨age, hage⟩ := (reach_withOne hreach hempty).exists_hist ageHistory
  have hanswers := (hserved _ hage).1 anyOne anyOne
  have hstored : ∃ i < Maxmsgbufs, Wanted anyOne anyOne ((withOne b).msgbuf i) := by
    refine ⟨0, by decide, ?_⟩
    rw [withOne_zero]
    exact ⟨Or.inl rfl, Or.inl rfl, Or.inl rfl⟩
  have holdest := hanswers.1 hstored
  have hnext := (nextpacket_eq_iff holdest.1).mp rfl
  generalize nextpacket anyOne anyOne _ = i at holdest hnext
  by_cases hi : i = 0
  · have hlate : ((withOne b).msgbuf i).seqno = Maxmsgno := by
      rw [hi, withOne_zero, hseqno]
      rfl
    exact absurd hnext.2.1 (Nat.not_lt.mpr hlate.ge)
  · have hused := holdest.2.1.used
    rw [withOne_of_ne b hi] at hused
    exact hused (hempty i)

/-! ## Runs of fixed events -/

/-- A step with the ages, to execute. -/
def bufStep (x : MsgBufs × (Nat → Nat)) (e : BufEvent) : Result (MsgBufs × (Nat → Nat)) := do
  let b ← (match e with
    | .arrive req => do
        await (req.op ≠ .errmsg)
        msgrecvserver x.1 req
    | .remove i => do
        await (i < Maxmsgbufs)
        return clearOp x.1 i)
  return (b, ageHistory.obs x.2 x.1 e b)

theorem bufStep_next {x x' : MsgBufs × (Nat → Nat)} {e : BufEvent} (h : bufStep x e = .ok x') :
    (bufferSystem.withHist ageHistory).next x e x' := by
  cases e with
  | arrive req =>
      simp only [bufStep, bind_eq_ok, await_eq_ok, pure, Except.pure, Except.ok.injEq] at h
      obtain ⟨b, ⟨-, hop, hstored⟩, rfl⟩ := h
      exact ⟨⟨hop, hstored⟩, rfl⟩
  | remove i =>
      simp only [bufStep, bind_eq_ok, await_eq_ok, pure, Except.pure, Except.ok.injEq] at h
      obtain ⟨b, ⟨-, hi, rfl⟩, rfl⟩ := h
      exact ⟨⟨hi, rfl⟩, rfl⟩

/-- Two hosts send at once; the message of host 2 is taken out first, and the entry is used
again for its next one, which is younger than the chunk in the entry behind it. -/
def twoSenders : List BufEvent :=
  [.arrive ⟨.msgbody, 1, 7, [1]⟩, .arrive ⟨.msgtail, 2, 7, [2]⟩, .arrive ⟨.msgtail, 1, 7, [3]⟩,
    .remove 1, .arrive ⟨.msgtail, 2, 5, [4]⟩]

theorem msgbuf_served_twoSenders : ∃ x, (bufferSystem.withHist ageHistory).Reach x ∧
    (x.2 0 = 1 ∧ x.2 1 = 4 ∧ x.2 2 = 3) ∧ Served x.1 x.2 := by
  obtain ⟨x, hx, hcheck⟩ := System.exists_execBy (S := bufferSystem.withHist ageHistory)
    (fun _ _ _ => bufStep_next) twoSenders
    (fun x => decide ((x.2 0 = 1 ∧ x.2 1 = 4 ∧ x.2 2 = 3) ∧ x.1.msgseqno < Maxmsgno ∧
      (x.1.msgbuf 3).op = .errmsg)) (by decide +kernel)
  obtain ⟨hages, hlt, hfree⟩ := of_decide_eq_true hcheck
  exact ⟨x, hx, hages, (msgbuf_served_iff hx).mpr (Serves.of_lt hx hlt ⟨3, by decide, hfree⟩)⟩

end Jiajia.MsgPass
