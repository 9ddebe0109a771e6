import Jiajia.Mig
import Jiajia.Lib.Bytes

/-!
# Message passing between applications

`jia_send` and `jia_recv`: a message travels as MSGBODY chunks and one MSGTAIL,
`msgrecvserver` puts the chunks into `msgbuf[]`, and `nextmsg` collects them.
-/

namespace Jiajia.MsgPass

open Bytes

abbrev Maxmsgbufs : Nat := 48
abbrev Maxmsgno : Nat := 0x40000000

/-- `MSG_PROC_ALL` and `MSG_TAG_ALL`, -1 as an unsigned. -/
abbrev anyOne : BitVec 32 := BitVec.allOnes 32

/-- `op` of an entry of `msgbuf[]`. -/
inductive BufOp
  | errmsg
  | msgbody
  | msgtail
deriving DecidableEq, Repr

/-- The part of `jia_msg_t` that message passing uses; `scope` is the tag. -/
structure Chunk where
  op : BufOp
  frompid : BitVec 32
  scope : BitVec 32
  data : List Byte
deriving DecidableEq, Repr

/-- An entry of `msgbuf[]`; `size` is the length of `data`. -/
structure MsgBuf extends Chunk where
  seqno : Nat

/-- The receiving side of a host. -/
structure MsgBufs where
  msgbuf : Nat → MsgBuf
  msgseqno : Nat
  endofmsg : Bool

/-- `initmsg` -/
def initmsg : MsgBufs where
  msgbuf _ := { op := .errmsg, frompid := 0, scope := 0, data := [], seqno := 0 }
  msgseqno := 0
  endofmsg := false

/-! ## `jia_send` -/

/-- The loop of `jia_send`, with `fuel` chunks at most. -/
def sendChunks (pid tag : BitVec 32) : Nat → List Byte → List Chunk
  | 0, buf => [⟨.msgtail, pid, tag, buf⟩]
  | fuel + 1, buf =>
      if Maxmsgsize < buf.length then
        ⟨.msgbody, pid, tag, buf.take Maxmsgsize⟩ ::
          sendChunks pid tag fuel (buf.drop Maxmsgsize)
      else [⟨.msgtail, pid, tag, buf⟩]

/-- The messages `jia_send(buf, len, toproc, tag)` hands to the outqueue. -/
def jiaSend (pid tag : BitVec 32) (buf : List Byte) : List Chunk :=
  sendChunks pid tag buf.length buf

/-! ## `msgrecvserver` -/

/-- `msgrecvserver(req)`.  With all entries in use the search reads one entry
past the end, before the assert about the overflow. -/
def msgrecvserver (b : MsgBufs) (req : Chunk) : Result MsgBufs := do
  let i := firstIdx (fun i => (b.msgbuf i).op == .errmsg) Maxmsgbufs 0
  defined (i < Maxmsgbufs) "msgbuf[Maxmsgbufs] in msgrecvserver"
  let seqno := b.msgseqno + 1
  return { b with
    msgbuf := upd b.msgbuf i { req with seqno := seqno % 2 ^ 32 }
    msgseqno := seqno }

def msgrecvservers : MsgBufs → List Chunk → Result MsgBufs
  | b, [] => .ok b
  | b, req :: reqs => do
      let b ← msgrecvserver b req
      msgrecvservers b reqs

/-! ## `jia_recv` -/

section Recv

variable (len : Nat) (fromproc tag : BitVec 32)

/-- A chunk that `nextpacket` looks for. -/
def Wanted (c : MsgBuf) : Prop :=
  (c.op = .msgtail ∨ c.op = .msgbody) ∧ (fromproc = anyOne ∨ fromproc = c.frompid) ∧
    (tag = anyOne ∨ tag = c.scope)

instance (c : MsgBuf) : Decidable (Wanted fromproc tag c) := inferInstanceAs (Decidable (_ ∧ _))

/-- One turn of the loop of `nextpacket`, on `index` and `next`. -/
def nextpacketTurn (b : MsgBufs) (r : Nat × Nat) (i : Nat) : Nat × Nat :=
  if Wanted fromproc tag (b.msgbuf i) ∧ (b.msgbuf i).seqno < r.2 then (i, (b.msgbuf i).seqno)
  else r

/-- `nextpacket(fromproc, tag)` -/
def nextpacket (b : MsgBufs) : Nat :=
  ((List.range Maxmsgbufs).foldl (nextpacketTurn fromproc tag b) (Maxmsgbufs, Maxmsgno)).1

/-- `msgbuf[i].op = ERRMSG` -/
def clearOp (b : MsgBufs) (i : Nat) : MsgBufs :=
  { b with msgbuf := upd b.msgbuf i { b.msgbuf i with op := .errmsg } }

/-- One turn of the loop of `nextmsg`, on the bytes copied so far.  The entry is
cleared before its `op` is compared with MSGTAIL. -/
def nextmsgTurn (b : MsgBufs) (got : List Byte) : Result (MsgBufs × List Byte) := do
  let i := nextpacket fromproc tag b
  defined (i < Maxmsgbufs) "msgbuf[Maxmsgbufs]"
  let b := clearOp b i
  let b := if (b.msgbuf i).op = .msgtail then { b with endofmsg := true } else b
  return (b, got ++ (b.msgbuf i).data.take (len - got.length))

/-- The loop of `nextmsg`.  The server thread runs beside it: `arrivals` are the
chunks it handles before each turn.  The loop also ends when the last index was
`Maxmsgbufs`, which no defined turn leaves behind. -/
def nextmsg : List (List Chunk) → MsgBufs → List Byte → Result (MsgBufs × List Byte)
  | arrivals, b, got =>
      if b.endofmsg then .ok (b, got)
      else
        match arrivals with
        | [] => .error .blocked
        | reqs :: arrivals => do
            let b ← msgrecvservers b reqs
            let (b, got) ← nextmsgTurn len fromproc tag b got
            nextmsg arrivals b got

/-- `jia_recv(buf, len, fromproc, tag)`, with what it leaves in `buf`. -/
def jiaRecv (arrivals : List (List Chunk)) (b : MsgBufs) : Result (MsgBufs × List Byte) :=
  nextmsg len fromproc tag arrivals { b with endofmsg := false } []

end Recv

/-! ## The loop never ends inside `msgbuf[]` -/

section Never

variable {len : Nat} {fromproc tag : BitVec 32} {b b' : MsgBufs} {got got' : List Byte}

/-- The entries `nextpacket` can return. -/
def candidates (fromproc tag : BitVec 32) (b : MsgBufs) : Finset Nat :=
  (Finset.range Maxmsgbufs).filter fun i =>
    Wanted fromproc tag (b.msgbuf i) ∧ (b.msgbuf i).seqno < Maxmsgno

@[simp] theorem mem_candidates {i : Nat} : i ∈ candidates fromproc tag b ↔
    i < Maxmsgbufs ∧ Wanted fromproc tag (b.msgbuf i) ∧ (b.msgbuf i).seqno < Maxmsgno := by
  rw [candidates, Finset.mem_filter, Finset.mem_range]

variable (fromproc tag b) in
theorem nextpacket_fold (is : List Nat) (r : Nat × Nat) :
    is.foldl (nextpacketTurn fromproc tag b) r = r ∨
      ((is.foldl (nextpacketTurn fromproc tag b) r).1 ∈ is ∧
        Wanted fromproc tag (b.msgbuf (is.foldl (nextpacketTurn fromproc tag b) r).1) ∧
        (b.msgbuf (is.foldl (nextpacketTurn fromproc tag b) r).1).seqno < r.2) := by
  induction is generalizing r with
  | nil => exact Or.inl rfl
  | cons i is ih =>
      rw [List.foldl_cons]
      by_cases hi : Wanted fromproc tag (b.msgbuf i) ∧ (b.msgbuf i).seqno < r.2
      · have hturn : nextpacketTurn fromproc tag b r i = (i, (b.msgbuf i).seqno) := if_pos hi
        rw [hturn]
        right
        rcases ih (i, (b.msgbuf i).seqno) with heq | ⟨hmem, hwanted, hlt⟩
        · rw [heq]
          exact ⟨List.mem_cons_self, hi⟩
        · exact ⟨List.mem_cons_of_mem _ hmem, hwanted, hlt.trans hi.2⟩
      · have hturn : nextpacketTurn fromproc tag b r i = r := if_neg hi
        rw [hturn]
        rcases ih r with heq | ⟨hmem, hrest⟩
        · exact Or.inl heq
        · exact Or.inr ⟨List.mem_cons_of_mem _ hmem, hrest⟩

theorem nextpacket_mem (h : nextpacket fromproc tag b < Maxmsgbufs) :
    nextpacket fromproc tag b ∈ candidates fromproc tag b := by
  rcases nextpacket_fold fromproc tag b (List.range Maxmsgbufs)
      (Maxmsgbufs, Maxmsgno) with heq | ⟨hmem, hwanted, hlt⟩
  · rw [nextpacket, heq] at h
    exact absurd h (Nat.lt_irrefl _)
  · exact mem_candidates.mpr ⟨h, hwanted, hlt⟩

/-- A turn that stays inside `msgbuf[]` clears one candidate and does not see
the end of a message. -/
theorem nextmsgTurn_ok (h : nextmsgTurn len fromproc tag b got = .ok (b', got')) :
    b'.endofmsg = b.endofmsg ∧
      (candidates fromproc tag b').card < (candidates fromproc tag b).card := by
  simp only [nextmsgTurn, bind_eq_ok, defined_eq_ok, pure, Except.pure, Except.ok.injEq,
    Prod.mk.injEq] at h
  obtain ⟨-, hi, hb, -⟩ := h
  have hop : ¬ ((clearOp b (nextpacket fromproc tag b)).msgbuf
      (nextpacket fromproc tag b)).op = .msgtail := by
    simp [clearOp]
  rw [if_neg hop] at hb
  subst hb
  refine ⟨rfl, Finset.card_lt_card ?_⟩
  have hmem := nextpacket_mem hi
  have hout : nextpacket fromproc tag b ∉
      candidates fromproc tag (clearOp b (nextpacket fromproc tag b)) := by
    simp [Wanted, clearOp]
  rw [Finset.ssubset_iff_of_subset]
  · exact ⟨_, hmem, hout⟩
  · intro j hj
    have hne : j ≠ nextpacket fromproc tag b := by
      rintro rfl
      exact hout hj
    simpa only [mem_candidates, clearOp, upd_of_ne _ _ hne] using hj

theorem nextmsgTurn_error {e : Stop} (h : nextmsgTurn len fromproc tag b got = .error e) :
    e = .undefined "msgbuf[Maxmsgbufs]" := by
  unfold nextmsgTurn defined at h
  by_cases hi : nextpacket fromproc tag b < Maxmsgbufs
  · simp only [hi, if_true] at h
    cases h
  · simp only [hi, if_false] at h
    cases h
    rfl

theorem msgrecvserver_endofmsg {req : Chunk} (h : msgrecvserver b req = .ok b') :
    b'.endofmsg = b.endofmsg := by
  simp only [msgrecvserver, bind_eq_ok, pure, Except.pure, Except.ok.injEq] at h
  obtain ⟨-, -, rfl⟩ := h
  rfl

theorem msgrecvservers_endofmsg {reqs : List Chunk} (h : msgrecvservers b reqs = .ok b') :
    b'.endofmsg = b.endofmsg := by
  induction reqs generalizing b with
  | nil =>
      rw [msgrecvservers, Except.ok.injEq] at h
      rw [h]
  | cons req reqs ih =>
      simp only [msgrecvservers, bind_eq_ok] at h
      obtain ⟨b₁, h₁, h₂⟩ := h
      rw [ih h₂, msgrecvserver_endofmsg h₁]

theorem msgrecvservers_error {reqs : List Chunk} {e : Stop}
    (h : msgrecvservers b reqs = .error e) :
    e = .undefined "msgbuf[Maxmsgbufs] in msgrecvserver" := by
  induction reqs generalizing b with
  | nil => cases h
  | cons req reqs ih =>
      rw [msgrecvservers] at h
      cases h₁ : msgrecvserver b req with
      | ok b₁ =>
          rw [h₁] at h
          exact ih h
      | error e₁ =>
          rw [h₁] at h
          cases h
          unfold msgrecvserver defined at h₁
          by_cases hi : firstIdx (fun i => (b.msgbuf i).op == .errmsg) Maxmsgbufs 0 < Maxmsgbufs
          · simp only [hi, if_true] at h₁
            cases h₁
          · simp only [hi, if_false] at h₁
            cases h₁
            rfl

section Turn

variable {reqs : List Chunk} {arrivals : List (List Chunk)} {b₁ : MsgBufs}

/-- One turn of the loop, by what the server thread and the turn did. -/
theorem nextmsg_turn (hend : b.endofmsg = false) (hreqs : msgrecvservers b reqs = .ok b₁)
    (hturn : nextmsgTurn len fromproc tag b₁ got = .ok (b', got')) :
    nextmsg len fromproc tag (reqs :: arrivals) b got =
      nextmsg len fromproc tag arrivals b' got' := by
  rw [nextmsg, hend]
  simp only [Bool.false_eq_true, if_false, hreqs, bind, Except.bind, hturn]

theorem nextmsg_stops (hend : b.endofmsg = false) (hreqs : msgrecvservers b reqs = .ok b₁)
    {e : Stop} (hturn : nextmsgTurn len fromproc tag b₁ got = .error e) :
    nextmsg len fromproc tag (reqs :: arrivals) b got = .error e := by
  rw [nextmsg, hend]
  simp only [Bool.false_eq_true, if_false, hreqs, bind, Except.bind, hturn]

theorem nextmsg_overflows (hend : b.endofmsg = false) {e : Stop}
    (hreqs : msgrecvservers b reqs = .error e) :
    nextmsg len fromproc tag (reqs :: arrivals) b got = .error e := by
  rw [nextmsg, hend]
  simp only [Bool.false_eq_true, if_false, hreqs, bind, Except.bind]

end Turn

/-- No loop that has not seen the end of a message ends. -/
theorem nextmsg_ne_ok {arrivals : List (List Chunk)} (hend : b.endofmsg = false)
    (r : MsgBufs × List Byte) : nextmsg len fromproc tag arrivals b got ≠ .ok r := by
  intro h
  induction arrivals generalizing b got with
  | nil =>
      rw [nextmsg, hend] at h
      cases h
  | cons reqs arrivals ih =>
      rw [nextmsg, hend] at h
      simp only [Bool.false_eq_true, if_false, bind_eq_ok, Prod.exists] at h
      obtain ⟨b₁, hreqs, b₂, got₂, hturn, h⟩ := h
      refine ih ?_ h
      rw [(nextmsgTurn_ok hturn).1, msgrecvservers_endofmsg hreqs, hend]

theorem card_candidates_le (fromproc tag : BitVec 32) (b : MsgBufs) :
    (candidates fromproc tag b).card ≤ Maxmsgbufs := by
  have hle := Finset.card_filter_le (Finset.range Maxmsgbufs) fun i =>
    Wanted fromproc tag (b.msgbuf i) ∧ (b.msgbuf i).seqno < Maxmsgno
  rwa [Finset.card_range] at hle

/-- With no more chunks to come the loop leaves `msgbuf[]` after at most one
turn for each candidate. -/
theorem nextmsg_leaves {n : Nat} (hend : b.endofmsg = false)
    (hn : (candidates fromproc tag b).card < n) :
    nextmsg len fromproc tag (List.replicate n []) b got =
      .error (.undefined "msgbuf[Maxmsgbufs]") := by
  induction n generalizing b got with
  | zero => exact absurd hn (Nat.not_lt_zero _)
  | succ n ih =>
      rw [List.replicate_succ]
      have hreqs : msgrecvservers b [] = .ok b := rfl
      cases hturn : nextmsgTurn len fromproc tag b got with
      | error e =>
          rw [nextmsg_stops hend hreqs hturn, nextmsgTurn_error hturn]
      | ok r =>
          have hturn : nextmsgTurn len fromproc tag b got = .ok (r.1, r.2) := hturn
          obtain ⟨hend', hcard⟩ := nextmsgTurn_ok hturn
          rw [nextmsg_turn hend hreqs hturn]
          exact ih (hend'.trans hend) (by omega)

/-- Whatever arrives while the loop runs, afterwards it leaves `msgbuf[]`. -/
theorem nextmsg_undefined (arrivals : List (List Chunk)) (hend : b.endofmsg = false) :
    nextmsg len fromproc tag (arrivals ++ List.replicate (Maxmsgbufs + 1) []) b got =
        .error (.undefined "msgbuf[Maxmsgbufs]") ∨
      nextmsg len fromproc tag (arrivals ++ List.replicate (Maxmsgbufs + 1) []) b got =
        .error (.undefined "msgbuf[Maxmsgbufs] in msgrecvserver") := by
  induction arrivals generalizing b got with
  | nil =>
      left
      rw [List.nil_append]
      exact nextmsg_leaves hend (Nat.lt_succ_of_le (card_candidates_le _ _ _))
  | cons reqs arrivals ih =>
      rw [List.cons_append]
      cases hreqs : msgrecvservers b reqs with
      | error e =>
          right
          rw [nextmsg_overflows hend hreqs, msgrecvservers_error hreqs]
      | ok b₁ =>
          have hend₁ : b₁.endofmsg = false := (msgrecvservers_endofmsg hreqs).trans hend
          cases hturn : nextmsgTurn len fromproc tag b₁ got with
          | error e =>
              left
              rw [nextmsg_stops hend hreqs hturn, nextmsgTurn_error hturn]
          | ok r =>
              have hturn : nextmsgTurn len fromproc tag b₁ got = .ok (r.1, r.2) := hturn
              rw [nextmsg_turn hend hreqs hturn]
              exact ih ((nextmsgTurn_ok hturn).1.trans hend₁)

end Never

/-! ## What `jia_recv` should do -/

/-- A call of `jia_send` to this host. -/
structure Sent where
  frompid : BitVec 32
  tag : BitVec 32
  buf : List Byte
deriving DecidableEq, Repr

def Sent.chunks (s : Sent) : List Chunk := jiaSend s.frompid s.tag s.buf

/-- `arrived` is an order in which the chunks of `sent` can arrive: the chunks of
each sender in the order of its calls. -/
def Interleaves (sent : List Sent) (arrived : List Chunk) : Prop :=
  ∀ pid, arrived.filter (fun c => c.frompid = pid) =
    (sent.filter fun s => s.frompid = pid).flatMap Sent.chunks

/-- The chunks in `msgbuf[]`. -/
def buffered (b : MsgBufs) : List Chunk :=
  ((List.range Maxmsgbufs).map fun i => (b.msgbuf i).toChunk).filter fun c => c.op ≠ .errmsg

/-- The message `jia_recv` is to return: the oldest one from `fromproc` with `tag`. -/
def oldest (sent : List Sent) (fromproc tag : BitVec 32) : Option Sent :=
  sent.find? fun s => (fromproc = anyOne ∨ fromproc = s.frompid) ∧ (tag = anyOne ∨ tag = s.tag)

/-- The round trip: with all chunks of `sent` arrived before or during the call,
`jia_recv` ends and returns the oldest message, cut to `len`; the chunks of the
other messages are what is left. -/
def RoundTrip (sent : List Sent) (arrivals : List (List Chunk)) (len : Nat)
    (fromproc tag : BitVec 32) : Prop :=
  ∃ s n b got, oldest sent fromproc tag = some s ∧
    jiaRecv len fromproc tag (arrivals ++ List.replicate n []) initmsg = .ok (b, got) ∧
    got = s.buf.take len ∧ (buffered b).Perm ((sent.erase s).flatMap Sent.chunks)

/-- No call of `jia_recv` ends well.  From any state of `msgbuf[]`, with any
chunks arriving during the call, it does not return, and once no more chunks
arrive it has read and written past the end of `msgbuf[]`. -/
theorem recv_never_returns (b : MsgBufs) (arrivals : List (List Chunk)) (len : Nat)
    (fromproc tag : BitVec 32) :
    (∀ r, jiaRecv len fromproc tag arrivals b ≠ .ok r) ∧
    (jiaRecv len fromproc tag (arrivals ++ List.replicate (Maxmsgbufs + 1) []) b =
        .error (.undefined "msgbuf[Maxmsgbufs]") ∨
      jiaRecv len fromproc tag (arrivals ++ List.replicate (Maxmsgbufs + 1) []) b =
        .error (.undefined "msgbuf[Maxmsgbufs] in msgrecvserver")) ∧
    ∀ sent, ¬ RoundTrip sent arrivals len fromproc tag := by
  refine ⟨nextmsg_ne_ok rfl, nextmsg_undefined arrivals rfl, ?_⟩
  intro sent htrip
  obtain ⟨s, n, b', got, -, hrecv, -⟩ := htrip
  exact nextmsg_ne_ok rfl (b', got) hrecv

/-- One byte, sent by host 0 with tag 7 and received after it has arrived. -/
theorem recv_one_byte_fails :
    Interleaves [⟨0, 7, [5]⟩] [⟨.msgtail, 0, 7, [5]⟩] ∧
    oldest [⟨0, 7, [5]⟩] 0 7 = some ⟨0, 7, [5]⟩ ∧
    jiaRecv 1 0 7 [[⟨.msgtail, 0, 7, [5]⟩], []] initmsg =
      .error (.undefined "msgbuf[Maxmsgbufs]") ∧
    ¬ RoundTrip [⟨0, 7, [5]⟩] [[⟨.msgtail, 0, 7, [5]⟩]] 1 0 7 := by
  refine ⟨?_, by decide, rfl, ?_⟩
  · intro pid
    by_cases hpid : 0 = pid
    · subst hpid
      rfl
    · rw [List.filter_cons_of_neg (by simpa using hpid),
        List.filter_cons_of_neg (by simpa using hpid)]
      rfl
  · rintro ⟨s, n, b, got, -, hrecv, -⟩
    exact nextmsg_ne_ok rfl (b, got) hrecv

end Jiajia.MsgPass
