import Jiajia.Lib.Ring
import Jiajia.Lib.Transition
import Jiajia.Global

/-!
# The UDP transport

`client_thread`, `listen_thread` and `server_thread` of every host, their queues,
and a network that may lose, duplicate, delay and reorder datagrams and acks.
-/

namespace Jiajia.Udp

open Transition MaskRing

abbrev RETRYNUM : Nat := 50

/-- The part of `jia_msg_t` that a handler sees; `no` tells the messages apart that
`frompid` hands to its outqueue, and is not in the source. -/
structure Message (β : Type) where
  frompid : Nat
  topid : Nat
  no : Nat
  body : β
deriving DecidableEq, Repr

/-- `jia_msg_t` with its `seqno`. -/
structure Packet (β : Type) where
  msg : Message β
  seqno : BitVec 32
deriving DecidableEq, Repr

/-- `ack_t` -/
structure Ack where
  seqno : BitVec 32
  sid : Nat
deriving DecidableEq, Repr

/-! ## Message queues -/

/-- What the threads do with a queue.  `cur` is the slot of `msg_ptr`, from
`dequeue` until `sem_post(&free_count)`. -/
structure QueueOps (Q β : Type) where
  init : Q
  /-- `enqueue`; `none` while it waits for a free slot. -/
  enqueue : Q → Packet β → Option Q
  /-- `sem_wait(&busy_count)` and `dequeue`; `none` while it waits for a message. -/
  dequeue : Q → Option Q
  cur : Q → Option (Packet β)
  setCur : Q → Packet β → Q
  release : Q → Q

variable {Q Q' β : Type}

/-- `msg_queue_t` of `size` slots: the indices advance with `& (size - 1)`. -/
def msgQueue (size : Nat) (blank : Packet β) : QueueOps (Buffer (Packet β)) β where
  init := Buffer.init size blank
  enqueue := Buffer.put size
  dequeue := Buffer.take size
  cur := Buffer.cur
  setCur := Buffer.setCur
  release := Buffer.release

/-- A queue of at most `size` messages, the one in hand included. -/
def fifoQueue (size : Nat) : QueueOps (Queue (Packet β)) β where
  init := Queue.init
  enqueue := Queue.put size
  dequeue := Queue.take
  cur := Queue.cur
  setCur := Queue.setCur
  release := Queue.release

/-! ## Hosts -/

/-- The threads of a host and what they share. -/
structure Host (Q β : Type) where
  outqueue : Q
  inqueue : Q
  /-- `retries_num` of `client_thread` -/
  retries : Nat
  /-- `client_thread` waits for an ack. -/
  waiting : Bool
  /-- The message `listen_thread` has accepted and is about to enqueue. -/
  listen : Option (Packet β)
  sndSeq : Nat → BitVec 32
  rcvSeq : Nat → BitVec 32
  /-- How many messages the host has handed to its outqueue. -/
  handed : Nat

structure State (Q β : Type) where
  host : Nat → Host Q β
  /-- The datagrams sent so far, each of which may arrive at any later time, several
  times or never. -/
  net : List (Packet β)
  /-- The acks sent so far, with the hosts they are sent to. -/
  acks : List (Nat × Ack)

inductive Event (β : Type)
  /-- A thread of `h` hands `msg` to the outqueue; `seqno` is what the field held. -/
  | hand (h : Nat) (msg : Message β) (seqno : BitVec 32)
  /-- `client_thread` takes `msg` from the outqueue and gives it its seqno. -/
  | take (h : Nat) (msg : Message β)
  /-- `outsend` sends the message in hand and waits for the ack. -/
  | sendto (h : Nat)
  /-- `outsend` enqueues a message to its own host. -/
  | selfSend (h : Nat) (msg : Message β)
  /-- `outsend` gets a matching ack and returns 0. -/
  | acked (h : Nat) (msg : Message β)
  /-- Timeout, and another try. -/
  | resend (h : Nat)
  /-- Timeout of the last try. -/
  | giveUp (h : Nat) (msg : Message β)
  /-- `listen_thread` receives a datagram with the seqno it waits for. -/
  | accept (h : Nat) (p : Packet β)
  /-- `listen_thread` receives any other datagram. -/
  | discard (h : Nat) (p : Packet β)
  /-- `listen_thread` enqueues the message it has accepted. -/
  | enqueue (h : Nat) (p : Packet β)
  /-- `server_thread` dequeues `msg` and starts its handler. -/
  | handle (h : Nat) (msg : Message β)
  /-- The handler has returned. -/
  | finish (h : Nat)
deriving DecidableEq, Repr

namespace State

def setHost (s : State Q β) (h : Nat) (x : Host Q β) : State Q β := { s with host := upd s.host h x }

end State

/-- What a thread waits for. -/
def present {α : Type} : Option α → Result α
  | none => .error .blocked
  | some a => .ok a

@[simp] theorem present_eq_ok {α : Type} {o : Option α} {a : α} :
    present o = .ok a ↔ o = some a := by
  cases o with
  | none => simp [present]
  | some b => simp [present]

variable (ops : QueueOps Q β) (hostc : Nat)

/-- The end of an iteration of `client_thread`: the next seqno, and the slot is free. -/
def Host.complete (x : Host Q β) (topid : Nat) : Host Q β :=
  { x with
    outqueue := ops.release x.outqueue
    waiting := false
    sndSeq := upd x.sndSeq topid (x.sndSeq topid + 1) }

def initHost : Host Q β where
  outqueue := ops.init
  inqueue := ops.init
  retries := 0
  waiting := false
  listen := none
  sndSeq _ := 0
  rcvSeq _ := 0
  handed := 0

def initState : State Q β := ⟨fun _ => initHost ops, [], []⟩

/-- The ack `listen_thread` returns, before it looks at the seqno. -/
def Packet.ack (p : Packet β) : Nat × Ack := (p.msg.frompid, ⟨p.seqno + 1, p.msg.topid⟩)

section

variable [DecidableEq β]

def step (s : State Q β) : Event β → Result (State Q β)
  | .hand h msg seqno => do
      await (h < hostc ∧ msg.topid < hostc ∧ msg.frompid = h ∧ msg.no = (s.host h).handed)
      let q ← present (ops.enqueue (s.host h).outqueue ⟨msg, seqno⟩)
      return s.setHost h { s.host h with
        outqueue := q
        handed := (s.host h).handed + 1 }
  | .take h msg => do
      let q ← present (ops.dequeue (s.host h).outqueue)
      let p ← present (ops.cur q)
      await (p.msg = msg)
      return s.setHost h { s.host h with
        outqueue := ops.setCur q ⟨msg, (s.host h).sndSeq msg.topid⟩
        retries := 0
        waiting := false }
  | .sendto h => do
      let p ← present (ops.cur (s.host h).outqueue)
      await ((s.host h).waiting = false ∧ p.msg.topid ≠ p.msg.frompid)
      return { s.setHost h { s.host h with waiting := true } with net := p :: s.net }
  | .selfSend h msg => do
      let p ← present (ops.cur (s.host h).outqueue)
      await ((s.host h).waiting = false ∧ p.msg.topid = p.msg.frompid ∧ p.msg = msg)
      let q ← present (ops.enqueue (s.host h).inqueue p)
      return s.setHost h ({ s.host h with inqueue := q }.complete ops p.msg.topid)
  | .acked h msg => do
      let p ← present (ops.cur (s.host h).outqueue)
      await ((s.host h).waiting = true ∧ p.msg = msg ∧
        (h, ⟨p.seqno + 1, p.msg.topid⟩) ∈ s.acks)
      return s.setHost h ((s.host h).complete ops p.msg.topid)
  | .resend h => do
      await ((s.host h).waiting = true ∧ (s.host h).retries + 1 < RETRYNUM)
      return s.setHost h { s.host h with
        retries := (s.host h).retries + 1
        waiting := false }
  | .giveUp h msg => do
      let p ← present (ops.cur (s.host h).outqueue)
      await ((s.host h).waiting = true ∧ p.msg = msg ∧ RETRYNUM ≤ (s.host h).retries + 1)
      return s.setHost h ((s.host h).complete ops p.msg.topid)
  | .accept h p => do
      await (p ∈ s.net ∧ p.msg.topid = h ∧ (s.host h).listen = none ∧
        p.seqno = (s.host h).rcvSeq p.msg.frompid)
      return { s.setHost h { s.host h with
          listen := some p
          rcvSeq := upd (s.host h).rcvSeq p.msg.frompid ((s.host h).rcvSeq p.msg.frompid + 1) }
        with acks := p.ack :: s.acks }
  | .discard h p => do
      await (p ∈ s.net ∧ p.msg.topid = h ∧ (s.host h).listen = none ∧
        p.seqno ≠ (s.host h).rcvSeq p.msg.frompid)
      return { s with acks := p.ack :: s.acks }
  | .enqueue h p => do
      await ((s.host h).listen = some p)
      let q ← present (ops.enqueue (s.host h).inqueue p)
      return s.setHost h { s.host h with
        inqueue := q
        listen := none }
  | .handle h msg => do
      let q ← present (ops.dequeue (s.host h).inqueue)
      let p ← present (ops.cur q)
      await (p.msg = msg)
      return s.setHost h { s.host h with inqueue := q }
  | .finish h => do
      let _ ← present (ops.cur (s.host h).inqueue)
      return s.setHost h { s.host h with inqueue := ops.release (s.host h).inqueue }

/-- All hosts and the network. -/
def udp : System (State Q β) (Event β) where
  start := initState ops
  next s e s' := step ops hostc s e = .ok s'

end

/-! ## Rings of messages are queues -/

/-- Every operation on a queue of `ops` is one on the related queue of `ops'`. -/
structure Simulates (ops : QueueOps Q β) (ops' : QueueOps Q' β) (R : Q → Q' → Prop) : Prop where
  init : R ops.init ops'.init
  enqueue {q r q'} (p) : R q q' → ops.enqueue q p = some r →
    ∃ r', ops'.enqueue q' p = some r' ∧ R r r'
  dequeue {q r q'} : R q q' → ops.dequeue q = some r → ∃ r', ops'.dequeue q' = some r' ∧ R r r'
  cur {q q'} : R q q' → ops.cur q = ops'.cur q'
  setCur {q q'} (p) : R q q' → R (ops.setCur q p) (ops'.setCur q' p)
  release {q q'} {p : Packet β} : R q q' → ops.cur q = some p → R (ops.release q) (ops'.release q')

theorem msgQueue_simulates (k : Nat) (blank : Packet β) :
    Simulates (msgQueue (2 ^ k) blank) (fifoQueue (2 ^ k)) (Models (2 ^ k)) where
  init := models_init blank
  enqueue _ := Models.put
  dequeue := Models.take
  cur := Models.cur
  setCur p h := h.setCur p
  release h hcur := by
    have hcur' := h.cur
    apply h.release
    intro hnone
    rw [hnone] at hcur'
    exact Option.some_ne_none _ (hcur.symm.trans hcur')

/-- Two hosts with related queues. -/
structure HostRel (R : Q → Q' → Prop) (x : Host Q β) (y : Host Q' β) : Prop where
  outqueue : R x.outqueue y.outqueue
  inqueue : R x.inqueue y.inqueue
  retries : x.retries = y.retries
  waiting : x.waiting = y.waiting
  listen : x.listen = y.listen
  sndSeq : x.sndSeq = y.sndSeq
  rcvSeq : x.rcvSeq = y.rcvSeq
  handed : x.handed = y.handed

structure StateRel (R : Q → Q' → Prop) (s : State Q β) (t : State Q' β) : Prop where
  host : ∀ h, HostRel R (s.host h) (t.host h)
  net : s.net = t.net
  acks : s.acks = t.acks

section Simulation

variable {ops hostc} {ops' : QueueOps Q' β} {R : Q → Q' → Prop} {s s' : State Q β} {t : State Q' β}

theorem HostRel.upd {f : Nat → Host Q β} {g : Nat → Host Q' β} {h : Nat} {x : Host Q β}
    {y : Host Q' β} (hrel : ∀ i, HostRel R (f i) (g i)) (hxy : HostRel R x y) (i : Nat) :
    HostRel R (upd f h x i) (upd g h y i) := by
  by_cases hi : i = h
  · subst hi
    rw [upd_same, upd_same]
    exact hxy
  · rw [upd_of_ne _ _ hi, upd_of_ne _ _ hi]
    exact hrel i

theorem StateRel.setHost {h : Nat} {x : Host Q β} {y : Host Q' β} (hrel : StateRel R s t)
    (hxy : HostRel R x y) : StateRel R (s.setHost h x) (t.setHost h y) :=
  ⟨HostRel.upd hrel.host hxy, hrel.net, hrel.acks⟩

theorem HostRel.complete (hsim : Simulates ops ops' R) {x : Host Q β} {y : Host Q' β}
    {p : Packet β} (hxy : HostRel R x y) (hcur : ops.cur x.outqueue = some p) (topid : Nat) :
    HostRel R (x.complete ops topid) (y.complete ops' topid) := by
  refine ⟨hsim.release hxy.outqueue hcur, hxy.inqueue, hxy.retries, rfl, hxy.listen, ?_,
    hxy.rcvSeq, hxy.handed⟩
  dsimp only [Host.complete]
  rw [hxy.sndSeq]

theorem initState_rel (hsim : Simulates ops ops' R) :
    StateRel R (initState ops) (initState ops') := by
  have hhost : HostRel R (initHost ops) (initHost ops') :=
    ⟨hsim.init, hsim.init, rfl, rfl, rfl, rfl, rfl, rfl⟩
  exact ⟨fun _ => hhost, rfl, rfl⟩

variable [DecidableEq β]

theorem step_simulates (hsim : Simulates ops ops' R) {e : Event β} (hrel : StateRel R s t)
    (h : step ops hostc s e = .ok s') :
    ∃ t', step ops' hostc t e = .ok t' ∧ StateRel R s' t' := by
  cases e with
  | hand i msg seqno =>
      have hi := hrel.host i
      simp only [step, bind_eq_ok, await_eq_ok, present_eq_ok, pure, Except.pure,
        Except.ok.injEq] at h ⊢
      obtain ⟨-, hguard, q, hq, rfl⟩ := h
      obtain ⟨q', hq', hR⟩ := hsim.enqueue _ hi.outqueue hq
      rw [hi.handed] at hguard
      refine ⟨_, ⟨(), hguard, q', hq', rfl⟩, hrel.setHost ?_⟩
      exact ⟨hR, hi.inqueue, hi.retries, hi.waiting, hi.listen, hi.sndSeq, hi.rcvSeq,
        congrArg (· + 1) hi.handed⟩
  | take i msg =>
      have hi := hrel.host i
      simp only [step, bind_eq_ok, await_eq_ok, present_eq_ok, pure, Except.pure,
        Except.ok.injEq] at h ⊢
      obtain ⟨q, hq, p, hp, -, hguard, rfl⟩ := h
      obtain ⟨q', hq', hR⟩ := hsim.dequeue hi.outqueue hq
      refine ⟨_, ⟨q', hq', p, (hsim.cur hR).symm.trans hp, (), hguard, rfl⟩, hrel.setHost ?_⟩
      rw [hi.sndSeq]
      exact ⟨hsim.setCur _ hR, hi.inqueue, rfl, rfl, hi.listen, rfl, hi.rcvSeq, hi.handed⟩
  | sendto i =>
      have hi := hrel.host i
      simp only [step, bind_eq_ok, await_eq_ok, present_eq_ok, pure, Except.pure,
        Except.ok.injEq] at h ⊢
      obtain ⟨p, hp, -, hguard, rfl⟩ := h
      rw [hi.waiting] at hguard
      refine ⟨_, ⟨p, (hsim.cur hi.outqueue).symm.trans hp, (), hguard, rfl⟩, ?_⟩
      have hhost : HostRel R { s.host i with waiting := true } { t.host i with waiting := true } :=
        ⟨hi.outqueue, hi.inqueue, hi.retries, rfl, hi.listen, hi.sndSeq, hi.rcvSeq, hi.handed⟩
      exact ⟨(hrel.setHost hhost).host, congrArg (p :: ·) hrel.net, hrel.acks⟩
  | selfSend i msg =>
      have hi := hrel.host i
      simp only [step, bind_eq_ok, await_eq_ok, present_eq_ok, pure, Except.pure,
        Except.ok.injEq] at h ⊢
      obtain ⟨p, hp, -, hguard, q, hq, rfl⟩ := h
      obtain ⟨q', hq', hR⟩ := hsim.enqueue _ hi.inqueue hq
      rw [hi.waiting] at hguard
      refine ⟨_, ⟨p, (hsim.cur hi.outqueue).symm.trans hp, (), hguard, q', hq', rfl⟩,
        hrel.setHost ?_⟩
      have hhost : HostRel R { s.host i with inqueue := q } { t.host i with inqueue := q' } :=
        ⟨hi.outqueue, hR, hi.retries, hi.waiting, hi.listen, hi.sndSeq, hi.rcvSeq, hi.handed⟩
      exact hhost.complete hsim hp _
  | acked i msg =>
      have hi := hrel.host i
      simp only [step, bind_eq_ok, await_eq_ok, present_eq_ok, pure, Except.pure,
        Except.ok.injEq] at h ⊢
      obtain ⟨p, hp, -, hguard, rfl⟩ := h
      rw [hi.waiting, hrel.acks] at hguard
      exact ⟨_, ⟨p, (hsim.cur hi.outqueue).symm.trans hp, (), hguard, rfl⟩,
        hrel.setHost (hi.complete hsim hp _)⟩
  | resend i =>
      have hi := hrel.host i
      simp only [step, bind_eq_ok, await_eq_ok, pure, Except.pure, Except.ok.injEq] at h ⊢
      obtain ⟨-, hguard, rfl⟩ := h
      rw [hi.waiting, hi.retries] at hguard
      refine ⟨_, ⟨(), hguard, rfl⟩, hrel.setHost ?_⟩
      exact ⟨hi.outqueue, hi.inqueue, congrArg (· + 1) hi.retries, rfl, hi.listen, hi.sndSeq,
        hi.rcvSeq, hi.handed⟩
  | giveUp i msg =>
      have hi := hrel.host i
      simp only [step, bind_eq_ok, await_eq_ok, present_eq_ok, pure, Except.pure,
        Except.ok.injEq] at h ⊢
      obtain ⟨p, hp, -, hguard, rfl⟩ := h
      rw [hi.waiting, hi.retries] at hguard
      exact ⟨_, ⟨p, (hsim.cur hi.outqueue).symm.trans hp, (), hguard, rfl⟩,
        hrel.setHost (hi.complete hsim hp _)⟩
  | accept i p =>
      have hi := hrel.host i
      simp only [step, bind_eq_ok, await_eq_ok, pure, Except.pure, Except.ok.injEq] at h ⊢
      obtain ⟨-, hguard, rfl⟩ := h
      rw [hrel.net, hi.listen, hi.rcvSeq] at hguard
      refine ⟨_, ⟨(), hguard, rfl⟩, ?_, hrel.net, congrArg (p.ack :: ·) hrel.acks⟩
      apply HostRel.upd hrel.host
      refine ⟨hi.outqueue, hi.inqueue, hi.retries, hi.waiting, rfl, hi.sndSeq, ?_, hi.handed⟩
      dsimp only
      rw [hi.rcvSeq]
  | discard i p =>
      have hi := hrel.host i
      simp only [step, bind_eq_ok, await_eq_ok, pure, Except.pure, Except.ok.injEq] at h ⊢
      obtain ⟨-, hguard, rfl⟩ := h
      rw [hrel.net, hi.listen, hi.rcvSeq] at hguard
      exact ⟨_, ⟨(), hguard, rfl⟩, hrel.host, hrel.net, congrArg (p.ack :: ·) hrel.acks⟩
  | enqueue i p =>
      have hi := hrel.host i
      simp only [step, bind_eq_ok, await_eq_ok, present_eq_ok, pure, Except.pure,
        Except.ok.injEq] at h ⊢
      obtain ⟨-, hguard, q, hq, rfl⟩ := h
      obtain ⟨q', hq', hR⟩ := hsim.enqueue _ hi.inqueue hq
      rw [hi.listen] at hguard
      refine ⟨_, ⟨(), hguard, q', hq', rfl⟩, hrel.setHost ?_⟩
      exact ⟨hi.outqueue, hR, hi.retries, hi.waiting, rfl, hi.sndSeq, hi.rcvSeq, hi.handed⟩
  | handle i msg =>
      have hi := hrel.host i
      simp only [step, bind_eq_ok, await_eq_ok, present_eq_ok, pure, Except.pure,
        Except.ok.injEq] at h ⊢
      obtain ⟨q, hq, p, hp, -, hguard, rfl⟩ := h
      obtain ⟨q', hq', hR⟩ := hsim.dequeue hi.inqueue hq
      refine ⟨_, ⟨q', hq', p, (hsim.cur hR).symm.trans hp, (), hguard, rfl⟩, hrel.setHost ?_⟩
      exact ⟨hi.outqueue, hR, hi.retries, hi.waiting, hi.listen, hi.sndSeq, hi.rcvSeq, hi.handed⟩
  | finish i =>
      have hi := hrel.host i
      simp only [step, bind_eq_ok, present_eq_ok, pure, Except.pure, Except.ok.injEq] at h ⊢
      obtain ⟨p, hp, rfl⟩ := h
      refine ⟨_, ⟨p, (hsim.cur hi.inqueue).symm.trans hp, rfl⟩, hrel.setHost ?_⟩
      exact ⟨hi.outqueue, hsim.release hi.inqueue hp, hi.retries, hi.waiting, hi.listen,
        hi.sndSeq, hi.rcvSeq, hi.handed⟩

/-- Rings whose size is a power of two have the traces of bounded queues, also
under a condition that does not depend on the queues. -/
theorem restrict_trace_fifo {C : State (Buffer (Packet β)) β → Event β → Prop}
    {C' : State (Queue (Packet β)) β → Event β → Prop} {k : Nat} {blank : Packet β}
    {s : State (Buffer (Packet β)) β} {es : List (Event β)}
    (hC : ∀ s t e, StateRel (Models (2 ^ k)) s t → C s e → C' t e)
    (h : ((udp (msgQueue (2 ^ k) blank) hostc).restrict C).Trace es s) :
    ∃ t, ((udp (fifoQueue (2 ^ k)) hostc).restrict C').Trace es t ∧
      StateRel (Models (2 ^ k)) s t := by
  have hsim := msgQueue_simulates k blank
  apply h.simulate (initState_rel hsim)
  intro s t e s' hrel hstep
  obtain ⟨t', hstep', hrel'⟩ := step_simulates hsim hrel hstep.2
  exact ⟨t', ⟨hC s t e hrel hstep.1, hstep'⟩, hrel'⟩

/-- Rings whose size is a power of two have the traces of bounded queues. -/
theorem trace_fifo {k : Nat} {blank : Packet β} {s : State (Buffer (Packet β)) β}
    {es : List (Event β)} (h : (udp (msgQueue (2 ^ k) blank) hostc).Trace es s) :
    ∃ t, (udp (fifoQueue (2 ^ k)) hostc).Trace es t ∧ StateRel (Models (2 ^ k)) s t := by
  have hsim := msgQueue_simulates k blank
  apply h.simulate (initState_rel hsim)
  intro s t e s' hrel hstep
  exact step_simulates hsim hrel hstep

end Simulation

end Jiajia.Udp
