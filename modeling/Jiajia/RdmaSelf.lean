import Jiajia.Lib.Transition
import Jiajia.Global

/-!
# Messages to the own host under RDMA

`rdma_client_thread` copies the messages a host sends to itself into the host's own
inqueue; `rdma_server_thread` handles them there.  The threads share two atomic counters,
`busy_value` and `free_value`, and every access to them is a step of its own.
-/

namespace Jiajia.RdmaSelf

open Transition

abbrev QueueSize : Nat := 32

/-- What the threads look at in a `jia_msg_t`. -/
structure Message (β : Type) where
  topid : Nat
  seqno : BitVec 32
  body : β
deriving DecidableEq, Repr

/-- Where `rdma_client_thread` stands in its turn for a message to its own host. -/
inductive ClientPc
  /-- Before `memcpy`. -/
  | next
  /-- Before the test of `free_value`. -/
  | copied
  /-- Before `busy_value` is raised. -/
  | lowered
  /-- Before `tail` advances. -/
  | raised
deriving DecidableEq, Repr

/-- Where `rdma_server_thread` stands in its turn for the own inqueue. -/
inductive ServerPc
  /-- Before the test of `busy_value`. -/
  | next
  /-- In `msg_handle`. -/
  | handling
  /-- Before `busy_value` is lowered. -/
  | handled
  /-- Before `free_value` is raised. -/
  | lowered
  /-- Before `head` advances. -/
  | raised
deriving DecidableEq, Repr

/-- The outqueue, the own inqueue and the two threads.  The last three fields are not in the
source: the bodies of the messages to the own host that were enqueued, the messages the
client has copied, and those the server has handled. -/
structure State (β : Type) where
  outqueue : List (Message β)
  slot : Nat → Message β
  head : Nat
  tail : Nat
  busy : Nat
  free : Nat
  client : ClientPc
  server : ServerPc
  sndSeq : Nat → BitVec 32
  asked : List β
  moved : List (Message β)
  handled : List (Message β)

inductive Event (β : Type)
  /-- Some thread enqueues a message. -/
  | hand (msg : Message β)
  /-- `memcpy(inqueue->queue[inqueue->tail], msg_ptr, sizeof(jia_msg_t))` -/
  | copy
  | lowerFree
  | raiseBusy
  | advanceTail
  /-- `post_send` of a message to another host. -/
  | post
  /-- `msg_handle(inqueue->queue[inqueue->head])` is called. -/
  | handle
  /-- `msg_handle` returns. -/
  | handled
  | lowerBusy
  | raiseFree
  | advanceHead
deriving DecidableEq, Repr

section

variable {β : Type} (pid : Nat)

def step (s : State β) : Event β → Result (State β)
  | .hand msg => do
      await (s.outqueue.length < QueueSize)
      return { s with
        outqueue := s.outqueue ++ [msg]
        asked := if msg.topid = pid then s.asked ++ [msg.body] else s.asked }
  | .copy =>
      match s.outqueue with
      | [] => .error .blocked
      | msg :: _ => do
          await (s.client = .next ∧ msg.topid = pid)
          let msg := { msg with seqno := s.sndSeq pid }
          return { s with
            slot := upd s.slot s.tail msg
            client := .copied
            moved := s.moved ++ [msg] }
  | .lowerFree => do
      await (s.client = .copied)
      -- "busy value error <= 0" is only logged
      return { s with
        free := if s.free = 0 then s.free else s.free - 1
        client := .lowered }
  | .raiseBusy => do
      await (s.client = .lowered)
      return { s with
        busy := s.busy + 1
        client := .raised }
  | .advanceTail => do
      await (s.client = .raised)
      return { s with
        tail := (s.tail + 1) % QueueSize
        sndSeq := upd s.sndSeq pid (s.sndSeq pid + 1)
        outqueue := s.outqueue.tail
        client := .next }
  | .post =>
      match s.outqueue with
      | [] => .error .blocked
      | msg :: rest => do
          await (s.client = .next ∧ msg.topid ≠ pid)
          return { s with
            sndSeq := upd s.sndSeq msg.topid (s.sndSeq msg.topid + 1)
            outqueue := rest }
  | .handle => do
      await (s.server = .next ∧ 0 < s.busy)
      return { s with server := .handling }
  | .handled => do
      await (s.server = .handling)
      return { s with
        handled := s.handled ++ [s.slot s.head]
        server := .handled }
  | .lowerBusy => do
      await (s.server = .handled)
      return { s with
        busy := if s.busy = 0 then s.busy else s.busy - 1
        server := .lowered }
  | .raiseFree => do
      await (s.server = .lowered)
      return { s with
        free := s.free + 1
        server := .raised }
  | .advanceHead => do
      await (s.server = .raised)
      return { s with
        head := (s.head + 1) % QueueSize
        server := .next }

/-- `init_msg_queue`; `blank` is what the slots hold. -/
def initState (blank : Message β) : State β where
  outqueue := []
  slot _ := blank
  head := 0
  tail := 0
  busy := 0
  free := QueueSize
  client := .next
  server := .next
  sndSeq _ := 0
  asked := []
  moved := []
  handled := []

/-- Host `pid` with its client and its server thread. -/
def rdma (blank : Message β) : System (State β) (Event β) where
  start := initState blank
  next s e s' := step pid s e = .ok s'

end

/-! ## What has been done of a turn -/

namespace ClientPc

/-- The message was copied, and `free_value` does not know it yet. -/
def unlowered : ClientPc → Nat
  | copied => 1
  | next | lowered | raised => 0

/-- The message was copied, and `busy_value` does not know it yet. -/
def unraised : ClientPc → Nat
  | copied | lowered => 1
  | next | raised => 0

/-- The message was copied, and `tail` and the outqueue do not know it yet. -/
def unadvanced : ClientPc → Nat
  | copied | lowered | raised => 1
  | next => 0

end ClientPc

namespace ServerPc

def unlowered : ServerPc → Nat
  | handled => 1
  | next | handling | lowered | raised => 0

def unraised : ServerPc → Nat
  | handled | lowered => 1
  | next | handling | raised => 0

def unadvanced : ServerPc → Nat
  | handled | lowered | raised => 1
  | next | handling => 0

end ServerPc

variable {β : Type} {pid : Nat} {s s' : State β} {e : Event β} {blank : Message β}

/-- The messages to the own host that still wait in the outqueue. -/
def State.waiting (pid : Nat) (s : State β) : List (Message β) :=
  (s.outqueue.drop s.client.unadvanced).filter fun msg => msg.topid = pid

/-- Nothing that was sent to the own host is lost. -/
structure Lossless (pid : Nat) (s : State β) : Prop where
  /-- What was enqueued was copied in this order or still waits. -/
  asked : s.asked = (s.moved ++ s.waiting pid).map Message.body
  /-- What was copied is handled once and in this order. -/
  in_order : s.handled <+: s.moved
  /-- A slot that was not handled still holds its message. -/
  kept : ∀ i msg, s.handled.length ≤ i → s.moved[i]? = some msg → s.slot (i % QueueSize) = msg
  busy_le : s.busy ≤ QueueSize
  /-- Between the turns of the threads every slot is either free or busy. -/
  sum : s.client = .next → s.server = .next ∨ s.server = .handling → s.free + s.busy = QueueSize
  /-- Between the turns, `busy_value` counts what is left to handle. -/
  left : s.client = .next → s.server = .next → s.handled.length + s.busy = s.moved.length

/-- There is a free slot when the client copies a message. -/
def Roomy (s : State β) (e : Event β) : Prop := e = .copy → 0 < s.free

/-! ## The invariant -/

/-- The counters against the numbers of messages copied and handled. -/
structure Counts (s : State β) : Prop where
  busy : s.busy + s.handled.length + s.client.unraised = s.moved.length + s.server.unlowered
  free : s.free + s.moved.length + s.server.unraised =
    QueueSize + s.handled.length + s.client.unlowered
  room : s.client = .copied → 0 < s.free
  held : s.server = .handling ∨ s.server = .handled → 0 < s.busy

theorem Counts.le (h : Counts s) : s.moved.length ≤ s.handled.length + QueueSize := by
  have hfree := h.free
  cases hc : s.client with
  | copied =>
      have hroom := h.room hc
      rw [hc, ClientPc.unlowered] at hfree
      omega
  | next | lowered | raised =>
      rw [hc, ClientPc.unlowered] at hfree
      omega

theorem Counts.busy_le (h : Counts s) : s.busy ≤ QueueSize := by
  have hbusy := h.busy
  have hfree := h.free
  have hserver : s.server.unlowered ≤ s.server.unraised := by
    cases s.server <;> decide
  cases hc : s.client with
  | copied =>
      have hroom := h.room hc
      rw [hc] at hbusy hfree
      simp only [ClientPc.unlowered, ClientPc.unraised] at hbusy hfree
      omega
  | next | lowered | raised =>
      rw [hc] at hbusy hfree
      simp only [ClientPc.unlowered, ClientPc.unraised] at hbusy hfree
      omega

theorem copy_ok (hstep : step pid s .copy = .ok s') :
    ∃ msg rest, s.outqueue = msg :: rest ∧ s.client = .next ∧ msg.topid = pid ∧
      s' = { s with
        slot := upd s.slot s.tail { msg with seqno := s.sndSeq pid }
        client := .copied
        moved := s.moved ++ [{ msg with seqno := s.sndSeq pid }] } := by
  cases hout : s.outqueue with
  | nil => simp [step, hout] at hstep
  | cons msg rest =>
      rw [step, hout] at hstep
      obtain ⟨⟨hc, hown⟩, rfl⟩ := await_return.mp hstep
      exact ⟨msg, rest, rfl, hc, hown, rfl⟩

theorem post_ok (hstep : step pid s .post = .ok s') :
    ∃ msg rest, s.outqueue = msg :: rest ∧ s.client = .next ∧ msg.topid ≠ pid ∧
      s' = { s with
        sndSeq := upd s.sndSeq msg.topid (s.sndSeq msg.topid + 1)
        outqueue := rest } := by
  cases hout : s.outqueue with
  | nil => simp [step, hout] at hstep
  | cons msg rest =>
      rw [step, hout] at hstep
      obtain ⟨⟨hc, hother⟩, rfl⟩ := await_return.mp hstep
      exact ⟨msg, rest, rfl, hc, hother, rfl⟩

theorem counts_step (h : Counts s) (hroomy : Roomy s e) (hstep : step pid s e = .ok s') :
    Counts s' := by
  have hbusy := h.busy
  have hfree := h.free
  cases e with
  | hand msg =>
      obtain ⟨-, rfl⟩ := await_return.mp hstep
      exact ⟨hbusy, hfree, h.room, h.held⟩
  | copy =>
      obtain ⟨msg, -, -, hc, -, rfl⟩ := copy_ok hstep
      rw [hc] at hbusy hfree
      simp only [ClientPc.unlowered, ClientPc.unraised] at hbusy hfree
      refine ⟨?_, ?_, fun _ => hroomy rfl, h.held⟩
      · simp only [ClientPc.unraised, List.length_append, List.length_singleton]
        omega
      · simp only [ClientPc.unlowered, List.length_append, List.length_singleton]
        omega
  | lowerFree =>
      obtain ⟨hc, rfl⟩ := await_return.mp hstep
      have hroom := h.room hc
      rw [hc] at hbusy hfree
      simp only [ClientPc.unlowered, ClientPc.unraised] at hbusy hfree
      refine ⟨hbusy, ?_, by simp, h.held⟩
      simp only [ClientPc.unlowered, if_neg hroom.ne']
      omega
  | raiseBusy =>
      obtain ⟨hc, rfl⟩ := await_return.mp hstep
      rw [hc] at hbusy hfree
      simp only [ClientPc.unlowered, ClientPc.unraised] at hbusy hfree
      refine ⟨?_, hfree, by simp, fun _ => Nat.succ_pos _⟩
      simp only [ClientPc.unraised]
      omega
  | advanceTail =>
      obtain ⟨hc, rfl⟩ := await_return.mp hstep
      rw [hc] at hbusy hfree
      exact ⟨hbusy, hfree, by simp, h.held⟩
  | post =>
      obtain ⟨msg, rest, -, -, -, rfl⟩ := post_ok hstep
      exact ⟨hbusy, hfree, h.room, h.held⟩
  | handle =>
      obtain ⟨⟨hs, hpos⟩, rfl⟩ := await_return.mp hstep
      rw [hs] at hbusy hfree
      exact ⟨hbusy, hfree, h.room, fun _ => hpos⟩
  | handled =>
      obtain ⟨hs, rfl⟩ := await_return.mp hstep
      have hheld := h.held (Or.inl hs)
      rw [hs] at hbusy hfree
      simp only [ServerPc.unlowered, ServerPc.unraised] at hbusy hfree
      refine ⟨?_, ?_, h.room, fun _ => hheld⟩
      · simp only [ServerPc.unlowered, List.length_append, List.length_singleton]
        omega
      · simp only [ServerPc.unraised, List.length_append, List.length_singleton]
        omega
  | lowerBusy =>
      obtain ⟨hs, rfl⟩ := await_return.mp hstep
      have hheld := h.held (Or.inr hs)
      rw [hs] at hbusy hfree
      simp only [ServerPc.unlowered, ServerPc.unraised] at hbusy hfree
      refine ⟨?_, hfree, h.room, by simp⟩
      simp only [ServerPc.unlowered, if_neg hheld.ne']
      omega
  | raiseFree =>
      obtain ⟨hs, rfl⟩ := await_return.mp hstep
      rw [hs] at hbusy hfree
      simp only [ServerPc.unlowered, ServerPc.unraised] at hbusy hfree
      refine ⟨hbusy, ?_, fun _ => Nat.succ_pos _, by simp⟩
      simp only [ServerPc.unraised]
      omega
  | advanceHead =>
      obtain ⟨hs, rfl⟩ := await_return.mp hstep
      rw [hs] at hbusy hfree
      exact ⟨hbusy, hfree, h.room, by simp⟩

/-- The indices and the slots between them. -/
structure Slots (s : State β) : Prop where
  tail_lt : s.tail < QueueSize
  tail : (s.tail + s.client.unadvanced) % QueueSize = s.moved.length % QueueSize
  head_lt : s.head < QueueSize
  head : (s.head + s.server.unadvanced) % QueueSize = s.handled.length % QueueSize
  slot : ∀ i msg, s.handled.length ≤ i → s.moved[i]? = some msg → s.slot (i % QueueSize) = msg

/-- What was enqueued, copied and handled. -/
structure Order (pid : Nat) (s : State β) : Prop where
  asked : s.asked = (s.moved ++ s.waiting pid).map Message.body
  handled : s.handled <+: s.moved
  inHand : s.client ≠ .next → s.outqueue ≠ []

/-- The slot the client copies to holds nothing that is still to be handled. -/
theorem slots_copy (h : Slots s) (hcounts : Counts s) (hc : s.client = .next) (hfree : 0 < s.free)
    (msg : Message β) (i : Nat) (m : Message β) (hi : s.handled.length ≤ i)
    (hm : (s.moved ++ [msg])[i]? = some m) : upd s.slot s.tail msg (i % QueueSize) = m := by
  have hfree' := hcounts.free
  have htail := h.tail
  rw [hc] at hfree' htail
  simp only [ClientPc.unlowered, ClientPc.unadvanced, Nat.add_zero] at hfree' htail
  rw [Nat.mod_eq_of_lt h.tail_lt] at htail
  by_cases hlt : i < s.moved.length
  · rw [List.getElem?_append_left hlt] at hm
    have hne : i % QueueSize ≠ s.tail := by
      rw [htail]
      simp only [QueueSize] at *
      omega
    rw [upd_of_ne _ _ hne]
    exact h.slot i m hi hm
  · rw [List.getElem?_append_right (Nat.le_of_not_lt hlt)] at hm
    have hlast : i - s.moved.length = 0 := by
      have hbound := (List.getElem?_eq_some_iff.mp hm).1
      rw [List.length_singleton] at hbound
      omega
    have heq : i = s.moved.length := by omega
    rw [hlast] at hm
    rw [heq, ← htail, upd_same]
    exact Option.some.inj hm

theorem slots_step (h : Slots s) (hcounts : Counts s) (hroomy : Roomy s e)
    (hstep : step pid s e = .ok s') : Slots s' := by
  have htail := h.tail
  have hhead := h.head
  cases e with
  | hand msg =>
      obtain ⟨-, rfl⟩ := await_return.mp hstep
      exact ⟨h.tail_lt, htail, h.head_lt, hhead, h.slot⟩
  | copy =>
      obtain ⟨msg, -, -, hc, -, rfl⟩ := copy_ok hstep
      refine ⟨h.tail_lt, ?_, h.head_lt, hhead, slots_copy h hcounts hc (hroomy rfl) _⟩
      rw [hc] at htail
      simp only [ClientPc.unadvanced] at htail
      simp only [ClientPc.unadvanced, List.length_append, List.length_singleton, QueueSize] at *
      omega
  | lowerFree =>
      obtain ⟨hc, rfl⟩ := await_return.mp hstep
      rw [hc] at htail
      exact ⟨h.tail_lt, htail, h.head_lt, hhead, h.slot⟩
  | raiseBusy =>
      obtain ⟨hc, rfl⟩ := await_return.mp hstep
      rw [hc] at htail
      exact ⟨h.tail_lt, htail, h.head_lt, hhead, h.slot⟩
  | advanceTail =>
      obtain ⟨hc, rfl⟩ := await_return.mp hstep
      rw [hc] at htail
      refine ⟨Nat.mod_lt _ (by decide), ?_, h.head_lt, hhead, h.slot⟩
      show ((s.tail + 1) % QueueSize + 0) % QueueSize = _
      rw [Nat.add_zero, Nat.mod_mod]
      exact htail
  | post =>
      obtain ⟨msg, rest, -, -, -, rfl⟩ := post_ok hstep
      exact ⟨h.tail_lt, htail, h.head_lt, hhead, h.slot⟩
  | handle =>
      obtain ⟨⟨hs, -⟩, rfl⟩ := await_return.mp hstep
      rw [hs] at hhead
      exact ⟨h.tail_lt, htail, h.head_lt, hhead, h.slot⟩
  | handled =>
      obtain ⟨hs, rfl⟩ := await_return.mp hstep
      rw [hs] at hhead
      refine ⟨h.tail_lt, htail, h.head_lt, ?_, ?_⟩
      · simp only [ServerPc.unadvanced] at hhead
        simp only [ServerPc.unadvanced, List.length_append, List.length_singleton, QueueSize] at *
        omega
      · intro i m hi hm
        rw [List.length_append, List.length_singleton] at hi
        exact h.slot i m (by omega) hm
  | lowerBusy =>
      obtain ⟨hs, rfl⟩ := await_return.mp hstep
      rw [hs] at hhead
      exact ⟨h.tail_lt, htail, h.head_lt, hhead, h.slot⟩
  | raiseFree =>
      obtain ⟨hs, rfl⟩ := await_return.mp hstep
      rw [hs] at hhead
      exact ⟨h.tail_lt, htail, h.head_lt, hhead, h.slot⟩
  | advanceHead =>
      obtain ⟨hs, rfl⟩ := await_return.mp hstep
      rw [hs] at hhead
      refine ⟨h.tail_lt, htail, Nat.mod_lt _ (by decide), ?_, h.slot⟩
      show ((s.head + 1) % QueueSize + 0) % QueueSize = _
      rw [Nat.add_zero, Nat.mod_mod]
      exact hhead

/-- The slot at the head holds the first message that was not handled. -/
theorem prefix_handled (h : Order pid s) (hcounts : Counts s) (hslots : Slots s)
    (hs : s.server = .handling) : s.handled ++ [s.slot s.head] <+: s.moved := by
  have hbusy := hcounts.busy
  have hpos := hcounts.held (Or.inl hs)
  have hhead := hslots.head
  rw [hs] at hbusy hhead
  simp only [ServerPc.unlowered, ServerPc.unadvanced, Nat.add_zero] at hbusy hhead
  rw [Nat.mod_eq_of_lt hslots.head_lt] at hhead
  obtain ⟨rest, hrest⟩ := h.handled
  cases rest with
  | nil =>
      rw [List.append_nil] at hrest
      rw [hrest] at hbusy
      omega
  | cons msg rest =>
      have hmsg : s.moved[s.handled.length]? = some msg := by
        rw [← hrest, List.getElem?_append_right (Nat.le_refl _), Nat.sub_self]
        rfl
      rw [hhead, hslots.slot _ msg (Nat.le_refl _) hmsg]
      exact ⟨rest, by rw [← hrest, List.append_assoc, List.singleton_append]⟩

theorem order_step (h : Order pid s) (hcounts : Counts s) (hslots : Slots s)
    (hstep : step pid s e = .ok s') : Order pid s' := by
  have hasked := h.asked
  unfold State.waiting at hasked
  cases e with
  | hand msg =>
      obtain ⟨-, rfl⟩ := await_return.mp hstep
      refine ⟨?_, h.handled, fun _ => by simp⟩
      -- the message in hand stays at the front
      have hdrop : (s.outqueue ++ [msg]).drop s.client.unadvanced =
          s.outqueue.drop s.client.unadvanced ++ [msg] := by
        apply List.drop_append_of_le_length
        cases hc : s.client with
        | next => exact Nat.zero_le _
        | copied | lowered | raised =>
            exact List.length_pos_of_ne_nil (h.inHand (by rw [hc]; decide))
      show (if msg.topid = pid then s.asked ++ [msg.body] else s.asked) = _
      unfold State.waiting
      rw [hdrop, List.filter_append, hasked]
      by_cases hown : msg.topid = pid
      · simp [hown]
      · simp [hown]
  | copy =>
      obtain ⟨msg, rest, hout, hc, hown, rfl⟩ := copy_ok hstep
      rw [hc, hout] at hasked
      refine ⟨?_, h.handled.trans (List.prefix_append _ _), fun _ => by simp [hout]⟩
      rw [hasked]
      simp [State.waiting, ClientPc.unadvanced, hown, hout]
  | lowerFree =>
      obtain ⟨hc, rfl⟩ := await_return.mp hstep
      rw [hc] at hasked
      exact ⟨hasked, h.handled, fun _ => h.inHand (by rw [hc]; decide)⟩
  | raiseBusy =>
      obtain ⟨hc, rfl⟩ := await_return.mp hstep
      rw [hc] at hasked
      exact ⟨hasked, h.handled, fun _ => h.inHand (by rw [hc]; decide)⟩
  | advanceTail =>
      obtain ⟨hc, rfl⟩ := await_return.mp hstep
      rw [hc, ClientPc.unadvanced, List.drop_one] at hasked
      exact ⟨hasked, h.handled, fun hcon => absurd rfl hcon⟩
  | post =>
      obtain ⟨msg, rest, hout, hc, hother, rfl⟩ := post_ok hstep
      rw [hc, hout] at hasked
      refine ⟨?_, h.handled, fun hcon => absurd hc hcon⟩
      rw [hasked]
      simp [State.waiting, hc, ClientPc.unadvanced, hother]
  | handle =>
      obtain ⟨-, rfl⟩ := await_return.mp hstep
      exact ⟨hasked, h.handled, h.inHand⟩
  | handled =>
      obtain ⟨hs, rfl⟩ := await_return.mp hstep
      exact ⟨hasked, prefix_handled h hcounts hslots hs, h.inHand⟩
  | lowerBusy =>
      obtain ⟨-, rfl⟩ := await_return.mp hstep
      exact ⟨hasked, h.handled, h.inHand⟩
  | raiseFree =>
      obtain ⟨-, rfl⟩ := await_return.mp hstep
      exact ⟨hasked, h.handled, h.inHand⟩
  | advanceHead =>
      obtain ⟨-, rfl⟩ := await_return.mp hstep
      exact ⟨hasked, h.handled, h.inHand⟩

/-! ## Whole runs -/

theorem lossless_of (hcounts : Counts s) (hslots : Slots s) (horder : Order pid s) :
    Lossless pid s := by
  have hbusy := hcounts.busy
  have hfree := hcounts.free
  refine ⟨horder.asked, horder.handled, hslots.slot, hcounts.busy_le, ?_, ?_⟩
  · intro hc hs
    have hserver : s.server.unlowered = 0 ∧ s.server.unraised = 0 := by
      cases hs with
      | inl hnext => rw [hnext]; exact ⟨rfl, rfl⟩
      | inr hhandling => rw [hhandling]; exact ⟨rfl, rfl⟩
    rw [hc, hserver.1] at hbusy
    rw [hc, hserver.2] at hfree
    simp only [ClientPc.unlowered, ClientPc.unraised] at hbusy hfree
    omega
  · intro hc hs
    rw [hc, hs] at hbusy
    simp only [ClientPc.unraised, ServerPc.unlowered] at hbusy
    omega

/-- As long as there is a free slot whenever the client copies a message to its own host, no
such message is lost. -/
theorem self_delivery_lossless (h : ((rdma pid blank).restrict Roomy).Reach s) :
    Lossless pid s := by
  have hinv : Counts s ∧ Slots s ∧ Order pid s := by
    refine System.Reach.invariant (I := fun s => Counts s ∧ Slots s ∧ Order pid s) ?_ ?_ h
    · refine ⟨⟨rfl, rfl, by simp [System.restrict, rdma, initState],
        by simp [System.restrict, rdma, initState]⟩, ⟨?_, rfl, ?_, rfl, ?_⟩,
        ⟨rfl, List.nil_prefix, fun hcon => absurd rfl hcon⟩⟩
      · show 0 < QueueSize
        decide
      · show 0 < QueueSize
        decide
      · intro i msg _ hmsg
        simp [System.restrict, rdma, initState] at hmsg
    · rintro s e s' - ⟨hcounts, hslots, horder⟩ ⟨hroomy, hstep⟩
      exact ⟨counts_step hcounts hroomy hstep, slots_step hslots hcounts hroomy hstep,
        order_step horder hcounts hslots hstep⟩
  exact lossless_of hinv.1 hinv.2.1 hinv.2.2

def zeroMsg : Message Nat := ⟨0, 0, 0⟩

/-- The client's turn for a message of host 0 to itself. -/
def selfTurn (i : Nat) : List (Event Nat) :=
  [.hand ⟨0, 0, i⟩, .copy, .lowerFree, .raiseBusy, .advanceTail]

/-- The server thread is behind: the third message is copied before the first has been handled,
and a message to host 1 goes out between the second and the third. -/
def threeMessages : List (Event Nat) :=
  selfTurn 7 ++ selfTurn 8 ++ [.handle, .hand ⟨1, 0, 5⟩, .post] ++ selfTurn 9 ++
    [.handled, .lowerBusy, .raiseFree, .advanceHead, .handle, .handled, .lowerBusy, .raiseFree,
      .advanceHead, .handle, .handled]

theorem self_delivery_lossless_threeMessages :
    ∃ s, ((rdma 0 zeroMsg).restrict Roomy).Reach s ∧ Lossless 0 s ∧
      s.asked = [7, 8, 9] ∧ s.handled.map Message.body = [7, 8, 9] := by
  have hnext : ∀ (s : State Nat) (e : Event Nat) s', (do
      await (e = Event.copy → 0 < s.free)
      step 0 s e) = .ok s' → ((rdma 0 zeroMsg).restrict Roomy).next s e s' := by
    intro s e s' h
    rw [bind_eq_ok] at h
    obtain ⟨_, hroomy, hstep⟩ := h
    have hroomy' : e = .copy → 0 < s.free := await_eq_ok.mp hroomy
    exact ⟨hroomy', hstep⟩
  obtain ⟨s, hs, hcheck⟩ := System.exists_execBy hnext threeMessages
    (fun s => decide (s.asked = [7, 8, 9] ∧ s.handled.map Message.body = [7, 8, 9]))
    (by decide +kernel)
  exact ⟨s, hs, self_delivery_lossless hs, of_decide_eq_true hcheck⟩

/-- The server thread does not run while the main thread sends 33 messages to its own host:
the last one overwrites the first. -/
theorem burst_not_lossless :
    ¬ ∀ s, (rdma 0 zeroMsg).Reach s → Lossless 0 s := by
  intro hall
  have hnext : ∀ (s : State Nat) e s', step 0 s e = .ok s' →
      (rdma 0 zeroMsg).next s e s' := fun _ _ _ h => h
  obtain ⟨s, hs, hcheck⟩ := System.exists_execBy hnext ((List.range 33).flatMap selfTurn)
    (fun s => decide (s.handled.length = 0 ∧ s.moved[0]? = some zeroMsg ∧ s.slot 0 ≠ zeroMsg))
    (by decide +kernel)
  obtain ⟨hnone, hfirst, hover⟩ := of_decide_eq_true hcheck
  exact hover ((hall s hs).kept 0 _ (by rw [hnone]) hfirst)

end Jiajia.RdmaSelf
