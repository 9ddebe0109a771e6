import Jiajia.Global
import Jiajia.Lib.Ring
import Jiajia.Lib.Transition

/-!
# The receive ring of a remote peer under RDMA

The buffers of the ring are posted in batches, the connection fills them in the order they were
posted in, `post_recv` passes their completions on and the server thread handles the messages.
The indices and counters of the ring are changed one after the other.
-/

namespace Jiajia.RdmaRing

open Transition

/-- Where `post_recv` is with a completion; `i` is the buffer it is for. -/
inductive Listen
  | idle
  /-- The completion is polled. -/
  | polled (i : Nat)
  /-- `post_value` is looked at, and lowered. -/
  | lowered (i : Nat)
  /-- `busy_value` is raised. -/
  | raised
deriving DecidableEq

/-- Where the server thread is.  In the loop of `init_post_recv_wr` the places inside a batch
carry the value of `i`, in `check_flags` nothing. -/
inductive Server
  /-- In `init_post_recv_wr`, before a turn of the loop. -/
  | init (i : Nat)
  /-- Before it looks at `busy_value`. -/
  | idle
  /-- `msg_handle` works on the buffer at `head`. -/
  | handling
  /-- `busy_value` is lowered. -/
  | lowered
  /-- `free_value` is raised. -/
  | freed
  /-- In `check_flags`, before it looks at `free_value`. -/
  | checking
  /-- In `ibv_post_recv`; `j` work requests of the batch are posted. -/
  | posting (i : Option Nat) (j : Nat)
  /-- `ibv_post_recv` has returned. -/
  | posted (i : Option Nat)
  /-- `free_value` is lowered. -/
  | taken (i : Option Nat)
  /-- `post_value` is raised. -/
  | counted (i : Option Nat)
deriving DecidableEq

/-- The ring with its two threads, the posted buffers that the connection has not filled and the
completions that are not polled. -/
structure Ring (α : Type) where
  slot : Nat → Option α
  head : Nat
  tail : Nat
  post : Nat
  busy : Nat
  free : Nat
  postValue : Nat
  posted : List Nat
  cq : List Nat
  listen : Listen
  server : Server

inductive Event (α : Type)
  /-- The connection fills a buffer. -/
  | arrive (x : α)
  | listen
  | server

variable {α : Type}

/-- The ring after `init_msg_queue`. -/
def initMsgQueue (size : Nat) : Ring α where
  slot _ := none
  head := 0
  tail := 0
  post := 0
  busy := 0
  free := size
  postValue := 0
  posted := []
  cq := []
  listen := .idle
  server := .init 0

section Steps

variable (size batch : Nat) (s : Ring α)

/-- `limit` in `prepare_recv_wr`. -/
def limit (index : Nat) : Nat := min batch (size - index)

def arrive (x : α) : Result (Ring α) :=
  match s.posted with
  | [] => .error .blocked
  | i :: rest =>
      .ok { s with
        slot := Function.update s.slot i (some x), posted := rest, cq := s.cq ++ [i] }

/-- `post_recv`; only this thread lowers `post_value`. -/
def postRecv : Result (Ring α) :=
  match s.listen with
  | .idle =>
      match s.cq with
      | [] => .error .blocked
      | i :: rest => .ok { s with cq := rest, listen := .polled i }
  | .polled i =>
      -- with `post_value` at 0 the source only logs an error
      if s.postValue = 0 then .ok { s with listen := .lowered i }
      else .ok { s with postValue := s.postValue - 1, listen := .lowered i }
  | .lowered _ => .ok { s with busy := s.busy + 1, listen := .raised }
  | .raised => .ok { s with tail := (s.tail + 1) % size, listen := .idle }

/-- The first buffer of a batch. -/
def base : Option Nat → Nat
  | some i => i
  | none => s.post

def serverThread : Result (Ring α) :=
  match s.server with
  | .init i => .ok { s with server := if i < size then .posting (some i) 0 else .idle }
  | .idle => .ok { s with server := if 0 < s.busy then .handling else .checking }
  | .handling =>
      if s.busy = 0 then .ok { s with server := .lowered }
      else .ok { s with busy := s.busy - 1, server := .lowered }
  | .lowered => .ok { s with free := s.free + 1, server := .freed }
  | .freed => .ok { s with head := (s.head + 1) % size, server := .checking }
  | .checking => .ok { s with server := if batch ≤ s.free then .posting none 0 else .idle }
  | .posting i j =>
      if j < limit size batch (base s i) then
        .ok { s with posted := s.posted ++ [base s i + j], server := .posting i (j + 1) }
      else .ok { s with server := .posted i }
  | .posted i => .ok { s with free := s.free - batch, server := .taken i }
  | .taken i => .ok { s with postValue := s.postValue + batch, server := .counted i }
  | .counted i =>
      .ok { s with
        post := (s.post + batch) % size
        server := match i with
          | some i => .init (i + batch)
          | none => .idle }

def step : Event α → Result (Ring α)
  | .arrive x => arrive s x
  | .listen => postRecv size s
  | .server => serverThread size batch s

end Steps

def ringSystem (size batch : Nat) : System (Ring α) (Event α) where
  start := initMsgQueue size
  next s e s' := step size batch s e = .ok s'

/-! ## What has happened -/

/-- The messages that arrived and those `msg_handle` was called with, the completions passed on
to the server thread, the messages it is done with, the buffers posted, and how often
`post_recv` found `post_value` at 0. -/
structure Log (α : Type) where
  arrived : List α
  given : List (Option α)
  received : Nat
  handled : Nat
  posted : Nat
  missed : Nat

def observe (size batch : Nat) (l : Log α) (s : Ring α) : Event α → Log α
  | .arrive x => { l with arrived := l.arrived ++ [x] }
  | .listen =>
      match s.listen with
      | .polled _ => if s.postValue = 0 then { l with missed := l.missed + 1 } else l
      | .lowered _ => { l with received := l.received + 1 }
      | _ => l
  | .server =>
      match s.server with
      | .idle => if 0 < s.busy then { l with given := l.given ++ [s.slot s.head] } else l
      | .handling => { l with handled := l.handled + 1 }
      | .posting i j =>
          if j < limit size batch (base s i) then { l with posted := l.posted + 1 } else l
      | _ => l

def history (size batch : Nat) : System.Observer (Ring α) (Event α) (Log α) where
  start := ⟨[], [], 0, 0, 0, 0⟩
  obs l s e _ := observe size batch l s e

/-! ## A ring in order -/

/-- `tail`, once the update under way is finished. -/
def tailAt (size : Nat) (s : Ring α) : Nat :=
  if s.listen = .raised then (s.tail + 1) % size else s.tail

/-- `head`, once the update under way is finished. -/
def headAt (size : Nat) (s : Ring α) : Nat :=
  if s.server = .lowered ∨ s.server = .freed then (s.head + 1) % size else s.head

/-- The buffers of the batch under way that are posted. -/
def Server.batch (batch : Nat) : Server → Nat
  | .posting _ j => j
  | .posted _ | .taken _ | .counted _ => batch
  | _ => 0

/-- `post`, once it has passed the buffers that are posted. -/
def postAt (size batch : Nat) (s : Ring α) : Nat := (s.post + s.server.batch batch) % size

/-- The buffer whose completion `post_recv` is about to pass on. -/
def Listen.at : Listen → List Nat
  | .polled i | .lowered i => [i]
  | _ => []

/-- No update of an index or a counter is half done. -/
def Settled (s : Ring α) : Prop :=
  (∀ i, s.listen ≠ .lowered i) ∧ s.listen ≠ .raised ∧ s.server ≠ .lowered ∧ s.server ≠ .freed ∧
    s.server.batch 1 = 0

/-- The messages received and not handled. -/
def Log.unhandled (l : Log α) : List α := (l.arrived.take l.received).drop l.handled

/-- The buffers posted whose completion is not passed on, in the order of their posting. -/
def Ring.buffers (s : Ring α) : List Nat := s.listen.at ++ s.cq ++ s.posted

/-- The `n` slots from `i` on. -/
def slotsFrom (size i n : Nat) : List Nat := (List.range n).map fun k => (i + k) % size

/-- What the ring promises. -/
structure RingOk (size batch : Nat) (s : Ring α) (l : Log α) : Prop where
  room : l.unhandled.length + s.buffers.length ≤ size
  /-- The slots between head and tail are the received, unhandled messages in order. -/
  tail : tailAt size s = (headAt size s + l.unhandled.length) % size
  unhandled : (slotsFrom size (headAt size s) l.unhandled.length).map s.slot =
    l.unhandled.map some
  /-- The slots between tail and post are the posted buffers. -/
  post : postAt size batch s = (tailAt size s + s.buffers.length) % size
  posted : s.buffers = slotsFrom size (tailAt size s) s.buffers.length
  /-- The counters are those numbers. -/
  counters : Settled s → s.busy = l.unhandled.length ∧ s.postValue = s.buffers.length ∧
    s.free + l.unhandled.length + s.buffers.length = size
  /-- No buffer the connection may fill holds a message that is not handled. -/
  apart : ∀ i ∈ s.posted, ∀ k, l.handled ≤ k → k < l.arrived.length → i ≠ k % size
  /-- The messages are handled in the order they came in. -/
  given : l.given <+: l.arrived.map some

/-! ## The invariant -/

/-- Buffers posted that `free_value` still counts. -/
def Server.freeLag (batch : Nat) : Server → Nat
  | .posting _ j => j
  | .posted _ => batch
  | _ => 0

/-- Buffers posted that `post_value` does not count yet. -/
def Server.postLag (batch : Nat) : Server → Nat
  | .posting _ j => j
  | .posted _ | .taken _ => batch
  | _ => 0

/-- Completions taken off `post_value` that are not passed on. -/
def Listen.lag : Listen → Nat
  | .lowered _ => 1
  | _ => 0

/-- In the loop of `init_post_recv_wr` the index `i` is `post`. -/
def Batch (s : Ring α) (l : Log α) (j : Nat) (i : Option Nat) : Prop :=
  ∀ k, i = some k → k = s.post ∧ l.posted = k + j

/-- What is known at a place of the server thread. -/
def ServerOk (size batch : Nat) (s : Ring α) (l : Log α) : Prop :=
  match s.server with
  | .init i => l.posted = i ∧ i ≤ size ∧ batch ∣ i
  | .handling => l.handled < l.received
  | .posting i j => j ≤ batch ∧ batch ≤ s.free ∧ Batch s l j i
  | .posted i => batch ≤ s.free ∧ Batch s l batch i
  | .taken i | .counted i => Batch s l batch i
  | _ => True

structure Inv (size batch : Nat) (s : Ring α) (l : Log α) : Prop where
  handled_le : l.handled ≤ l.received
  received_le : l.received ≤ l.arrived.length
  arrived_le : l.arrived.length ≤ l.posted
  posted_le : l.posted ≤ l.handled + size
  tail : tailAt size s = l.received % size
  head : headAt size s = l.handled % size
  post : postAt size batch s = l.posted % size
  aligned : batch ∣ s.post ∧ s.post < size
  server : ServerOk size batch s l
  completed : s.listen.at ++ s.cq =
    (List.range' l.received (l.arrived.length - l.received)).map (· % size)
  waiting : s.posted =
    (List.range' l.arrived.length (l.posted - l.arrived.length)).map (· % size)
  slots : ∀ k, l.handled ≤ k → k < l.arrived.length → s.slot (k % size) = l.arrived[k]?
  given : l.given =
    (l.arrived.take (l.handled + if s.server = .handling then 1 else 0)).map some
  busy : s.busy + l.handled = l.received
  free : s.free + l.posted + (if s.server = .lowered then 1 else 0) =
    l.handled + size + s.server.freeLag batch
  postValue : s.postValue + l.received + s.listen.lag + s.server.postLag batch =
    l.posted + l.missed

section Steps

variable {size batch : Nat} {s s' : Ring α} {l : Log α}

/-- A batch that starts at a multiple of its size ends inside the ring. -/
theorem add_batch_le (hdvd : batch ∣ size) {i : Nat} (hi : batch ∣ i) (hlt : i < size) :
    i + batch ≤ size := by
  obtain ⟨a, rfl⟩ := hi
  obtain ⟨b, rfl⟩ := hdvd
  have hab : a + 1 ≤ b := Nat.lt_of_mul_lt_mul_left hlt
  calc batch * a + batch = batch * (a + 1) := (Nat.mul_succ batch a).symm
    _ ≤ batch * b := Nat.mul_le_mul_left batch hab

theorem mod_ne_of_window {i j : Nat} (hij : i < j) (hj : j < i + size) : i % size ≠ j % size := by
  have hne : (i + 0) % size ≠ (i + (j - i)) % size :=
    MaskRing.add_mod_ne (by omega) (by omega) (by omega)
  rwa [Nat.add_zero, Nat.add_sub_cancel' (Nat.le_of_lt hij)] at hne

theorem Inv.arrive (hi : Inv size batch s l) {x : α} (hstep : arrive s x = .ok s') :
    Inv size batch s' { l with arrived := l.arrived ++ [x] } := by
  unfold RdmaRing.arrive at hstep
  cases hposted : s.posted with
  | nil =>
      simp only [hposted] at hstep
      cases hstep
  | cons i rest =>
      simp only [hposted, Except.ok.injEq] at hstep
      subst hstep
      have hwaiting := hi.waiting
      have hlen : (l.arrived ++ [x]).length = l.arrived.length + 1 := by simp
      have hle := hi.received_le
      have hwindow := hi.posted_le
      have hlt : l.arrived.length < l.posted := by
        by_contra hge
        rw [hposted, Nat.sub_eq_zero_of_le (Nat.le_of_not_lt hge)] at hwaiting
        cases hwaiting
      have hcount : l.posted - l.arrived.length = l.posted - (l.arrived.length + 1) + 1 := by omega
      rw [hposted, hcount, List.range'_succ, List.map_cons, List.cons.injEq] at hwaiting
      obtain ⟨hindex, hrest⟩ := hwaiting
      refine { hi with
        received_le := by simp only [hlen]; omega
        arrived_le := by simp only [hlen]; omega
        completed := ?_
        waiting := by simp only [hlen]; exact hrest
        slots := ?_
        given := ?_ }
      · have hcount' : l.arrived.length + 1 - l.received =
            l.arrived.length - l.received + 1 := by omega
        show s.listen.at ++ (s.cq ++ [i]) = _
        rw [← List.append_assoc, hi.completed, hlen, hcount', List.range'_1_concat, List.map_append,
          hindex, Nat.add_sub_cancel' hle]
        rfl
      · intro k hk hlt'
        change l.handled ≤ k at hk
        show Function.update s.slot i (some x) (k % size) = _
        by_cases hlast : k = l.arrived.length
        · subst hlast
          rw [hindex, Function.update_self, List.getElem?_concat_length]
        · have hold : k < l.arrived.length := by
            simp only [hlen] at hlt'
            omega
          have hne : k % size ≠ i := by
            rw [hindex]
            exact mod_ne_of_window hold (by omega)
          rw [Function.update_of_ne hne, List.getElem?_append_left hold]
          exact hi.slots k hk hold
      · have htake : l.handled + (if s.server = .handling then 1 else 0) ≤ l.arrived.length := by
          have hserver := hi.server
          have hhandled := hi.handled_le
          split
          · rename_i hpc
            simp only [ServerOk, hpc] at hserver
            omega
          · omega
        rw [List.take_append_of_le_length htake]
        exact hi.given

/-- `tail` and `head`, where no update of them is under way. -/
theorem Inv.tail_eq (hi : Inv size batch s l) (hraised : s.listen ≠ .raised) :
    s.tail = l.received % size := by
  have htail := hi.tail
  rwa [tailAt, if_neg hraised] at htail

theorem Inv.head_eq (hi : Inv size batch s l) (hserver : s.server ≠ .lowered ∧ s.server ≠ .freed) :
    s.head = l.handled % size := by
  have hhead := hi.head
  rwa [headAt, if_neg (not_or.mpr hserver)] at hhead

theorem Inv.post_eq (hi : Inv size batch s l) {pc : Server} (hserver : s.server = pc) :
    (s.post + pc.batch batch) % size = l.posted % size := by
  have hpost := hi.post
  rwa [postAt, hserver] at hpost

theorem Inv.listen (hi : Inv size batch s l) (hstep : postRecv size s = .ok s') :
    Inv size batch s' (observe size batch l s .listen) := by
  have hcompleted := hi.completed
  have hcount := hi.postValue
  unfold postRecv at hstep
  cases hlisten : s.listen with
  | idle =>
      have hobs : observe size batch l s .listen = l := by rw [observe, hlisten]
      rw [hobs]
      cases hcq : s.cq with
      | nil =>
          simp only [hlisten, hcq] at hstep
          cases hstep
      | cons i rest =>
          simp only [hlisten, hcq, Except.ok.injEq] at hstep
          subst hstep
          rw [hlisten, hcq] at hcompleted
          have htail := hi.tail_eq (by rw [hlisten]; nofun)
          rw [hlisten] at hcount
          exact { hi with completed := hcompleted, tail := htail, postValue := hcount }
  | polled i =>
      have htail := hi.tail_eq (by rw [hlisten]; nofun)
      rw [hlisten] at hcompleted hcount
      by_cases hzero : s.postValue = 0
      · have hobs : observe size batch l s .listen = { l with missed := l.missed + 1 } := by
          simp only [observe, hlisten, if_pos hzero]
        simp only [hlisten, if_pos hzero, Except.ok.injEq] at hstep
        subst hstep
        rw [hobs]
        refine { hi with completed := hcompleted, tail := htail, postValue := ?_ }
        simp only [Listen.lag] at hcount ⊢
        omega
      · have hobs : observe size batch l s .listen = l := by
          simp only [observe, hlisten, if_neg hzero]
        simp only [hlisten, if_neg hzero, Except.ok.injEq] at hstep
        subst hstep
        rw [hobs]
        refine { hi with completed := hcompleted, tail := htail, postValue := ?_ }
        simp only [Listen.lag] at hcount ⊢
        omega
  | lowered i =>
      have hobs : observe size batch l s .listen = { l with received := l.received + 1 } := by
        rw [observe, hlisten]
      simp only [hlisten, Except.ok.injEq] at hstep
      subst hstep
      rw [hobs]
      have htail := hi.tail_eq (by rw [hlisten]; nofun)
      rw [hlisten] at hcompleted hcount
      have hlt : l.received < l.arrived.length := by
        by_contra hge
        rw [Nat.sub_eq_zero_of_le (Nat.le_of_not_lt hge)] at hcompleted
        cases hcompleted
      have hlen : l.arrived.length - l.received =
          l.arrived.length - (l.received + 1) + 1 := by omega
      rw [hlen, List.range'_succ, List.map_cons] at hcompleted
      have hhandled := hi.handled_le
      have hbusy := hi.busy
      refine { hi with
        handled_le := Nat.le_succ_of_le hhandled
        received_le := hlt
        tail := ?_
        server := ?_
        completed := (List.cons.inj hcompleted).2
        busy := ?_
        postValue := ?_ }
      · show (s.tail + 1) % size = (l.received + 1) % size
        rw [htail, Nat.mod_add_mod]
      · have hserver := hi.server
        unfold ServerOk at hserver ⊢
        cases hpc : s.server <;> simp only [hpc] at hserver ⊢ <;> try exact hserver
        exact Nat.lt_succ_of_lt hserver
      · show s.busy + 1 + l.handled = l.received + 1
        omega
      · simp only [Listen.lag] at hcount ⊢
        omega
  | raised =>
      have hobs : observe size batch l s .listen = l := by rw [observe, hlisten]
      simp only [hlisten, Except.ok.injEq] at hstep
      subst hstep
      rw [hobs]
      have htail := hi.tail
      rw [tailAt, if_pos hlisten] at htail
      rw [hlisten] at hcompleted hcount
      exact { hi with completed := hcompleted, tail := htail, postValue := hcount }

/-! ### The server thread -/

/-- A batch starts at `post`, in the loop of `init_post_recv_wr` too. -/
theorem base_eq {i : Option Nat} {j : Nat} (h : Batch s l j i) : base s i = s.post := by
  cases i with
  | none => rfl
  | some k => exact (h k rfl).1

theorem limit_eq (hdvd : batch ∣ size) (hi : Inv size batch s l) :
    limit size batch s.post = batch := by
  have hle := add_batch_le hdvd hi.aligned.1 hi.aligned.2
  exact Nat.min_eq_left (by omega)

/-- `ibv_post_recv` gives one more buffer to the connection. -/
theorem Inv.posting (hdvd : batch ∣ size) (hi : Inv size batch s l) {i : Option Nat} {j : Nat}
    (hserver : s.server = .posting i j) (hj : j < batch) :
    Inv size batch
      { s with posted := s.posted ++ [base s i + j], server := .posting i (j + 1) }
      { l with posted := l.posted + 1 } := by
  have hok := hi.server
  simp only [ServerOk, hserver] at hok
  obtain ⟨-, hfree, hbatch⟩ := hok
  have hpost := hi.post_eq hserver
  have hcount := hi.free
  have hvalue := hi.postValue
  have hle := add_batch_le hdvd hi.aligned.1 hi.aligned.2
  have harrived := hi.arrived_le
  rw [hserver] at hcount hvalue
  simp only [Server.freeLag, reduceCtorEq, if_false] at hcount
  simp only [Server.batch] at hpost
  simp only [Server.postLag] at hvalue
  have hindex : base s i + j = l.posted % size := by
    rw [base_eq hbatch, ← hpost, Nat.mod_eq_of_lt (by omega)]
  have hhead := hi.head_eq (by rw [hserver]; exact ⟨nofun, nofun⟩)
  have hgiven := hi.given
  rw [if_neg (by rw [hserver]; nofun)] at hgiven
  have hlen : l.posted + 1 - l.arrived.length = l.posted - l.arrived.length + 1 := by omega
  refine { hi with
    arrived_le := Nat.le_succ_of_le harrived
    posted_le := ?_
    head := hhead
    post := ?_
    server := ?_
    waiting := ?_
    given := hgiven
    free := ?_
    postValue := ?_ }
  · show l.posted + 1 ≤ l.handled + size
    omega
  · show (s.post + (j + 1)) % size = (l.posted + 1) % size
    rw [← Nat.add_assoc, ← Nat.mod_add_mod, hpost, Nat.mod_add_mod]
  · refine ⟨hj, hfree, fun k hk => ?_⟩
    obtain ⟨hk', hposted⟩ := hbatch k hk
    refine ⟨hk', ?_⟩
    show l.posted + 1 = k + (j + 1)
    omega
  · show s.posted ++ [base s i + j] = _
    rw [hi.waiting, hlen, List.range'_1_concat, List.map_append, hindex,
      Nat.add_sub_cancel' harrived]
    rfl
  · simp only [Server.freeLag, reduceCtorEq, if_false]
    omega
  · simp only [Server.postLag]
    omega

/-- A step of the server thread that changes nothing but its place. -/
theorem Inv.move (hi : Inv size batch s l) {pc : Server} {given : List (Option α)}
    (hhead : headAt size { s with server := pc } = headAt size s)
    (hpost : pc.batch batch = s.server.batch batch)
    (hfree : pc.freeLag batch = s.server.freeLag batch)
    (hvalue : pc.postLag batch = s.server.postLag batch)
    (hlowered : pc = .lowered ↔ s.server = .lowered)
    (hgiven : given =
      (l.arrived.take (l.handled + if pc = .handling then 1 else 0)).map some)
    (hserver : ServerOk size batch { s with server := pc } { l with given := given }) :
    Inv size batch { s with server := pc } { l with given := given } := by
  have hold := hi.free
  have hold' := hi.post
  have hold'' := hi.postValue
  refine { hi with
    head := hhead.trans hi.head
    post := ?_
    server := hserver
    given := hgiven
    free := ?_
    postValue := ?_ }
  · rw [postAt] at hold' ⊢
    rw [← hold', hpost]
  · show s.free + l.posted + (if pc = .lowered then 1 else 0) = _
    rw [hfree, ← hold]
    simp only [hlowered]
  · show s.postValue + l.received + s.listen.lag + pc.postLag batch = _
    rw [hvalue, hold'']

theorem headAt_same {pc : Server} (hpc : pc ≠ .lowered ∧ pc ≠ .freed)
    (hserver : s.server ≠ .lowered ∧ s.server ≠ .freed) :
    headAt size { s with server := pc } = headAt size s := by
  rw [headAt, headAt, if_neg (not_or.mpr hpc), if_neg (not_or.mpr hserver)]

theorem Inv.given_eq (hi : Inv size batch s l) (hserver : s.server ≠ .handling) :
    l.given = (l.arrived.take (l.handled + 0)).map some := by
  have hgiven := hi.given
  rwa [if_neg hserver] at hgiven

/-- The places at which `head` and the handler have nothing under way. -/
def Server.Plain (pc : Server) : Prop := pc ≠ .lowered ∧ pc ≠ .freed ∧ pc ≠ .handling

/-- Steps that only move on. -/
theorem Inv.goto (hi : Inv size batch s l) {pc₀ pc : Server} (hserver : s.server = pc₀)
    (hplain₀ : pc₀.Plain) (hplain : pc.Plain) (hpost : pc.batch batch = pc₀.batch batch)
    (hfree : pc.freeLag batch = pc₀.freeLag batch) (hvalue : pc.postLag batch = pc₀.postLag batch)
    (hok : ServerOk size batch { s with server := pc } l) :
    Inv size batch { s with server := pc } l := by
  subst hserver
  refine hi.move (headAt_same ⟨hplain.1, hplain.2.1⟩ ⟨hplain₀.1, hplain₀.2.1⟩) hpost hfree hvalue
    ?_ ?_ hok
  · exact ⟨fun h => absurd h hplain.1, fun h => absurd h hplain₀.1⟩
  · rw [if_neg hplain.2.2]
    exact hi.given_eq hplain₀.2.2

/-- The message at `head` is handled. -/
theorem Inv.handle (hi : Inv size batch s l) (hserver : s.server = .handling)
    (hlt : l.handled < l.received) :
    Inv size batch { s with busy := s.busy - 1, server := .lowered }
      { l with handled := l.handled + 1 } := by
  have hhead := hi.head_eq (by rw [hserver]; exact ⟨nofun, nofun⟩)
  have hpost := hi.post_eq hserver
  have hgiven := hi.given
  have hfree := hi.free
  have hvalue := hi.postValue
  have hbusy := hi.busy
  have hwindow := hi.posted_le
  rw [if_pos hserver] at hgiven
  rw [hserver] at hfree hvalue
  simp only [Server.freeLag, reduceCtorEq, if_false] at hfree
  simp only [Server.postLag] at hvalue
  refine { hi with
    handled_le := hlt
    posted_le := ?_
    head := ?_
    post := hpost
    server := trivial
    slots := fun k hk hk' => hi.slots k (Nat.le_of_succ_le hk) hk'
    given := hgiven
    busy := ?_
    free := ?_
    postValue := hvalue }
  · show l.posted ≤ l.handled + 1 + size
    omega
  · show (s.head + 1) % size = (l.handled + 1) % size
    rw [hhead, Nat.mod_add_mod]
  · show s.busy - 1 + (l.handled + 1) = l.received
    omega
  · show s.free + l.posted + 1 = l.handled + 1 + size
    omega

/-- `post` passes the batch. -/
theorem Inv.passBatch (hdvd : batch ∣ size) (hi : Inv size batch s l) {i : Option Nat}
    (hserver : s.server = .counted i) {pc : Server} (hplain : pc.Plain)
    (hbatch : pc.batch batch = 0) (hfree : pc.freeLag batch = 0) (hvalue : pc.postLag batch = 0)
    (hok : ServerOk size batch { s with post := (s.post + batch) % size, server := pc } l) :
    Inv size batch { s with post := (s.post + batch) % size, server := pc } l := by
  have hsize : 0 < size := Nat.lt_of_le_of_lt (Nat.zero_le _) hi.aligned.2
  have hpost : (s.post + batch) % size = l.posted % size := hi.post_eq hserver
  have hfree₀ := hi.free
  have hvalue₀ := hi.postValue
  rw [hserver] at hfree₀ hvalue₀
  refine { hi with
    head := ?_
    post := ?_
    aligned := ⟨?_, Nat.mod_lt _ hsize⟩
    server := hok
    given := ?_
    free := ?_
    postValue := ?_ }
  · rw [headAt, if_neg (not_or.mpr ⟨hplain.1, hplain.2.1⟩)]
    exact hi.head_eq (by rw [hserver]; exact ⟨nofun, nofun⟩)
  · show ((s.post + batch) % size + pc.batch batch) % size = l.posted % size
    rw [hbatch, Nat.add_zero, Nat.mod_mod, hpost]
  · exact (Nat.dvd_mod_iff hdvd).mpr (Nat.dvd_add hi.aligned.1 (Nat.dvd_refl batch))
  · rw [if_neg hplain.2.2]
    exact hi.given_eq (by rw [hserver]; nofun)
  · show s.free + l.posted + (if pc = .lowered then 1 else 0) = _
    rw [if_neg hplain.1, hfree]
    exact hfree₀
  · show s.postValue + l.received + s.listen.lag + pc.postLag batch = _
    rw [hvalue]
    exact hvalue₀

/-- `init_post_recv_wr` starts with the next batch, or is done. -/
theorem Inv.nextBatch (hdvd : batch ∣ size) (hi : Inv size batch s l) {i : Nat}
    (hserver : s.server = .init i) :
    Inv size batch { s with server := if i < size then .posting (some i) 0 else .idle } l := by
  have hok := hi.server
  have hfree := hi.free
  simp only [ServerOk, hserver] at hok
  obtain ⟨hposted, hle, hdvd'⟩ := hok
  rw [hserver] at hfree
  simp only [Server.freeLag, reduceCtorEq, if_false] at hfree
  by_cases hlt : i < size
  · rw [if_pos hlt]
    refine hi.goto hserver ⟨nofun, nofun, nofun⟩ ⟨nofun, nofun, nofun⟩ rfl rfl rfl ?_
    have hfits := add_batch_le hdvd hdvd' hlt
    have hpost : s.post % size = l.posted % size := hi.post_eq hserver
    refine ⟨Nat.zero_le _, ?_, ?_⟩
    · show batch ≤ s.free
      omega
    · intro k hk
      obtain rfl := Option.some.inj hk
      refine ⟨?_, hposted⟩
      show i = s.post
      rw [← Nat.mod_eq_of_lt hi.aligned.2, hpost, hposted, Nat.mod_eq_of_lt hlt]
  · rw [if_neg hlt]
    exact hi.goto hserver ⟨nofun, nofun, nofun⟩ ⟨nofun, nofun, nofun⟩ rfl rfl rfl trivial

/-- `msg_handle` is called with the message at `head`. -/
theorem Inv.give (hi : Inv size batch s l) (hserver : s.server = .idle) (hpos : 0 < s.busy) :
    Inv size batch { s with server := .handling }
      { l with given := l.given ++ [s.slot s.head] } := by
  have hgiven := hi.given_eq (by rw [hserver]; nofun)
  have hreceived := hi.received_le
  have hbusy := hi.busy
  have hlt : l.handled < l.received := by omega
  have hslot : s.slot s.head = l.arrived[l.handled]? := by
    rw [hi.head_eq (by rw [hserver]; exact ⟨nofun, nofun⟩)]
    exact hi.slots l.handled (Nat.le_refl _) (by omega)
  refine hi.move (headAt_same ⟨nofun, nofun⟩ (by rw [hserver]; exact ⟨nofun, nofun⟩))
    (by rw [hserver]; rfl) (by rw [hserver]; rfl) (by rw [hserver]; rfl)
    (by rw [hserver]; exact ⟨nofun, nofun⟩) ?_ hlt
  rw [hgiven, hslot, if_pos rfl, Nat.add_zero, List.take_add_one,
    List.getElem?_eq_getElem (by omega), List.map_append]
  rfl

theorem Inv.raiseFree (hi : Inv size batch s l) (hserver : s.server = .lowered) :
    Inv size batch { s with free := s.free + 1, server := .freed } l := by
  have hfree := hi.free
  have hvalue := hi.postValue
  have hhead := hi.head
  rw [headAt, if_pos (.inl hserver)] at hhead
  rw [hserver] at hfree hvalue
  have hpost := hi.post_eq hserver
  refine { hi with
    head := hhead
    post := hpost
    server := trivial
    given := hi.given_eq (by rw [hserver]; nofun)
    free := ?_
    postValue := hvalue }
  simp only [Server.freeLag, reduceCtorEq, if_false, if_true] at hfree ⊢
  omega

theorem Inv.passHead (hi : Inv size batch s l) (hserver : s.server = .freed) :
    Inv size batch { s with head := (s.head + 1) % size, server := .checking } l := by
  have hfree := hi.free
  have hvalue := hi.postValue
  have hhead := hi.head
  rw [headAt, if_pos (.inr hserver)] at hhead
  rw [hserver] at hfree hvalue
  have hpost := hi.post_eq hserver
  exact { hi with
    head := hhead
    post := hpost
    server := trivial
    given := hi.given_eq (by rw [hserver]; nofun)
    free := hfree
    postValue := hvalue }

/-- `check_flags` posts a batch once there are free buffers enough. -/
theorem Inv.check (hi : Inv size batch s l) (hserver : s.server = .checking) :
    Inv size batch { s with server := if batch ≤ s.free then .posting none 0 else .idle } l := by
  by_cases henough : batch ≤ s.free
  · rw [if_pos henough]
    exact hi.goto hserver ⟨nofun, nofun, nofun⟩ ⟨nofun, nofun, nofun⟩ rfl rfl rfl
      ⟨Nat.zero_le _, henough, nofun⟩
  · rw [if_neg henough]
    exact hi.goto hserver ⟨nofun, nofun, nofun⟩ ⟨nofun, nofun, nofun⟩ rfl rfl rfl trivial

theorem Inv.lowerFree (hi : Inv size batch s l) {i : Option Nat} (hserver : s.server = .posted i) :
    Inv size batch { s with free := s.free - batch, server := .taken i } l := by
  have hok := hi.server
  have hfree := hi.free
  have hvalue := hi.postValue
  simp only [ServerOk, hserver] at hok
  have hhead := hi.head_eq (by rw [hserver]; exact ⟨nofun, nofun⟩)
  rw [hserver] at hfree hvalue
  have hpost := hi.post_eq hserver
  refine { hi with
    head := hhead
    post := hpost
    server := hok.2
    given := hi.given_eq (by rw [hserver]; nofun)
    free := ?_
    postValue := hvalue }
  simp only [Server.freeLag, reduceCtorEq, if_false] at hfree ⊢
  omega

theorem Inv.raiseValue (hi : Inv size batch s l) {i : Option Nat} (hserver : s.server = .taken i) :
    Inv size batch { s with postValue := s.postValue + batch, server := .counted i } l := by
  have hok := hi.server
  have hfree := hi.free
  have hvalue := hi.postValue
  simp only [ServerOk, hserver] at hok
  have hhead := hi.head_eq (by rw [hserver]; exact ⟨nofun, nofun⟩)
  rw [hserver] at hfree hvalue
  have hpost := hi.post_eq hserver
  refine { hi with
    head := hhead
    post := hpost
    server := hok
    given := hi.given_eq (by rw [hserver]; nofun)
    free := hfree
    postValue := ?_ }
  simp only [Server.postLag] at hvalue ⊢
  omega

/-- The loop of `init_post_recv_wr` goes on behind the batch. -/
theorem Inv.initOn (hdvd : batch ∣ size) (hi : Inv size batch s l) {k : Nat}
    (hserver : s.server = .counted (some k)) :
    Inv size batch { s with post := (s.post + batch) % size, server := .init (k + batch) } l := by
  have hok := hi.server
  simp only [ServerOk, hserver] at hok
  obtain ⟨hk, hposted⟩ := hok k rfl
  refine hi.passBatch hdvd hserver ⟨nofun, nofun, nofun⟩ rfl rfl rfl ⟨hposted, ?_, ?_⟩
  · rw [hk]
    exact add_batch_le hdvd hi.aligned.1 hi.aligned.2
  · rw [hk]
    exact Nat.dvd_add hi.aligned.1 (Nat.dvd_refl batch)

theorem Inv.server_step (hdvd : batch ∣ size) (hi : Inv size batch s l)
    (hstep : serverThread size batch s = .ok s') :
    Inv size batch s' (observe size batch l s .server) := by
  have hok := hi.server
  unfold serverThread at hstep
  cases hserver : s.server with
  | idle =>
      simp only [hserver, Except.ok.injEq] at hstep
      subst hstep
      simp only [observe, hserver]
      by_cases hpos : 0 < s.busy
      · rw [if_pos hpos, if_pos hpos]
        exact hi.give hserver hpos
      · rw [if_neg hpos, if_neg hpos]
        exact hi.goto hserver ⟨nofun, nofun, nofun⟩ ⟨nofun, nofun, nofun⟩ rfl rfl rfl trivial
  | handling =>
      simp only [ServerOk, hserver] at hok
      have hbusy := hi.busy
      have hpos : ¬ s.busy = 0 := by omega
      simp only [hserver, if_neg hpos, Except.ok.injEq] at hstep
      subst hstep
      simp only [observe, hserver]
      exact hi.handle hserver hok
  | posting i j =>
      simp only [ServerOk, hserver] at hok
      have hlimit : limit size batch (base s i) = batch := by
        rw [base_eq hok.2.2, limit_eq hdvd hi]
      simp only [observe, hserver, hlimit]
      by_cases hj : j < batch
      · simp only [hserver, hlimit, if_pos hj, Except.ok.injEq] at hstep
        subst hstep
        rw [if_pos hj]
        exact hi.posting hdvd hserver hj
      · simp only [hserver, hlimit, if_neg hj, Except.ok.injEq] at hstep
        subst hstep
        rw [if_neg hj]
        have hfull : j = batch := by omega
        subst hfull
        exact hi.goto hserver ⟨nofun, nofun, nofun⟩ ⟨nofun, nofun, nofun⟩ rfl rfl rfl hok.2
  | counted i =>
      simp only [hserver, Except.ok.injEq] at hstep
      subst hstep
      simp only [observe, hserver]
      cases i with
      | some k => exact hi.initOn hdvd hserver
      | none => exact hi.passBatch hdvd hserver ⟨nofun, nofun, nofun⟩ rfl rfl rfl trivial
  | init i =>
      simp only [hserver, Except.ok.injEq] at hstep
      subst hstep
      simp only [observe, hserver]
      exact hi.nextBatch hdvd hserver
  | lowered =>
      simp only [hserver, Except.ok.injEq] at hstep
      subst hstep
      simp only [observe, hserver]
      exact hi.raiseFree hserver
  | freed =>
      simp only [hserver, Except.ok.injEq] at hstep
      subst hstep
      simp only [observe, hserver]
      exact hi.passHead hserver
  | checking =>
      simp only [hserver, Except.ok.injEq] at hstep
      subst hstep
      simp only [observe, hserver]
      exact hi.check hserver
  | posted i =>
      simp only [hserver, Except.ok.injEq] at hstep
      subst hstep
      simp only [observe, hserver]
      exact hi.lowerFree hserver
  | taken i =>
      simp only [hserver, Except.ok.injEq] at hstep
      subst hstep
      simp only [observe, hserver]
      exact hi.raiseValue hserver

theorem Inv.start (hsize : 0 < size) :
    Inv size batch (initMsgQueue size : Ring α) ⟨[], [], 0, 0, 0, 0⟩ where
  handled_le := Nat.le_refl 0
  received_le := Nat.le_refl 0
  arrived_le := Nat.le_refl 0
  posted_le := Nat.zero_le _
  tail := (Nat.zero_mod size).symm
  head := (Nat.zero_mod size).symm
  post := rfl
  aligned := ⟨Nat.dvd_zero batch, hsize⟩
  server := ⟨rfl, Nat.zero_le _, Nat.dvd_zero batch⟩
  completed := rfl
  waiting := rfl
  slots k _ hlt := absurd hlt (Nat.not_lt_zero k)
  given := rfl
  busy := rfl
  free := by
    show size + 0 + 0 = 0 + size + 0
    omega
  postValue := rfl

theorem Inv.step (hdvd : batch ∣ size) (hi : Inv size batch s l)
    {e : Event α} (hstep : RdmaRing.step size batch s e = .ok s') :
    Inv size batch s' (observe size batch l s e) := by
  cases e with
  | arrive x => exact hi.arrive hstep
  | listen => exact hi.listen hstep
  | server => exact hi.server_step hdvd hstep

/-! ### What the invariant gives -/

theorem Inv.unhandled_length (hi : Inv size batch s l) :
    l.unhandled.length = l.received - l.handled := by
  rw [Log.unhandled, List.length_drop, List.length_take, Nat.min_eq_left hi.received_le]

theorem Inv.buffers_eq (hi : Inv size batch s l) :
    s.buffers = slotsFrom size (l.received % size) (l.posted - l.received) := by
  have hreceived := hi.received_le
  have harrived := hi.arrived_le
  have hjoin : List.range' l.received (l.arrived.length - l.received) ++
      List.range' l.arrived.length (l.posted - l.arrived.length) =
      List.range' l.received (l.arrived.length - l.received + (l.posted - l.arrived.length)) := by
    have happend := @List.range'_append_1 l.received (l.arrived.length - l.received)
      (l.posted - l.arrived.length)
    rwa [Nat.add_sub_cancel' hreceived] at happend
  have hsum : l.arrived.length - l.received + (l.posted - l.arrived.length) =
      l.posted - l.received := by omega
  rw [Ring.buffers, hi.completed, hi.waiting, ← List.map_append, hjoin, hsum,
    List.range'_eq_map_range, List.map_map, slotsFrom]
  apply List.map_congr_left
  intro k _
  exact (Nat.mod_add_mod _ _ _).symm

theorem length_slotsFrom (size i n : Nat) : (slotsFrom size i n).length = n := by
  rw [slotsFrom, List.length_map, List.length_range]

theorem Inv.slots_eq (hi : Inv size batch s l) :
    (slotsFrom size (headAt size s) l.unhandled.length).map s.slot = l.unhandled.map some := by
  have hreceived := hi.received_le
  apply List.ext_getElem?
  intro k
  rw [hi.unhandled_length, hi.head, slotsFrom, List.map_map, List.getElem?_map, List.getElem?_map,
    Log.unhandled, List.getElem?_drop]
  by_cases hk : k < l.received - l.handled
  · have hlt : l.handled + k < l.arrived.length := by omega
    rw [List.getElem?_range hk, List.getElem?_take_of_lt (by omega), Option.map_some,
      Function.comp_apply, Nat.mod_add_mod, hi.slots _ (Nat.le_add_right _ _) hlt,
      List.getElem?_eq_getElem hlt]
    rfl
  · have hnone : (List.range (l.received - l.handled))[k]? = none := by
      rw [List.getElem?_eq_none_iff, List.length_range]
      omega
    have hnone' : (l.arrived.take l.received)[l.handled + k]? = none := by
      rw [List.getElem?_eq_none_iff, List.length_take]
      omega
    rw [hnone, hnone']
    rfl

theorem Inv.apart (hi : Inv size batch s l) :
    ∀ i ∈ s.posted, ∀ k, l.handled ≤ k → k < l.arrived.length → i ≠ k % size := by
  intro i hmem k hk hlt
  have hwindow := hi.posted_le
  rw [hi.waiting, List.mem_map] at hmem
  obtain ⟨j, hj, rfl⟩ := hmem
  rw [List.mem_range'_1] at hj
  exact (mod_ne_of_window (by omega) (by omega)).symm

/-- The counters of a settled ring. -/
theorem Inv.counters (hi : Inv size batch s l) (hs : Settled s) :
    s.busy + l.handled = l.received ∧ s.postValue + l.received = l.posted + l.missed ∧
      s.free + l.posted = l.handled + size := by
  obtain ⟨hlisten, -, hlowered, -, hbatch⟩ := hs
  have hfree := hi.free
  have hvalue := hi.postValue
  have hlag : s.listen.lag = 0 := by
    cases hpc : s.listen with
    | lowered i => exact absurd hpc (hlisten i)
    | _ => rfl
  have hlags : s.server.freeLag batch = 0 ∧ s.server.postLag batch = 0 := by
    cases hpc : s.server with
    | posting i j =>
        rw [hpc] at hbatch
        exact ⟨hbatch, hbatch⟩
    | posted i =>
        rw [hpc] at hbatch
        cases hbatch
    | taken i =>
        rw [hpc] at hbatch
        cases hbatch
    | _ => exact ⟨rfl, rfl⟩
  rw [hlags.1, if_neg hlowered] at hfree
  rw [hlags.2, hlag] at hvalue
  exact ⟨hi.busy, hvalue, hfree⟩

theorem Inv.ringOk_iff (hi : Inv size batch s l) :
    RingOk size batch s l ↔ (Settled s → l.missed = 0) := by
  have hunhandled := hi.unhandled_length
  have hbuffers : s.buffers.length = l.posted - l.received := by
    rw [hi.buffers_eq, length_slotsFrom]
  have hhandled := hi.handled_le
  have hreceived := hi.received_le
  have harrived := hi.arrived_le
  have hwindow := hi.posted_le
  constructor
  · intro hok hs
    obtain ⟨-, hvalue, -⟩ := hi.counters hs
    have hcount := (hok.counters hs).2.1
    omega
  · intro hmissed
    refine ⟨by omega, ?_, hi.slots_eq, ?_, ?_, fun hs => ?_, hi.apart, ?_⟩
    · rw [hi.tail, hi.head, Nat.mod_add_mod, hunhandled, Nat.add_sub_cancel' hhandled]
    · rw [hi.post, hi.tail, Nat.mod_add_mod, hbuffers,
        Nat.add_sub_cancel' (hreceived.trans harrived)]
    · rw [hbuffers, hi.tail]
      exact hi.buffers_eq
    · have hzero := hmissed hs
      obtain ⟨hbusy, hvalue, hfree⟩ := hi.counters hs
      omega
    · rw [hi.given]
      exact (List.take_prefix _ _).map some

end Steps

/-- In every reachable state the ring keeps its promises exactly if, unless an update is half
done, `post_recv` has never found `post_value` at 0; only the counters can go wrong. -/
theorem recv_ring_ok_iff {size batch : Nat} (hsize : 0 < size) (hdvd : batch ∣ size)
    {x : Ring α × Log α} (hx : ((ringSystem size batch).withHist (history size batch)).Reach x) :
    RingOk size batch x.1 x.2 ↔ (Settled x.1 → x.2.missed = 0) := by
  have hinv : Inv size batch x.1 x.2 := by
    apply hx.invariant (I := fun x => Inv size batch x.1 x.2)
    · exact Inv.start hsize
    · intro x e x' _ hi hnext
      rw [hnext.2]
      exact hi.step hdvd hnext.1
  exact hinv.ringOk_iff

/-! ## A completion before its buffer is counted -/

/-- One step of a run. -/
def turn (size batch : Nat) (x : Ring α × Log α) (e : Event α) : Result (Ring α × Log α) := do
  let s ← step size batch x.1 e
  return (s, observe size batch x.2 x.1 e)

theorem turn_next (size batch : Nat) (x : Ring α × Log α) (e : Event α) (x' : Ring α × Log α)
    (h : turn size batch x e = .ok x') :
    ((ringSystem size batch).withHist (history size batch)).next x e x' := by
  rw [turn, bind_eq_ok] at h
  obtain ⟨s, hstep, hx⟩ := h
  obtain rfl := Except.ok.inj hx
  exact ⟨hstep, rfl⟩

/-- The first buffer is filled and passed on before `post_value` is raised. -/
def early : List (Event Nat) :=
  [.server, .server, .arrive 7, .listen, .listen, .listen, .listen, .server, .server, .server,
    .server]

theorem early_counted : ¬ ∀ x : Ring Nat × Log Nat,
    ((ringSystem 32 1).withHist (history 32 1)).Reach x → RingOk 32 1 x.1 x.2 := by
  intro hall
  obtain ⟨x, hx, hend⟩ := System.exists_execBy (turn_next 32 1) early
    (fun x => decide (x.1.listen = .idle ∧ x.1.server = .init 1 ∧ x.1.postValue = 1 ∧
      x.1.cq = [] ∧ x.1.posted = [])) (by decide)
  obtain ⟨hlisten, hserver, hvalue, hcq, hposted⟩ := of_decide_eq_true hend
  have hsettled : Settled x.1 := by
    rw [Settled, hlisten, hserver]
    exact ⟨nofun, nofun, nofun, nofun, rfl⟩
  have hcount := ((hall x hx).counters hsettled).2.1
  rw [Ring.buffers, hlisten, hcq, hposted, hvalue] at hcount
  cases hcount

/-- Two batches are posted before the first message comes in. -/
def late : List (Event Nat) :=
  List.replicate 14 .server ++ [.arrive 7, .listen, .listen, .listen, .listen]

theorem recv_ring_ok_iff_late : ∃ x : Ring Nat × Log Nat,
    (x.2.missed = 0 ∧ x.1.busy = 1 ∧ x.1.postValue = 3) ∧ RingOk 4 2 x.1 x.2 := by
  obtain ⟨x, hx, hend⟩ := System.exists_execBy (turn_next 4 2) late
    (fun x => decide (x.2.missed = 0 ∧ x.1.busy = 1 ∧ x.1.postValue = 3)) (by decide)
  have hcounts := of_decide_eq_true hend
  exact ⟨x, hcounts, (recv_ring_ok_iff (by decide) (by decide) hx).mpr fun _ => hcounts.1⟩

end Jiajia.RdmaRing
