import Jiajia.TreeCast
import Jiajia.MsgPass

/-!
# `jia_bcast`

Every host makes the same calls of `jia_bcast`: the root of a call broadcasts
its buffer in chunks, and all hosts, the root too, receive it with `jia_recv`.
-/

namespace Jiajia.Bcast

open Fifo Transition Bytes TreeCast MsgPass

abbrev MSGBODY : Nat := 21
abbrev MSGTAIL : Nat := 22
abbrev BCAST_TAG : BitVec 32 := 62564392

/-- A call `jia_bcast(buf, len, root)`, with what `buf` holds on the root. -/
structure Call where
  root : Nat
  buf : List Byte
deriving DecidableEq, Repr

/-- What `jia_bcast` needs of a host: `got` are the bytes received so far while
the main thread is in `nextmsg`, `done` the buffers of the calls that returned. -/
structure BcastHost where
  bufs : MsgBufs
  begun : Nat
  got : Option (List Byte)
  done : List (List Byte)

structure BcastState where
  host : Nat → BcastHost
  net : Net JiaMsg

inductive BcastEvent
  /-- Host `i` makes its next call, up to `nextmsg`. -/
  | call (i : Nat)
  /-- Host `i` tests the condition of the loop of `nextmsg` and goes on. -/
  | turn (i : Nat)
  /-- Host `dst` handles the next message from `src`. -/
  | deliver (src dst : Nat)
deriving DecidableEq, Repr

def opcode : BufOp → Nat
  | .msgbody => MSGBODY
  | _ => MSGTAIL

/-- The message `jia_bcast` passes to `bsendmsg` for a chunk. -/
def bcastMsg (pid : Nat) (c : Chunk) : JiaMsg :=
  { op := opcode c.op, frompid := pid, topid := pid, temp := 0, scope := BCAST_TAG, data := c.data }

/-- The chunk `msgrecvserver` sees in a message. -/
def toChunk (msg : JiaMsg) : Chunk where
  op := if msg.op = MSGTAIL then .msgtail else .msgbody
  frompid := BitVec.ofNat 32 msg.frompid
  scope := msg.scope
  data := msg.data

variable (cfg : Config) (calls : List Call)

/-- The part of `jia_bcast` that only the root executes. -/
def bcastOut (pid : Nat) (c : Call) : Outbox JiaMsg :=
  if pid = c.root then
    (jiaSend (BitVec.ofNat 32 pid) BCAST_TAG c.buf).flatMap fun chunk =>
      bsendmsg cfg pid (bcastMsg pid chunk)
  else []

namespace BcastHost

/-- The loop of `nextmsg`, up to its next test or its end. -/
def turn (h : BcastHost) : Result BcastHost :=
  match h.got, (calls[h.begun - 1]? : Option Call) with
  | some got, some c =>
      if h.bufs.endofmsg then .ok { h with got := none, done := h.done ++ [got] }
      else do
        let (bufs, got) ← nextmsgTurn c.buf.length anyOne BCAST_TAG h.bufs got
        return { h with bufs := bufs, got := some got }
  | _, _ => .error .blocked

end BcastHost

def bcastStep (s : BcastState) : BcastEvent → Result BcastState
  | .call i => do
      await (i < cfg.hostc ∧ (s.host i).got = none)
      match calls[(s.host i).begun]? with
      | none => .error .blocked
      | some c =>
          let h := s.host i
          .ok ⟨upd s.host i
            { h with
              bufs := { h.bufs with endofmsg := false }, begun := h.begun + 1, got := some [] },
            send s.net i (bcastOut cfg i c)⟩
  | .turn i => do
      await (i < cfg.hostc)
      let h ← (s.host i).turn calls
      return { s with host := upd s.host i h }
  | .deliver src dst =>
      match s.net src dst with
      | [] => .error .blocked
      | msg :: _ =>
          let net := drop s.net src dst
          if BCAST ≤ msg.op then .ok { s with net := send net dst (bcastserver cfg dst msg) }
          else do
            let bufs ← msgrecvserver (s.host dst).bufs (toChunk msg)
            return ⟨upd s.host dst { s.host dst with bufs := bufs }, net⟩

def bcastSystem : System BcastState BcastEvent where
  start := ⟨fun _ => ⟨initmsg, 0, none, []⟩, fun _ _ => []⟩
  next s e s' := bcastStep cfg calls s e = .ok s'

/-- What `jia_bcast` is for: every step of every run is defined, and the k-th
call leaves the k-th root's data in the buffer of every host. -/
def Fills : Prop :=
  ∀ s, (bcastSystem cfg calls).Reach s →
    (∀ e what, bcastStep cfg calls s e ≠ .error (.undefined what)) ∧
    ∀ i k : Nat, ∀ buf : List Byte, (s.host i).done[k]? = some buf →
      ∃ c : Call, calls[k]? = some c ∧ buf = c.buf

variable {cfg calls}

theorem idle_of_no_calls {s : BcastState} (hs : (bcastSystem cfg []).Reach s) :
    s = (bcastSystem cfg []).start := by
  refine hs.invariant (I := fun s => s = (bcastSystem cfg []).start) rfl ?_
  intro s e s' _ hidle hnext
  subst hidle
  cases e with
  | call i => simp [bcastSystem, bcastStep, bind_eq_ok] at hnext
  | turn i => simp [bcastSystem, bcastStep, BcastHost.turn, bind_eq_ok] at hnext
  | deliver src dst => simp [bcastSystem, bcastStep] at hnext

theorem fills_nil : Fills cfg [] := by
  intro s hs
  rw [idle_of_no_calls hs]
  refine ⟨?_, ?_⟩
  · intro e what h
    cases e with
    | call i =>
        unfold bcastStep at h
        by_cases hi : i < cfg.hostc
        · simp [bcastSystem, await, hi, bind, Except.bind] at h
        · simp [bcastSystem, await, hi, bind, Except.bind] at h
    | turn i =>
        unfold bcastStep at h
        by_cases hi : i < cfg.hostc
        · simp [bcastSystem, BcastHost.turn, await, hi, bind, Except.bind] at h
        · simp [await, hi, bind, Except.bind] at h
    | deliver src dst => simp [bcastSystem, bcastStep] at h
  · intro i k buf h
    cases h

variable (cfg calls) in
theorem first_turn_undefined (c : Call) :
    ∃ s, (bcastSystem cfg (c :: calls)).Reach s ∧
      bcastStep cfg (c :: calls) s (.turn 0) = .error (.undefined "msgbuf[Maxmsgbufs]") := by
  have hpos := cfg.hostc_pos
  refine ⟨⟨upd (bcastSystem cfg (c :: calls)).start.host 0 ⟨initmsg, 1, some [], []⟩,
    send (bcastSystem cfg (c :: calls)).start.net 0 (bcastOut cfg 0 c)⟩, ?_, ?_⟩
  · refine System.Reach.step (e := .call 0) .start ?_
    change bcastStep cfg (c :: calls) _ (.call 0) = _
    simp only [bcastSystem, bcastStep, hpos, await, bind, Except.bind]
    rfl
  · have hturn : BcastHost.turn (c :: calls) ⟨initmsg, 1, some [], []⟩ =
        .error (.undefined "msgbuf[Maxmsgbufs]") := rfl
    simp only [bcastStep, hpos, await, bind, Except.bind, if_true, upd_same, hturn]

/-- `jia_bcast` works exactly for programs that never call it. -/
theorem bcast_fills_iff (cfg : Config) (calls : List Call) : Fills cfg calls ↔ calls = [] := by
  constructor
  · intro hfills
    cases calls with
    | nil => rfl
    | cons c calls =>
        obtain ⟨s, hs, hturn⟩ := first_turn_undefined cfg calls c
        exact absurd hturn ((hfills s hs).1 _ _)
  · rintro rfl
    exact fills_nil

/-- Host 0 of two broadcasts one byte. -/
theorem bcast_one_byte_fails : ¬ Fills .noPages [⟨0, [5]⟩] := by
  intro hfills
  obtain ⟨s, hs, hturn⟩ := first_turn_undefined .noPages [] ⟨0, [5]⟩
  exact absurd hturn ((hfills s hs).1 _ _)

end Jiajia.Bcast
