import Jiajia.User
import Jiajia.Lib.Transition
import Jiajia.Lib.Fifo

/-!
# The system

All hosts and the messages between them.  A step lets one main thread act, or
lets one server thread handle the oldest message of a channel.
-/

namespace Jiajia

open Transition Fifo

structure State where
  host : Nat → Host
  net : Net Msg

inductive Event
  /-- The main thread of host `i` acts. -/
  | main (i : Nat) (a : Act)
  /-- The server thread of host `dst` handles the next message from `src`;
  `rnd` are the choices of `replacei`. -/
  | deliver (src dst : Nat) (rnd : List Nat)
deriving DecidableEq, Repr

namespace State

/-- Host `i` becomes `h` and sends `out`. -/
def put (s : State) (i : Nat) (h : Host) (out : Out) : State :=
  ⟨upd s.host i h, send s.net i out⟩

@[simp] theorem put_host_same (s : State) (i : Nat) (h : Host) (out : Out) :
    (s.put i h out).host i = h := by
  simp [put]

theorem put_host_of_ne (s : State) {i j : Nat} (h : Host) (out : Out) (hne : j ≠ i) :
    (s.put i h out).host j = s.host j := by
  simp [put, hne]

@[simp] theorem put_net (s : State) (i : Nat) (h : Host) (out : Out) :
    (s.put i h out).net = send s.net i out := rfl

end State

variable (cfg : Config)

def initState : State := ⟨initHost cfg, fun _ _ => []⟩

def step (s : State) : Event → Result State
  | .main i a => do
      await (i < cfg.hostc)
      let (h, out) ← (s.host i).act cfg i a
      return s.put i h out
  | .deliver src dst rnd =>
      match s.net src dst with
      | [] => .error .blocked
      | msg :: _ => do
          let (h, out) ← (s.host dst).msgHandle cfg dst src rnd msg
          return { s with net := drop s.net src dst }.put dst h out

/-- The message a step takes off the wire. -/
def handled (s : State) : Event → Option Msg
  | .main _ _ => none
  | .deliver src dst _ => (s.net src dst).head?

/-- The messages of a handler or an action. -/
def outOf : Result (Host × Out) → Out
  | .ok (_, out) => out
  | .error _ => []

/-- The messages a step puts on the wire. -/
def sent (s : State) : Event → Out
  | .main i a => outOf ((s.host i).act cfg i a)
  | .deliver src dst rnd =>
      match s.net src dst with
      | [] => []
      | msg :: _ => outOf ((s.host dst).msgHandle cfg dst src rnd msg)

/-- The runs of the program in which every step is defined and trips no assert. -/
def system : System State Event where
  start := initState cfg
  next s e s' := step cfg s e = .ok s'

/-- Execute a list of events. -/
def exec (s : State) : List Event → Result State
  | [] => .ok s
  | e :: es => do
      let s' ← step cfg s e
      exec s' es

/-- Execute a list of events and collect a history. -/
def execHist {η : Type} (o : System.Observer State Event η) (x : State × η) :
    List Event → Result (State × η)
  | [] => .ok x
  | e :: es => do
      let s' ← step cfg x.1 e
      execHist o (s', o.obs x.2 x.1 e s') es

variable {cfg}

theorem execHist_reach {η : Type} {o : System.Observer State Event η} {x x' : State × η}
    {es : List Event} (h : execHist cfg o x es = .ok x')
    (hx : ((system cfg).withHist o).Reach x) : ((system cfg).withHist o).Reach x' := by
  induction es generalizing x with
  | nil =>
      rw [execHist, Except.ok.injEq] at h
      exact h ▸ hx
  | cons e es ih =>
      simp only [execHist, bind_eq_ok] at h
      obtain ⟨s', hstep, hrest⟩ := h
      exact ih hrest (hx.step ⟨hstep, rfl⟩)

/-- A run of a fixed list of events ends, and what holds at its end was evaluated. -/
theorem exists_execHist {η : Type} (cfg : Config) (o : System.Observer State Event η)
    (es : List Event) (P : State × η → Bool)
    (h : (match execHist cfg o (initState cfg, o.start) es with
      | .ok x => P x
      | .error _ => false) = true) :
    ∃ x, ((system cfg).withHist o).Reach x ∧ P x = true := by
  split at h
  · rename_i x hx
    exact ⟨x, execHist_reach hx .start, h⟩
  · cases h

/-- The two kinds of step. -/
theorem step_cases {s s' : State} {e : Event} (h : step cfg s e = .ok s') :
    (∃ i a hst out, e = .main i a ∧ i < cfg.hostc ∧
      (s.host i).act cfg i a = .ok (hst, out) ∧ sent cfg s e = out ∧ s' = s.put i hst out) ∨
    (∃ src dst rnd msg rest hst out, e = .deliver src dst rnd ∧ s.net src dst = msg :: rest ∧
      (s.host dst).msgHandle cfg dst src rnd msg = .ok (hst, out) ∧ sent cfg s e = out ∧
      s' = { s with net := drop s.net src dst }.put dst hst out) := by
  cases e with
  | main i a =>
      simp only [step, bind_eq_ok, await_eq_ok, Prod.exists, pure, Except.pure,
        Except.ok.injEq] at h
      obtain ⟨-, hi, hst, out, hact, rfl⟩ := h
      exact Or.inl ⟨i, a, hst, out, rfl, hi, hact, by rw [sent, hact]; rfl, rfl⟩
  | deliver src dst rnd =>
      simp only [step] at h
      split at h
      · cases h
      · rename_i msg rest hnet
        simp only [bind_eq_ok, Prod.exists, pure, Except.pure, Except.ok.injEq] at h
        obtain ⟨hst, out, hmsg, rfl⟩ := h
        have hsent : sent cfg s (.deliver src dst rnd) = out := by
          simp only [sent, hnet, hmsg, outOf]
        exact Or.inr ⟨src, dst, rnd, msg, rest, hst, out, rfl, hnet, hmsg, hsent, rfl⟩

end Jiajia
