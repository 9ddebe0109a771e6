import Jiajia.RdmaSelf

/-!
# Receive completions under RDMA

The receive completion queues of all peers share one event channel.  `post_recv`, which
`rdma_listen_thread` runs, takes an event, re-arms the queue it is for and polls one
completion from it.  An armed queue raises one event for the first completion added after
it was armed.
-/

namespace Jiajia.RdmaListen

open Transition
open RdmaSelf (QueueSize)

abbrev BatchingSize : Nat := 1

/-- The receive side of the connection to one peer. -/
structure Peer where
  /-- Receive work requests that wait for a message. -/
  posted : Nat
  /-- The completion queue; a completion tells whether its `status` is `IBV_WC_SUCCESS`. -/
  cq : List Bool
  armed : Bool
  tail : Nat
  busy : Nat
  free : Nat
  post : Nat
  /-- How many messages were received; not in the source. -/
  received : Nat
  /-- How often `busy_value` was raised; not in the source. -/
  passed : Nat
deriving DecidableEq, Repr

/-- Where `post_recv` stands. -/
inductive ListenPc
  /-- In `ibv_get_cq_event`. -/
  | getEvent
  /-- Before `ibv_req_notify_cq` for a peer. -/
  | reqNotify (i : Nat)
  /-- Before `ibv_poll_cq`. -/
  | poll (i : Nat)
  /-- After a completion was polled. -/
  | polled (i : Nat) (success : Bool)
deriving DecidableEq, Repr

structure State where
  peer : Nat → Peer
  /-- The events in `recv_comp_channel`, by peer. -/
  events : List Nat
  listen : ListenPc

inductive Event
  /-- The completion of a receive from peer `i`. -/
  | arrive (i : Nat) (success : Bool)
  | getEvent
  | reqNotify
  | poll
  /-- The polled completion is looked at and the event acknowledged. -/
  | pass
  /-- `rdma_server_thread` has handled a message of peer `i`. -/
  | handle (i : Nat)
  /-- `check_flags` posts receives again. -/
  | repost (i : Nat)
deriving DecidableEq, Repr

def State.setPeer (s : State) (i : Nat) (c : Peer) : State := { s with peer := upd s.peer i c }

def step (hostc pid : Nat) (s : State) : Event → Result State
  | .arrive i success => do
      let c := s.peer i
      await (i < hostc ∧ i ≠ pid ∧ 0 < c.posted)
      return { s.setPeer i { c with
          posted := c.posted - 1
          cq := c.cq ++ [success]
          armed := false
          received := if success then c.received + 1 else c.received }
        with events := if c.armed then s.events ++ [i] else s.events }
  | .getEvent =>
      match s.events with
      | [] => .error .blocked
      | i :: rest => do
          await (s.listen = .getEvent)
          return { s with
            events := rest
            listen := .reqNotify i }
  | .reqNotify =>
      match s.listen with
      | .reqNotify i => return { s.setPeer i { s.peer i with armed := true } with listen := .poll i }
      | _ => .error .blocked
  | .poll =>
      match s.listen with
      | .poll i =>
          match (s.peer i).cq with
          | [] => return { s with listen := .getEvent }
          | success :: rest =>
              return { s.setPeer i { s.peer i with cq := rest } with listen := .polled i success }
      | _ => .error .blocked
  | .pass =>
      match s.listen with
      | .polled i true => do
          let c := s.peer i
          return { s.setPeer i { c with
              post := if c.post = 0 then c.post else c.post - 1
              busy := c.busy + 1
              tail := (c.tail + 1) % QueueSize
              passed := c.passed + 1 }
            with listen := .getEvent }
      -- a failed receive is only logged
      | .polled _ false => return { s with listen := .getEvent }
      | _ => .error .blocked
  | .handle i => do
      let c := s.peer i
      await (0 < c.busy)
      return s.setPeer i { c with
        busy := c.busy - 1
        free := c.free + 1 }
  | .repost i => do
      let c := s.peer i
      await (BatchingSize ≤ c.free)
      return s.setPeer i { c with
        posted := c.posted + BatchingSize
        free := c.free - BatchingSize
        post := c.post + BatchingSize }

/-- A connection after `init_post_recv_wr`, its completion queue armed. -/
def initPeer : Peer where
  posted := QueueSize
  cq := []
  armed := true
  tail := 0
  busy := 0
  free := 0
  post := QueueSize
  received := 0
  passed := 0

/-- The listen and the server thread of host `pid`, and what arrives from its peers. -/
def rdma (hostc pid : Nat) : System State Event where
  start := ⟨fun _ => initPeer, [], .getEvent⟩
  next s e s' := step hostc pid s e = .ok s'

/-- When the listen thread waits for an event and there is none, everything received was
passed to the server. -/
def NoneStranded (s : State) : Prop :=
  s.listen = .getEvent → s.events = [] → ∀ i, (s.peer i).cq = [] ∧
    (s.peer i).passed = (s.peer i).received ∧
    (s.peer i).tail = (s.peer i).received % QueueSize

/-- Completions are added to armed queues only: the listen thread has re-armed a queue
before its next completion comes. -/
def Rearmed (s : State) (e : Event) : Prop := ∀ i success, e = .arrive i success → (s.peer i).armed = true

/-! ## The invariant -/

/-- The completions of peer `i` that an event in hand stands for. -/
def ListenPc.awaited (i : Nat) : ListenPc → Nat
  | getEvent | polled _ _ => 0
  | reqNotify j | poll j => if j = i then 1 else 0

/-- The messages of peer `i` that were polled and not passed on yet. -/
def ListenPc.inHand (i : Nat) : ListenPc → Nat
  | polled j true => if j = i then 1 else 0
  | getEvent | reqNotify _ | poll _ | polled _ false => 0

/-- One event for every completion. -/
structure Inv (s : State) : Prop where
  events : ∀ i, (s.peer i).cq.length = s.events.count i + s.listen.awaited i
  passed : ∀ i, (s.peer i).received =
    (s.peer i).passed + (s.peer i).cq.count true + s.listen.inHand i
  tail : ∀ i, (s.peer i).tail = (s.peer i).passed % QueueSize

variable {hostc pid : Nat} {s s' : State} {e : Event}

theorem Inv.noneStranded (h : Inv s) : NoneStranded s := by
  intro hlisten hevents i
  have hlen := h.events i
  rw [hlisten, hevents, ListenPc.awaited, List.count_nil] at hlen
  have hnil : (s.peer i).cq = [] := List.eq_nil_of_length_eq_zero hlen
  have hpassed := h.passed i
  rw [hlisten, hnil, ListenPc.inHand, List.count_nil] at hpassed
  refine ⟨hnil, hpassed.symm, ?_⟩
  rw [h.tail i, hpassed]
  rfl

theorem setPeer_same (i : Nat) (c : Peer) : (s.setPeer i c).peer i = c := upd_same _ _ _

theorem setPeer_of_ne {i j : Nat} (c : Peer) (hj : j ≠ i) : (s.setPeer i c).peer j = s.peer j :=
  upd_of_ne _ _ hj

/-- A step of one peer that moves no completion and passes no message on. -/
theorem Inv.setPeer_quiet (h : Inv s) {i : Nat} {c : Peer} (hcq : c.cq = (s.peer i).cq)
    (hreceived : c.received = (s.peer i).received) (hpassed : c.passed = (s.peer i).passed)
    (htail : c.tail = (s.peer i).tail) : Inv (s.setPeer i c) := by
  refine ⟨?_, ?_, ?_⟩ <;> intro j <;> by_cases hj : j = i
  · subst hj
    rw [setPeer_same, hcq]
    exact h.events j
  · rw [setPeer_of_ne c hj]
    exact h.events j
  · subst hj
    rw [setPeer_same, hcq, hreceived, hpassed]
    exact h.passed j
  · rw [setPeer_of_ne c hj]
    exact h.passed j
  · subst hj
    rw [setPeer_same, htail, hpassed]
    exact h.tail j
  · rw [setPeer_of_ne c hj]
    exact h.tail j

theorem inv_arrive (h : Inv s) {i : Nat} {success : Bool} (harmed : (s.peer i).armed = true)
    (hstep : step hostc pid s (.arrive i success) = .ok s') : Inv s' := by
  simp only [step, harmed, if_true, bind_eq_ok, await_eq_ok, pure, Except.pure, Except.ok.injEq]
    at hstep
  obtain ⟨-, -, rfl⟩ := hstep
  refine ⟨?_, ?_, ?_⟩ <;> intro j <;> by_cases hj : j = i
  · subst hj
    have hlen := h.events j
    show (upd s.peer j _ j).cq.length = (s.events ++ [j]).count j + s.listen.awaited j
    rw [upd_same, List.length_append, List.length_singleton, List.count_append,
      List.count_singleton_self]
    omega
  · show (upd s.peer i _ j).cq.length = (s.events ++ [i]).count j + s.listen.awaited j
    rw [upd_of_ne _ _ hj, List.count_append, List.count_singleton, if_neg (by simpa using Ne.symm hj)]
    exact h.events j
  · subst hj
    have hpassed := h.passed j
    show (upd s.peer j _ j).received = (upd s.peer j _ j).passed +
      (upd s.peer j _ j).cq.count true + s.listen.inHand j
    rw [upd_same, List.count_append]
    cases success with
    | true =>
        simp only [if_true, List.count_singleton_self]
        omega
    | false =>
        simp only [Bool.false_eq_true, if_false]
        exact hpassed
  · show (upd s.peer i _ j).received = (upd s.peer i _ j).passed +
      (upd s.peer i _ j).cq.count true + s.listen.inHand j
    rw [upd_of_ne _ _ hj]
    exact h.passed j
  · subst hj
    show (upd s.peer j _ j).tail = (upd s.peer j _ j).passed % QueueSize
    rw [upd_same]
    exact h.tail j
  · show (upd s.peer i _ j).tail = (upd s.peer i _ j).passed % QueueSize
    rw [upd_of_ne _ _ hj]
    exact h.tail j

theorem inv_poll (h : Inv s) (hstep : step hostc pid s .poll = .ok s') : Inv s' := by
  cases hlisten : s.listen with
  | getEvent | reqNotify _ | polled _ _ => simp [step, hlisten] at hstep
  | poll i =>
      have hlen := h.events i
      rw [hlisten, ListenPc.awaited, if_pos rfl] at hlen
      cases hcq : (s.peer i).cq with
      | nil =>
          rw [hcq, List.length_nil] at hlen
          omega
      | cons success rest =>
          rw [hcq, List.length_cons] at hlen
          simp only [step, hlisten, hcq, pure, Except.pure, Except.ok.injEq] at hstep
          subst hstep
          refine ⟨?_, ?_, ?_⟩ <;> intro j <;> by_cases hj : j = i
          · subst hj
            show (upd s.peer j _ j).cq.length = s.events.count j + 0
            rw [upd_same]
            show rest.length = _
            omega
          · have hother := h.events j
            rw [hlisten, ListenPc.awaited, if_neg (Ne.symm hj)] at hother
            show (upd s.peer i _ j).cq.length = s.events.count j + 0
            rw [upd_of_ne _ _ hj]
            exact hother
          · subst hj
            have hpassed := h.passed j
            rw [hlisten, hcq, ListenPc.inHand] at hpassed
            show (upd s.peer j _ j).received = (upd s.peer j _ j).passed +
              (upd s.peer j _ j).cq.count true + (ListenPc.polled j success).inHand j
            rw [upd_same]
            show (s.peer j).received = (s.peer j).passed + rest.count true + _
            cases success with
            | true =>
                rw [List.count_cons_self] at hpassed
                rw [ListenPc.inHand, if_pos rfl]
                omega
            | false =>
                rw [List.count_cons_of_ne (by decide)] at hpassed
                exact hpassed
          · have hpassed := h.passed j
            rw [hlisten, ListenPc.inHand] at hpassed
            show (upd s.peer i _ j).received = (upd s.peer i _ j).passed +
              (upd s.peer i _ j).cq.count true + (ListenPc.polled i success).inHand j
            rw [upd_of_ne _ _ hj]
            cases success with
            | true =>
                rw [ListenPc.inHand, if_neg (Ne.symm hj)]
                exact hpassed
            | false => exact hpassed
          · subst hj
            show (upd s.peer j _ j).tail = (upd s.peer j _ j).passed % QueueSize
            rw [upd_same]
            exact h.tail j
          · show (upd s.peer i _ j).tail = (upd s.peer i _ j).passed % QueueSize
            rw [upd_of_ne _ _ hj]
            exact h.tail j

theorem inv_pass (h : Inv s) (hstep : step hostc pid s .pass = .ok s') : Inv s' := by
  cases hlisten : s.listen with
  | getEvent | reqNotify _ | poll _ => simp [step, hlisten] at hstep
  | polled i success =>
      have hevents : ∀ j, (s.peer j).cq.length = s.events.count j + 0 := by
        intro j
        have hlen := h.events j
        rwa [hlisten, ListenPc.awaited] at hlen
      cases success with
      | false =>
          simp only [step, hlisten, pure, Except.pure, Except.ok.injEq] at hstep
          subst hstep
          refine ⟨hevents, ?_, h.tail⟩
          intro j
          have hpassed := h.passed j
          rwa [hlisten, ListenPc.inHand] at hpassed
      | true =>
          simp only [step, hlisten, pure, Except.pure, Except.ok.injEq] at hstep
          subst hstep
          refine ⟨?_, ?_, ?_⟩ <;> intro j <;> by_cases hj : j = i
          · subst hj
            show (upd s.peer j _ j).cq.length = s.events.count j + 0
            rw [upd_same]
            exact hevents j
          · show (upd s.peer i _ j).cq.length = s.events.count j + 0
            rw [upd_of_ne _ _ hj]
            exact hevents j
          · subst hj
            have hpassed := h.passed j
            rw [hlisten, ListenPc.inHand, if_pos rfl] at hpassed
            show (upd s.peer j _ j).received = (upd s.peer j _ j).passed +
              (upd s.peer j _ j).cq.count true + 0
            rw [upd_same]
            show (s.peer j).received = (s.peer j).passed + 1 + (s.peer j).cq.count true + 0
            omega
          · have hpassed := h.passed j
            rw [hlisten, ListenPc.inHand, if_neg (Ne.symm hj)] at hpassed
            show (upd s.peer i _ j).received = (upd s.peer i _ j).passed +
              (upd s.peer i _ j).cq.count true + 0
            rw [upd_of_ne _ _ hj]
            exact hpassed
          · subst hj
            show (upd s.peer j _ j).tail = (upd s.peer j _ j).passed % QueueSize
            rw [upd_same]
            show ((s.peer j).tail + 1) % QueueSize = ((s.peer j).passed + 1) % QueueSize
            rw [h.tail j, Nat.mod_add_mod]
          · show (upd s.peer i _ j).tail = (upd s.peer i _ j).passed % QueueSize
            rw [upd_of_ne _ _ hj]
            exact h.tail j

theorem inv_step (h : Inv s) (hrearmed : Rearmed s e) (hstep : step hostc pid s e = .ok s') :
    Inv s' := by
  cases e with
  | arrive i success => exact inv_arrive h (hrearmed i success rfl) hstep
  | getEvent =>
      cases hevents : s.events with
      | nil => simp [step, hevents] at hstep
      | cons i rest =>
          simp only [step, hevents, bind_eq_ok, await_eq_ok, pure, Except.pure, Except.ok.injEq]
            at hstep
          obtain ⟨-, hlisten, rfl⟩ := hstep
          refine ⟨?_, ?_, h.tail⟩
          · intro j
            have hlen := h.events j
            rw [hlisten, hevents, ListenPc.awaited] at hlen
            show (s.peer j).cq.length = rest.count j + if i = j then 1 else 0
            by_cases hj : i = j
            · subst hj
              rw [List.count_cons_self] at hlen
              rw [if_pos rfl]
              exact hlen
            · rw [List.count_cons_of_ne hj] at hlen
              rw [if_neg hj]
              exact hlen
          · intro j
            have hpassed := h.passed j
            rwa [hlisten, ListenPc.inHand] at hpassed
  | reqNotify =>
      cases hlisten : s.listen with
      | getEvent | poll _ | polled _ _ => simp [step, hlisten] at hstep
      | reqNotify i =>
          simp only [step, hlisten, pure, Except.pure, Except.ok.injEq] at hstep
          subst hstep
          have hquiet := h.setPeer_quiet (i := i) (c := { s.peer i with armed := true }) rfl rfl rfl rfl
          refine ⟨?_, ?_, hquiet.tail⟩
          · intro j
            have hlen := hquiet.events j
            have hawaited : (s.setPeer i { s.peer i with armed := true }).listen =
                .reqNotify i := hlisten
            rwa [hawaited] at hlen
          · intro j
            have hpassed := hquiet.passed j
            have hinHand : (s.setPeer i { s.peer i with armed := true }).listen =
                .reqNotify i := hlisten
            rwa [hinHand] at hpassed
  | poll => exact inv_poll h hstep
  | pass => exact inv_pass h hstep
  | handle i =>
      simp only [step, bind_eq_ok, await_eq_ok, pure, Except.pure, Except.ok.injEq] at hstep
      obtain ⟨-, -, rfl⟩ := hstep
      exact h.setPeer_quiet rfl rfl rfl rfl
  | repost i =>
      simp only [step, bind_eq_ok, await_eq_ok, pure, Except.pure, Except.ok.injEq] at hstep
      obtain ⟨-, -, rfl⟩ := hstep
      exact h.setPeer_quiet rfl rfl rfl rfl

/-- As long as the listen thread re-arms a queue before its next completion comes, no
completion is left behind. -/
theorem none_stranded (h : ((rdma hostc pid).restrict Rearmed).Reach s) : NoneStranded s := by
  apply Inv.noneStranded
  apply System.Reach.invariant _ _ h
  · exact ⟨fun _ => rfl, fun _ => rfl, fun _ => rfl⟩
  · intro s e s' _ hinv hstep
    exact inv_step hinv hstep.1 hstep.2

/-- A run in which the condition holds: two messages, the second after the queue was
re-armed. -/
theorem none_stranded_twoMessages :
    ∃ s, ((rdma 2 0).restrict Rearmed).Reach s ∧ NoneStranded s ∧ (s.peer 1).passed = 2 := by
  have hnext : ∀ s e s', (do
      await ((match e with
        | .arrive i _ => (s.peer i).armed
        | _ => true) = true)
      step 2 0 s e) = .ok s' → ((rdma 2 0).restrict Rearmed).next s e s' := by
    intro s e s' h
    rw [bind_eq_ok] at h
    obtain ⟨_, harmed, hstep⟩ := h
    refine ⟨?_, hstep⟩
    rintro i success rfl
    exact await_eq_ok.mp harmed
  obtain ⟨s, hs, hcheck⟩ := System.exists_execBy hnext
    [.arrive 1 true, .getEvent, .reqNotify, .arrive 1 true, .poll, .pass, .getEvent, .reqNotify,
      .poll, .pass]
    (fun s => decide ((s.peer 1).passed = 2)) (by decide +kernel)
  exact ⟨s, hs, none_stranded hs, of_decide_eq_true hcheck⟩

/-- Two messages come before the listen thread has re-armed the queue: the second one stays
there. -/
theorem burst_stranded : ¬ ∀ s, (rdma 2 0).Reach s → NoneStranded s := by
  intro hall
  have hnext : ∀ s e s', step 2 0 s e = .ok s' → (rdma 2 0).next s e s' := fun _ _ _ h => h
  obtain ⟨s, hs, hcheck⟩ := System.exists_execBy hnext
    [.arrive 1 true, .arrive 1 true, .getEvent, .reqNotify, .poll, .pass]
    (fun s => decide (s.listen = .getEvent ∧ s.events = [] ∧ (s.peer 1).cq ≠ []))
    (by decide +kernel)
  obtain ⟨hlisten, hevents, hcq⟩ := of_decide_eq_true hcheck
  exact hcq (hall s hs hlisten hevents 1).1

end Jiajia.RdmaListen
