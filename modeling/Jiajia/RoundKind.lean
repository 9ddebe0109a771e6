import Jiajia.Broadcast
import Jiajia.Lib.Rounds

/-!
# Counted rounds

Barriers and waits follow one scheme: every host sends a burst of messages to a
root, the root counts the last message of each burst, and when it has counted
`hostc` of them it broadcasts an answer and starts to count anew.  A run seen
from such a scheme is a run of `Rounds`.
-/

namespace Jiajia

open Fifo Transition Host Rounds

/-- The history of a scheme: bursts sent and counted, rounds ended, answers
received, and the messages of each round. -/
structure RoundLog where
  sent : Nat → Nat
  arrived : Nat → Nat
  rounds : Nat
  granted : Nat → Nat
  offered : Nat → Nat → List Msg
  recorded : Nat → List (Nat × Msg)
  answer : Nat → List Msg
  heard : Nat → Nat → List Msg

/-- What a host broadcasts, without the wrapping of the tree. -/
def Msg.unwrap : Msg → Msg
  | .bcast _ _ msg => msg
  | msg => msg

variable {cfg : Config}

/-- What one step of a main thread means to a scheme. -/
inductive MainRound (root : Nat) (up closes : Msg → Bool) (flag flag' : Bool) (out : Out) : Prop
  | quiet (hout : ∀ y ∈ out, up y.2 = false) (hflag : flag' = flag)
  | enter (hflag : flag = false) (hflag' : flag' = true)
      (hburst : Burst closes ((outboxTo out root).filter up))

/-- What one step of a server thread means to a scheme.  `ready n rec` says that
the root has recorded `rec` in round `n`. -/
inductive ServedRound (k : Kind cfg) (up closes ends : Msg → Bool)
    (ready ready' : Nat → List (Nat × Msg) → Prop)
    (Answers : Nat → List (Nat × Msg) → List Msg → Prop) (pid src : Nat) (msg : Msg)
    (flag flag' : Bool) (count count' : Nat) (out : Out) : Prop
  | quiet (hup : up msg = false) (hmsg : k.Quiet msg) (hout : ∀ y ∈ out, k.Quiet y.2)
      (hflag : flag' = flag) (hcount : count' = count) (hready : ∀ n rec, ready n rec → ready' n rec)
  | take (hup : up msg = true) (hmsg : closes msg = false) (hout : out = [])
      (hflag : flag' = flag) (hcount : count' = count)
      (hready : ∀ n rec, ready n rec → ready' n (rec ++ [(src, msg)]))
  | arrive (hup : up msg = true) (hmsg : closes msg = true) (hlast : count + 1 ≠ cfg.hostc)
      (hout : out = []) (hflag : flag' = flag) (hcount : count' = count + 1)
      (hready : ∀ n rec, ready n rec → ready' n (rec ++ [(src, msg)]))
  | last (reply : List Msg) (hup : up msg = true) (hmsg : closes msg = true)
      (hlast : count + 1 = cfg.hostc) (hout : out = reply.flatMap (broadcast cfg k.root))
      (hdown : ∀ m ∈ reply, k.down m = true) (hreply : Burst ends reply) (hflag : flag' = flag)
      (hcount : count' = 0)
      (hans : ∀ n rec, ready n rec → Answers n (rec ++ [(src, msg)]) reply)
      (hready : ∀ n rec, ready n rec → ready' (n + 1) [])
  | hear (hdown : k.down msg = true) (hmsg : ends msg = false) (hout : out = [])
      (hflag : flag' = flag) (hcount : count' = count) (hready : ∀ n rec, ready n rec → ready' n rec)
  | leave (hdown : k.down msg = true) (hmsg : ends msg = true) (hout : out = [])
      (hflag : flag' = false) (hcount : count' = count)
      (hready : ∀ n rec, ready n rec → ready' n rec)
  | forward (l : Nat) (m : Msg) (hmsg : msg = .bcast k.root (l + 1) m) (hdown : k.down m = true)
      (hout : out = bcastserver cfg pid k.root (l + 1) m)
      (hflag : flag' = flag) (hcount : count' = count) (hready : ∀ n rec, ready n rec → ready' n rec)

/-- A scheme of counted rounds: its messages both ways, the flag of a host that
waits, the counter of the root, and that every step of a host fits it. -/
structure RoundKind (cfg : Config) extends Kind cfg where
  up : Msg → Bool
  closes : Msg → Bool
  ends : Msg → Bool
  flag : Host → Bool
  counter : Host → Nat
  Ready : Host → Nat → List (Nat × Msg) → Prop
  Answers : Nat → List (Nat × Msg) → List Msg → Prop
  up_request : ∀ {msg}, up msg = true → msg.isRequest = true
  up_routed : ∀ {a b msg}, Routed cfg a b msg → up msg = true → b = root
  flag_init : ∀ i, flag (initHost cfg i) = false
  counter_init : ∀ i, counter (initHost cfg i) = 0
  ready_init : ∀ i, Ready (initHost cfg i) 0 []
  main : ∀ {i h a h' out}, StackOk h → Main cfg i h a h' out →
    MainRound root up closes (flag h) (flag h') out ∧ counter h' = counter h ∧
      ∀ n rec, Ready h n rec → Ready h' n rec
  served : ∀ {pid src rnd msg h h' out}, Routed cfg src pid msg → Relayed cfg src pid msg →
    Served cfg pid h src rnd msg h' out →
    ServedRound toKind up closes ends (Ready h) (Ready h') Answers pid src msg (flag h) (flag h')
      (counter h) (counter h') out

namespace RoundKind

variable (k : RoundKind cfg)

/-! ## The history -/

/-- Host `i` has sent `out`. -/
def noteSent (log : RoundLog) (i : Nat) (out : Out) : RoundLog :=
  let msgs := (outboxTo out k.root).filter k.up
  if msgs.isEmpty then log
  else
    { log with
      sent := set log.sent i (log.sent i + 1)
      offered := set log.offered i (set (log.offered i) (log.sent i) msgs) }

/-- The root has taken a message of `src` and sent `out`. -/
def noteTaken (log : RoundLog) (src : Nat) (msg : Msg) (out : Out) : RoundLog :=
  let log := { log with
    recorded := set log.recorded log.rounds (log.recorded log.rounds ++ [(src, msg)]) }
  if k.closes msg then
    let log := { log with arrived := set log.arrived src (log.arrived src + 1) }
    if out.isEmpty then log
    else
      { log with
        rounds := log.rounds + 1
        answer := set log.answer log.rounds ((outboxTo out k.root).map Msg.unwrap) }
  else log

/-- Host `i` has taken a message of an answer. -/
def noteHeard (log : RoundLog) (i : Nat) (msg : Msg) : RoundLog :=
  let log := { log with
    heard := set log.heard i
      (set (log.heard i) (log.granted i) (log.heard i (log.granted i) ++ [msg])) }
  if k.ends msg then { log with granted := set log.granted i (log.granted i + 1) } else log

def noteHandled (log : RoundLog) (src dst : Nat) (msg : Msg) (out : Out) : RoundLog :=
  if k.up msg then k.noteTaken log src msg out
  else if k.down msg then k.noteHeard log dst msg
  else log

def history : System.Observer State Event RoundLog where
  start := ⟨fun _ => 0, fun _ => 0, 0, fun _ => 0, fun _ _ => [], fun _ => [], fun _ => [],
    fun _ _ => []⟩
  obs log s e _ :=
    match e with
    | .main i _ => k.noteSent log i (sent cfg s e)
    | .deliver src dst _ =>
        match handled s e with
        | none => log
        | some msg => k.noteHandled log src dst msg (sent cfg s e)

/-- The part of a state and its history that is about this scheme. -/
def view (s : State) (log : RoundLog) : Rounds.State Msg Msg where
  inside i := k.flag (s.host i)
  sent := log.sent
  up i := (s.net i k.root).filter k.up
  arrived := log.arrived
  count := k.counter (s.host k.root)
  rounds := log.rounds
  down i := if i < cfg.hostc then k.cast.pending s.net i else []
  granted := log.granted
  offered := log.offered
  recorded := log.recorded
  answer := log.answer
  heard := log.heard

/-! ## The refinement -/

section Refinement

variable {s : State} {log : RoundLog}

theorem up_eq_false_of_server {msg : Msg} (h : msg.isRequest = false) : k.up msg = false := by
  by_contra hup
  rw [k.up_request (by simpa using hup)] at h
  cases h

theorem view_main {i : Nat} {a : Act} {h' : Host} {out : Out} (hi : i < cfg.hostc)
    (hok : StackOk (s.host i)) (hm : Main cfg i (s.host i) a h' out) :
    k.view (s.put i h' out) (k.noteSent log i out) = k.view s log ∨
      Rounds.Step cfg.hostc k.closes k.ends k.Answers (k.view s log)
        (k.view (s.put i h' out) (k.noteSent log i out)) := by
  obtain ⟨hround, hcount, -⟩ := k.main hok hm
  have hcounter : k.counter ((s.put i h' out).host k.root) = k.counter (s.host k.root) := by
    by_cases hr : k.root = i
    · subst hr
      rw [State.put_host_same, hcount]
    · rw [State.put_host_of_ne _ _ _ hr]
  have hdown : ∀ j, k.cast.pending (send s.net i out) j = k.cast.pending s.net j := by
    intro j
    apply Relay.Cast.pending_send_quiet
    intro y hy
    exact k.quiet_of_request (Host.main_routed hok hm hy).1
  have hinside : ∀ j, k.flag ((s.put i h' out).host j) =
      set (fun j => k.flag (s.host j)) i (k.flag h') j := by
    intro j
    by_cases hj : j = i
    · subst hj
      rw [State.put_host_same, set_same]
    · rw [State.put_host_of_ne _ _ _ hj, set_of_ne _ _ hj]
  have hup : ∀ j, (send s.net i out j k.root).filter k.up =
      set (fun j => (s.net j k.root).filter k.up) i
        ((s.net i k.root).filter k.up ++ (outboxTo out k.root).filter k.up) j := by
    intro j
    by_cases hj : j = i
    · subst hj
      rw [send_same, List.filter_append, set_same]
    · rw [send_of_ne _ _ _ hj, set_of_ne _ _ hj]
  cases hround with
  | quiet hout hflag =>
      left
      have hnone : (outboxTo out k.root).filter k.up = [] := by
        rw [List.filter_eq_nil_iff]
        intro msg hmsg
        rw [hout _ (mem_outboxTo.mp hmsg)]
        simp
      have hlog : k.noteSent log i out = log := by simp [noteSent, hnone]
      rw [hlog]
      apply Rounds.State.ext <;> try rfl
      · funext j
        refine (hinside j).trans ?_
        rw [hflag]
        exact congrFun (set_eq_self (fun j => k.flag (s.host j)) i) j
      · funext j
        refine (hup j).trans ?_
        rw [hnone, List.append_nil]
        exact congrFun (set_eq_self (fun j => (s.net j k.root).filter k.up) i) j
      · exact hcounter
      · funext j
        simp only [view, State.put_net, hdown]
  | enter hflag hflag' hburst =>
      right
      have hstep : Rounds.Step cfg.hostc k.closes k.ends k.Answers (k.view s log) _ :=
        .enter i hi hflag hburst
      have hne : ((outboxTo out k.root).filter k.up).isEmpty = false := by
        rw [List.isEmpty_eq_false_iff]
        exact hburst.ne_nil
      convert hstep using 1
      have hlog : k.noteSent log i out = { log with
          sent := set log.sent i (log.sent i + 1)
          offered := set log.offered i (set (log.offered i) (log.sent i)
            ((outboxTo out k.root).filter k.up)) } := by
        simp only [noteSent, hne]
        rfl
      rw [hlog]
      apply Rounds.State.ext <;> try rfl
      · funext j
        refine (hinside j).trans ?_
        rw [hflag']
        rfl
      · funext j
        exact hup j
      · exact hcounter
      · funext j
        simp only [view, State.put_net, hdown, State.enter]

section Served

variable {src dst : Nat} {rnd : List Nat} {msg : Msg} {rest : List Msg} {h' : Host} {out : Out}

theorem up_served (hnet : s.net src dst = msg :: rest)
    (hout : ∀ y ∈ out, y.2.isRequest = false) (j : Nat) :
    ((send (drop s.net src dst) dst out) j k.root).filter k.up =
      if j = src ∧ k.root = dst then rest.filter k.up else (s.net j k.root).filter k.up := by
  have hnone : ∀ b, (outboxTo out b).filter k.up = [] := by
    intro b
    rw [List.filter_eq_nil_iff]
    intro m hm
    rw [k.up_eq_false_of_server (hout _ (mem_outboxTo.mp hm))]
    simp
  have hsend : ((send (drop s.net src dst) dst out) j k.root).filter k.up =
      (drop s.net src dst j k.root).filter k.up := by
    by_cases hj : j = dst
    · subst hj
      rw [send_same, List.filter_append, hnone, List.append_nil]
    · rw [send_of_ne _ _ _ hj]
  rw [hsend]
  by_cases hjr : j = src ∧ k.root = dst
  · obtain ⟨rfl, rfl⟩ := hjr
    rw [if_pos ⟨rfl, rfl⟩, drop_same hnet]
  · rw [if_neg hjr, drop_of_ne _ hjr]

theorem up_served_other (hnet : s.net src dst = msg :: rest)
    (hout : ∀ y ∈ out, y.2.isRequest = false) (hup : k.up msg = false) (j : Nat) :
    ((send (drop s.net src dst) dst out) j k.root).filter k.up =
      (s.net j k.root).filter k.up := by
  rw [k.up_served hnet hout]
  by_cases hjr : j = src ∧ k.root = dst
  · rw [if_pos hjr, hjr.1, hjr.2, hnet, List.filter_cons, hup]
    rfl
  · rw [if_neg hjr]

theorem inside_served (j : Nat) :
    k.flag (({ s with net := drop s.net src dst }.put dst h' out).host j) =
      set (fun j => k.flag (s.host j)) dst (k.flag h') j := by
  by_cases hj : j = dst
  · subst hj
    rw [State.put_host_same, set_same]
  · rw [State.put_host_of_ne _ _ _ hj, set_of_ne _ _ hj]

theorem counter_served :
    k.counter (({ s with net := drop s.net src dst }.put dst h' out).host k.root) =
      if k.root = dst then k.counter h' else k.counter (s.host k.root) := by
  by_cases hr : k.root = dst
  · rw [if_pos hr, ← hr, State.put_host_same]
  · rw [if_neg hr, State.put_host_of_ne _ _ _ hr]

theorem unwrap_bcastserver (root l : Nat) (hr : root < cfg.hostc) (hdown : msg.Broadcast) :
    (outboxTo (bcastserver cfg root root (l + 1) msg) root).map Msg.unwrap = [msg] := by
  have hself : treeHost cfg root (treePos cfg root root) = root := treeHost_treePos hr hr
  have hpow := Nat.two_pow_pos l
  have hunwrap : Msg.unwrap (if l = 0 then msg else .bcast root l msg) = msg := by
    split
    · cases hdown <;> rfl
    · rfl
  have hchild : outboxTo (if treePos cfg root root + 2 ^ l < cfg.hostc then
      [(treeHost cfg root (treePos cfg root root + 2 ^ l),
        if l = 0 then msg else Msg.bcast root l msg)] else []) root = [] := by
    split
    · rename_i hlt
      apply outboxTo_cons_ne
      intro heq
      have hpos := congrArg (treePos cfg root) heq
      rw [treePos_treeHost hr hlt] at hpos
      omega
    · rfl
  rw [bcastserver_eq, relayOut, outboxTo_append, hchild, hself, outboxTo_cons_same, outboxTo_nil,
    List.nil_append, List.map_singleton, hunwrap]

/-- The root sends itself a copy of all it broadcasts. -/
theorem unwrap_broadcasts {msgs : List Msg} (hdown : ∀ m ∈ msgs, k.down m = true) :
    (outboxTo (msgs.flatMap (broadcast cfg k.root)) k.root).map Msg.unwrap = msgs := by
  induction msgs with
  | nil => rfl
  | cons msg msgs ih =>
      have hb := k.isBroadcast (hdown msg List.mem_cons_self)
      have hone : (outboxTo (broadcast cfg k.root msg) k.root).map Msg.unwrap = [msg] := by
        unfold broadcast
        split
        · obtain ⟨l, hl⟩ := Nat.exists_eq_add_of_lt (bcastLevel_pos cfg)
          rw [Nat.zero_add] at hl
          rw [hl]
          exact unwrap_bcastserver k.root l k.root_lt hb
        · rw [outboxTo_map_range msg k.root_lt]
          cases hb <;> rfl
      rw [List.flatMap_cons, outboxTo_append, List.map_append, hone,
        ih fun m hm => hdown m (List.mem_cons_of_mem _ hm)]
      rfl

theorem view_ext {log' : RoundLog} {v : Rounds.State Msg Msg}
    (hinside : ∀ j, set (fun j => k.flag (s.host j)) dst (k.flag h') j = v.inside j)
    (hup : ∀ j, ((send (drop s.net src dst) dst out) j k.root).filter k.up = v.up j)
    (hcount : (if k.root = dst then k.counter h' else k.counter (s.host k.root)) = v.count)
    (hdown : ∀ j, (if j < cfg.hostc then
      k.cast.pending (send (drop s.net src dst) dst out) j else []) = v.down j)
    (hlog : log' = ⟨v.sent, v.arrived, v.rounds, v.granted, v.offered, v.recorded, v.answer,
      v.heard⟩) :
    k.view ({ s with net := drop s.net src dst }.put dst h' out) log' = v := by
  subst hlog
  apply Rounds.State.ext <;> try rfl
  · funext j
    exact (k.inside_served j).trans (hinside j)
  · funext j
    exact hup j
  · exact k.counter_served.trans hcount
  · funext j
    exact hdown j

theorem view_same (hflag : k.flag h' = k.flag (s.host dst))
    (hup : ∀ j, ((send (drop s.net src dst) dst out) j k.root).filter k.up =
      (s.net j k.root).filter k.up)
    (hcount : k.counter h' = k.counter (s.host dst))
    (hdown : ∀ j < cfg.hostc, k.cast.pending (send (drop s.net src dst) dst out) j =
      k.cast.pending s.net j) :
    k.view ({ s with net := drop s.net src dst }.put dst h' out) log = k.view s log := by
  apply k.view_ext
  · intro j
    rw [hflag]
    exact congrFun (set_eq_self (fun j => k.flag (s.host j)) dst) j
  · exact hup
  · by_cases hr : k.root = dst
    · rw [if_pos hr, hcount, ← hr]
      rfl
    · rw [if_neg hr]
      rfl
  · intro j
    by_cases hj : j < cfg.hostc
    · rw [if_pos hj, hdown j hj]
      exact (if_pos hj).symm
    · rw [if_neg hj]
      exact (if_neg hj).symm
  · rfl

theorem inside_of_same (hflag : k.flag h' = k.flag (s.host dst)) (j : Nat) :
    set (fun j => k.flag (s.host j)) dst (k.flag h') j = k.flag (s.host j) := by
  rw [hflag]
  exact congrFun (set_eq_self (fun j => k.flag (s.host j)) dst) j

theorem up_taken (hnet : s.net src k.root = msg :: rest)
    (hout : ∀ y ∈ out, y.2.isRequest = false) (j : Nat) :
    ((send (drop s.net src k.root) k.root out) j k.root).filter k.up =
      set (fun j => (s.net j k.root).filter k.up) src (rest.filter k.up) j := by
  rw [k.up_served hnet hout]
  by_cases hj : j = src
  · subst hj
    rw [if_pos ⟨rfl, rfl⟩, set_same]
  · rw [if_neg (fun h => hj h.1), set_of_ne _ _ hj]

theorem view_up_cons (log : RoundLog) (hnet : s.net src k.root = msg :: rest) (hup : k.up msg = true) :
    (k.view s log).up src = msg :: rest.filter k.up := by
  change (s.net src k.root).filter k.up = _
  rw [hnet, List.filter_cons, hup]
  rfl

theorem pending_taken (hnet : s.net src dst = msg :: rest) (hup : k.up msg = true) (j : Nat) :
    k.cast.pending (drop s.net src dst) j = k.cast.pending s.net j :=
  Relay.Cast.pending_drop_quiet hnet (k.quiet_of_request (k.up_request hup))

theorem up_of_down (hdown : k.down msg = true) : k.up msg = false :=
  k.up_eq_false_of_server (k.isBroadcast hdown).isRequest

theorem down_of_quiet (hmsg : k.Quiet msg) : k.down msg = false := by
  by_contra hdown
  have hnone := hmsg 0
  rw [k.read_plain (by simpa using hdown)] at hnone
  cases hnone

theorem noteHandled_of_quiet (log : RoundLog) (src dst : Nat) (out : Out) (hup : k.up msg = false)
    (hmsg : k.Quiet msg) : k.noteHandled log src dst msg out = log := by
  simp [noteHandled, hup, k.down_of_quiet hmsg]

theorem view_quiet (hnet : s.net src dst = msg :: rest) (hup : k.up msg = false)
    (hmsg : k.Quiet msg) (hserver : ∀ y ∈ out, y.2.isRequest = false)
    (hout : ∀ y ∈ out, k.Quiet y.2) (hflag : k.flag h' = k.flag (s.host dst))
    (hcount : k.counter h' = k.counter (s.host dst)) :
    k.view ({ s with net := drop s.net src dst }.put dst h' out) log = k.view s log :=
  k.view_same hflag (k.up_served_other hnet hserver hup) hcount
    fun _ _ => k.pending_quiet hnet hmsg hout

/-- A message of a burst, but not its last. -/
theorem step_take (hnet : s.net src k.root = msg :: rest) (hup : k.up msg = true)
    (hmsg : k.closes msg = false) (hflag : k.flag h' = k.flag (s.host k.root))
    (hcount : k.counter h' = k.counter (s.host k.root)) :
    Rounds.Step cfg.hostc k.closes k.ends k.Answers (k.view s log)
      (k.view ({ s with net := drop s.net src k.root }.put k.root h' [])
        (k.noteHandled log src k.root msg [])) := by
  have hstep : Rounds.Step cfg.hostc k.closes k.ends k.Answers (k.view s log) _ :=
    .take src (k.view_up_cons log hnet hup) hmsg
  convert hstep using 1
  apply k.view_ext
  · exact k.inside_of_same hflag
  · exact k.up_taken hnet (by simp)
  · rw [if_pos rfl, hcount]
    rfl
  · intro j
    rw [send_nil, k.pending_taken hnet hup]
    rfl
  · simp only [noteHandled, hup, noteTaken, hmsg]
    rfl

/-- The last message of a burst, when others are missing. -/
theorem step_arrive (hnet : s.net src k.root = msg :: rest) (hup : k.up msg = true)
    (hmsg : k.closes msg = true) (hlast : k.counter (s.host k.root) + 1 ≠ cfg.hostc)
    (hflag : k.flag h' = k.flag (s.host k.root))
    (hcount : k.counter h' = k.counter (s.host k.root) + 1) :
    Rounds.Step cfg.hostc k.closes k.ends k.Answers (k.view s log)
      (k.view ({ s with net := drop s.net src k.root }.put k.root h' [])
        (k.noteHandled log src k.root msg [])) := by
  have hstep : Rounds.Step cfg.hostc k.closes k.ends k.Answers (k.view s log) _ :=
    .arrive src (k.view_up_cons log hnet hup) hmsg hlast
  convert hstep using 1
  apply k.view_ext
  · exact k.inside_of_same hflag
  · exact k.up_taken hnet (by simp)
  · rw [if_pos rfl, hcount]
    rfl
  · intro j
    rw [send_nil, k.pending_taken hnet hup]
    rfl
  · simp only [noteHandled, hup, noteTaken, hmsg]
    rfl

/-- The root broadcasts nothing only where it answers nothing. -/
theorem broadcasts_nonempty {reply : List Msg} (hdown : ∀ m ∈ reply, k.down m = true)
    (hreply : reply ≠ []) : (reply.flatMap (broadcast cfg k.root)).isEmpty = false := by
  rw [List.isEmpty_eq_false_iff]
  intro hnil
  have hunwrap := k.unwrap_broadcasts hdown
  rw [hnil] at hunwrap
  exact hreply hunwrap.symm

/-- The last message of the last burst. -/
theorem step_last {reply : List Msg} (hnet : s.net src k.root = msg :: rest)
    (hup : k.up msg = true) (hmsg : k.closes msg = true)
    (hlast : k.counter (s.host k.root) + 1 = cfg.hostc)
    (hserver : ∀ y ∈ reply.flatMap (broadcast cfg k.root), y.2.isRequest = false)
    (hdown : ∀ m ∈ reply, k.down m = true) (hreply : Burst k.ends reply)
    (hflag : k.flag h' = k.flag (s.host k.root)) (hcount : k.counter h' = 0)
    (hans : k.Answers log.rounds (log.recorded log.rounds ++ [(src, msg)]) reply) :
    Rounds.Step cfg.hostc k.closes k.ends k.Answers (k.view s log)
      (k.view ({ s with net := drop s.net src k.root }.put k.root h'
          (reply.flatMap (broadcast cfg k.root)))
        (k.noteHandled log src k.root msg (reply.flatMap (broadcast cfg k.root)))) := by
  have hstep : Rounds.Step cfg.hostc k.closes k.ends k.Answers (k.view s log) _ :=
    .last src (k.view_up_cons log hnet hup) hmsg hlast hreply hans
  have hne := k.broadcasts_nonempty hdown hreply.ne_nil
  convert hstep using 1
  apply k.view_ext
  · exact k.inside_of_same hflag
  · exact k.up_taken hnet hserver
  · rw [if_pos rfl, hcount]
    rfl
  · intro j
    by_cases hj : j < cfg.hostc
    · rw [if_pos hj, k.pending_broadcasts hdown hj, k.pending_taken hnet hup]
      simp only [State.next, State.arrive, State.take, view, if_pos hj]
    · rw [if_neg hj]
      simp only [State.next, State.arrive, State.take, view, if_neg hj]
  · simp only [noteHandled, hup, noteTaken, hmsg, hne, k.unwrap_broadcasts hdown]
    rfl

theorem down_heard (hnet : s.net src dst = msg :: rest) (hdown : k.down msg = true)
    (hdst : dst < cfg.hostc) (j : Nat) :
    (if j < cfg.hostc then k.cast.pending (drop s.net src dst) j else []) =
      set (k.view s log).down dst (k.cast.pending (drop s.net src dst) dst) j := by
  by_cases hj : j = dst
  · subst hj
    rw [if_pos hdst, set_same]
  · rw [set_of_ne _ _ hj]
    simp only [view]
    by_cases hlt : j < cfg.hostc
    · rw [if_pos hlt, if_pos hlt, k.pending_deliver_ne hnet hdown hlt hj]
    · rw [if_neg hlt, if_neg hlt]

theorem view_down_cons (log : RoundLog) (hnet : s.net src dst = msg :: rest)
    (hrel : Relayed cfg src dst msg) (hdown : k.down msg = true) :
    dst < cfg.hostc ∧ (k.view s log).down dst =
      msg :: k.cast.pending (drop s.net src dst) dst := by
  have hdst := (k.onPath_of_down hdown hrel).lt
  refine ⟨hdst, ?_⟩
  simp only [view, if_pos hdst]
  exact k.pending_deliver hnet hrel hdown

theorem counter_of_same (hcount : k.counter h' = k.counter (s.host dst)) :
    (if k.root = dst then k.counter h' else k.counter (s.host k.root)) =
      k.counter (s.host k.root) := by
  by_cases hr : k.root = dst
  · rw [if_pos hr, hcount, ← hr]
  · rw [if_neg hr]

/-- A message of an answer, but not its last. -/
theorem step_hear (hnet : s.net src dst = msg :: rest) (hrel : Relayed cfg src dst msg)
    (hdown : k.down msg = true) (hmsg : k.ends msg = false)
    (hflag : k.flag h' = k.flag (s.host dst)) (hcount : k.counter h' = k.counter (s.host dst)) :
    Rounds.Step cfg.hostc k.closes k.ends k.Answers (k.view s log)
      (k.view ({ s with net := drop s.net src dst }.put dst h' [])
        (k.noteHandled log src dst msg [])) := by
  have hup := k.up_of_down hdown
  obtain ⟨hdst, hpending⟩ := k.view_down_cons log hnet hrel hdown
  have hstep : Rounds.Step cfg.hostc k.closes k.ends k.Answers (k.view s log) _ :=
    .hear dst hdst hpending hmsg
  convert hstep using 1
  apply k.view_ext
  · exact k.inside_of_same hflag
  · exact k.up_served_other hnet (by simp) hup
  · exact k.counter_of_same hcount
  · intro j
    rw [send_nil]
    exact k.down_heard hnet hdown hdst j
  · simp only [noteHandled, hup, hdown, noteHeard, hmsg]
    rfl

/-- The last message of an answer. -/
theorem step_leave (hnet : s.net src dst = msg :: rest) (hrel : Relayed cfg src dst msg)
    (hdown : k.down msg = true) (hmsg : k.ends msg = true) (hflag : k.flag h' = false)
    (hcount : k.counter h' = k.counter (s.host dst)) :
    Rounds.Step cfg.hostc k.closes k.ends k.Answers (k.view s log)
      (k.view ({ s with net := drop s.net src dst }.put dst h' [])
        (k.noteHandled log src dst msg [])) := by
  have hup := k.up_of_down hdown
  obtain ⟨hdst, hpending⟩ := k.view_down_cons log hnet hrel hdown
  have hstep : Rounds.Step cfg.hostc k.closes k.ends k.Answers (k.view s log) _ :=
    .leave dst hdst hpending hmsg
  convert hstep using 1
  apply k.view_ext
  · intro j
    rw [hflag]
    rfl
  · exact k.up_served_other hnet (by simp) hup
  · exact k.counter_of_same hcount
  · intro j
    rw [send_nil]
    exact k.down_heard hnet hdown hdst j
  · simp only [noteHandled, hup, hdown, noteHeard, hmsg]
    rfl

/-- A host of the tree passes a message of an answer on. -/
theorem view_forward {l : Nat} {m : Msg} (hnet : s.net src dst = .bcast k.root (l + 1) m :: rest)
    (hrel : Relayed cfg src dst (.bcast k.root (l + 1) m)) (hdown : k.down m = true)
    (hserver : ∀ y ∈ bcastserver cfg dst k.root (l + 1) m, y.2.isRequest = false)
    (hflag : k.flag h' = k.flag (s.host dst)) (hcount : k.counter h' = k.counter (s.host dst)) :
    k.view ({ s with net := drop s.net src dst }.put dst h' (bcastserver cfg dst k.root (l + 1) m))
      (k.noteHandled log src dst (.bcast k.root (l + 1) m) (bcastserver cfg dst k.root (l + 1) m)) =
        k.view s log := by
  have hup : k.up (.bcast k.root (l + 1) m) = false := k.up_eq_false_of_server rfl
  have hlog : k.noteHandled log src dst (.bcast k.root (l + 1) m)
      (bcastserver cfg dst k.root (l + 1) m) = log := by
    simp [noteHandled, hup, k.down_bcast]
  rw [hlog]
  exact k.view_same hflag (k.up_served_other hnet hserver hup) hcount
    fun j hj => k.pending_forward hnet hrel hdown hj

theorem view_served (hnet : s.net src dst = msg :: rest) (hin : Routed cfg src dst msg)
    (hrel : Relayed cfg src dst msg) (hs : Served cfg dst (s.host dst) src rnd msg h' out)
    (hready : k.Ready (s.host k.root) log.rounds (log.recorded log.rounds)) :
    k.view ({ s with net := drop s.net src dst }.put dst h' out)
        (k.noteHandled log src dst msg out) = k.view s log ∨
      Rounds.Step cfg.hostc k.closes k.ends k.Answers (k.view s log)
        (k.view ({ s with net := drop s.net src dst }.put dst h' out)
          (k.noteHandled log src dst msg out)) := by
  have hserver : ∀ y ∈ out, y.2.isRequest = false := fun y hy => (served_routed hin hs hy).1
  cases k.served hin hrel hs with
  | quiet hup hmsg hout hflag hcount =>
      left
      rw [k.noteHandled_of_quiet log src dst out hup hmsg]
      exact k.view_quiet hnet hup hmsg hserver hout hflag hcount
  | take hup hmsg hout hflag hcount =>
      obtain rfl := k.up_routed hin hup
      subst hout
      exact Or.inr (k.step_take hnet hup hmsg hflag hcount)
  | arrive hup hmsg hlast hout hflag hcount =>
      obtain rfl := k.up_routed hin hup
      subst hout
      exact Or.inr (k.step_arrive hnet hup hmsg hlast hflag hcount)
  | last reply hup hmsg hlast hout hdown hreply hflag hcount hans =>
      obtain rfl := k.up_routed hin hup
      subst hout
      exact Or.inr (k.step_last hnet hup hmsg hlast hserver hdown hreply hflag hcount
        (hans _ _ hready))
  | hear hdown hmsg hout hflag hcount =>
      subst hout
      exact Or.inr (k.step_hear hnet hrel hdown hmsg hflag hcount)
  | leave hdown hmsg hout hflag hcount =>
      subst hout
      exact Or.inr (k.step_leave hnet hrel hdown hmsg hflag hcount)
  | forward l m hmsg hdown hout hflag hcount =>
      subst hmsg
      subst hout
      exact Or.inl (k.view_forward hnet hrel hdown hserver hflag hcount)

end Served

end Refinement

/-! ## Runs -/

/-- What holds of a scheme in every run. -/
structure Ok (x : State × RoundLog) : Prop where
  inv : Rounds.Inv cfg.hostc k.closes k.ends (k.view x.1 x.2)
  records : Records cfg.hostc (k.view x.1 x.2)
  replies : Replies cfg.hostc k.Answers (k.view x.1 x.2)
  ready : k.Ready (x.1.host k.root) x.2.rounds (x.2.recorded x.2.rounds)

theorem Ok.hearing {k : RoundKind cfg} {s : State} {log : RoundLog} (hok : k.Ok (s, log))
    {src dst : Nat} {msg : Msg} {rest : List Msg} (hnet : s.net src dst = msg :: rest)
    (hrel : Relayed cfg src dst msg) (hdown : k.down msg = true) :
    dst < cfg.hostc ∧ log.rounds = log.granted dst + 1 ∧ k.flag (s.host dst) = true := by
  obtain ⟨hdst, hpending⟩ := k.view_down_cons log hnet hrel hdown
  obtain ⟨hbehind, hflag, -⟩ := hok.inv.hearing hdst hpending
  exact ⟨hdst, hbehind, hflag⟩

theorem ok_init : k.Ok (initState cfg, k.history.start) := by
  have hview : k.view (initState cfg) k.history.start = Rounds.init := by
    apply Rounds.State.ext <;> try rfl
    · funext i
      exact k.flag_init i
    · exact k.counter_init k.root
    · funext i
      have hnil : k.cast.pending (fun _ _ => []) i = [] := by
        simp [Relay.Cast.pending, Relay.Cast.segment]
      simp only [view, initState, hnil, ite_self]
      rfl
  refine ⟨?_, ?_, ?_, k.ready_init _⟩
  · exact hview ▸ Rounds.inv_init cfg.hostc_pos
  · exact hview ▸ Rounds.records_init
  · exact hview ▸ Rounds.replies_init

theorem ok_of_step {x x' : State × RoundLog} (h : k.Ok x)
    (hstep : k.view x'.1 x'.2 = k.view x.1 x.2 ∨
      Rounds.Step cfg.hostc k.closes k.ends k.Answers (k.view x.1 x.2) (k.view x'.1 x'.2))
    (hready : k.Ready (x'.1.host k.root) x'.2.rounds (x'.2.recorded x'.2.rounds)) : k.Ok x' := by
  rcases hstep with hsame | hstep
  · exact ⟨hsame ▸ h.inv, hsame ▸ h.records, hsame ▸ h.replies, hready⟩
  · exact ⟨Rounds.inv_step h.inv hstep, Rounds.records_step h.records h.inv hstep,
      Rounds.replies_step h.replies h.inv hstep, hready⟩

theorem ready_main {s : State} {log : RoundLog} {i : Nat} {a : Act} {h' : Host} {out : Out}
    (hok : StackOk (s.host i)) (hm : Main cfg i (s.host i) a h' out)
    (hready : k.Ready (s.host k.root) log.rounds (log.recorded log.rounds)) :
    k.Ready ((s.put i h' out).host k.root) (k.noteSent log i out).rounds
      ((k.noteSent log i out).recorded (k.noteSent log i out).rounds) := by
  have hlog : (k.noteSent log i out).rounds = log.rounds ∧
      (k.noteSent log i out).recorded = log.recorded := by
    unfold noteSent
    by_cases hnil : ((outboxTo out k.root).filter k.up).isEmpty
    · simp only [hnil, if_true, and_self]
    · simp only [hnil]
      exact ⟨rfl, rfl⟩
  rw [hlog.1, hlog.2]
  by_cases hr : k.root = i
  · subst hr
    rw [State.put_host_same]
    exact (k.main hok hm).2.2 _ _ hready
  · rwa [State.put_host_of_ne _ _ _ hr]

theorem ready_served {s : State} {log : RoundLog} {src dst : Nat} {rnd : List Nat} {msg : Msg}
    {h' : Host} {out : Out} (hin : Routed cfg src dst msg) (hrel : Relayed cfg src dst msg)
    (hs : Served cfg dst (s.host dst) src rnd msg h' out)
    (hready : k.Ready (s.host k.root) log.rounds (log.recorded log.rounds))
    (hlate : log.recorded (log.rounds + 1) = []) :
    k.Ready (({ s with net := drop s.net src dst }.put dst h' out).host k.root)
      (k.noteHandled log src dst msg out).rounds
      ((k.noteHandled log src dst msg out).recorded (k.noteHandled log src dst msg out).rounds) := by
  have hother : k.up msg = false →
      (∀ n rec, k.Ready (s.host dst) n rec → k.Ready h' n rec) →
      k.Ready (({ s with net := drop s.net src dst }.put dst h' out).host k.root)
        (k.noteHandled log src dst msg out).rounds
        ((k.noteHandled log src dst msg out).recorded
          (k.noteHandled log src dst msg out).rounds) := by
    intro hup hkeep
    have hlog : (k.noteHandled log src dst msg out).rounds = log.rounds ∧
        (k.noteHandled log src dst msg out).recorded = log.recorded := by
      simp only [noteHandled, hup, noteHeard]
      by_cases hdown : k.down msg = true
      · by_cases hends : k.ends msg = true
        · simp [hdown, hends]
        · simp [hdown, hends]
      · simp [hdown]
    rw [hlog.1, hlog.2]
    by_cases hr : k.root = dst
    · subst hr
      rw [State.put_host_same]
      exact hkeep _ _ hready
    · rwa [State.put_host_of_ne _ _ _ hr]
  cases k.served hin hrel hs with
  | quiet hup hmsg hout hflag hcount hkeep => exact hother hup hkeep
  | take hup hmsg hout hflag hcount hkeep =>
      obtain rfl := k.up_routed hin hup
      rw [State.put_host_same]
      simpa [noteHandled, hup, noteTaken, hmsg] using hkeep _ _ hready
  | arrive hup hmsg hlast hout hflag hcount hkeep =>
      obtain rfl := k.up_routed hin hup
      subst hout
      rw [State.put_host_same]
      simpa [noteHandled, hup, noteTaken, hmsg] using hkeep _ _ hready
  | last reply hup hmsg hlast hout hdown hreply hflag hcount hans hkeep =>
      obtain rfl := k.up_routed hin hup
      have hne : out.isEmpty = false := by
        rw [hout]
        exact k.broadcasts_nonempty hdown hreply.ne_nil
      have hrounds : (k.noteHandled log src k.root msg out).rounds = log.rounds + 1 := by
        simp [noteHandled, hup, noteTaken, hmsg, hne]
      have hnew : (k.noteHandled log src k.root msg out).recorded (log.rounds + 1) = [] := by
        simp [noteHandled, hup, noteTaken, hmsg, hne, hlate]
      rw [State.put_host_same, hrounds, hnew]
      exact hkeep _ _ hready
  | hear hdown hmsg hout hflag hcount hkeep =>
      refine hother ?_ hkeep
      exact k.up_eq_false_of_server (k.isBroadcast hdown).isRequest
  | leave hdown hmsg hout hflag hcount hkeep =>
      refine hother ?_ hkeep
      exact k.up_eq_false_of_server (k.isBroadcast hdown).isRequest
  | forward l m hmsg hdown hout hflag hcount hkeep =>
      refine hother ?_ hkeep
      rw [hmsg]
      exact k.up_eq_false_of_server rfl

theorem reach_ok {x : State × RoundLog} (hx : ((system cfg).withHist k.history).Reach x) :
    k.Ok x := by
  refine hx.invariant (I := k.Ok) k.ok_init ?_
  intro x e x' hreach hok hnext
  obtain ⟨s, log⟩ := x
  obtain ⟨s', log'⟩ := x'
  obtain ⟨hstep, hlog'⟩ := hnext
  dsimp only at hstep hlog'
  subst hlog'
  have hs := hreach.forget
  rcases step_view hstep with ⟨i, a, hst, out, rfl, hi, hm, hsent, rfl⟩ |
    ⟨src, dst, rnd, msg, rest, hst, out, rfl, hnet, hm, hsent, rfl⟩
  · have hlog : k.history.obs log s (.main i a) (s.put i hst out) = k.noteSent log i out := by
      simp [history, hsent]
    rw [hlog]
    refine k.ok_of_step hok (k.view_main hi (reach_stackOk hs i) hm) ?_
    exact k.ready_main (reach_stackOk hs i) hm hok.ready
  · have hmem : msg ∈ s.net src dst := by
      rw [hnet]
      exact List.mem_cons_self
    have hin := reach_routed hs hmem
    have hrel := reach_relayed hs hmem
    have hlog : k.history.obs log s (.deliver src dst rnd)
        ({ s with net := drop s.net src dst }.put dst hst out) =
        k.noteHandled log src dst msg out := by
      simp [history, hsent, handled, hnet]
    rw [hlog]
    refine k.ok_of_step hok (k.view_served hnet hin hrel hm hok.ready) ?_
    refine k.ready_served hin hrel hm hok.ready ?_
    exact hok.records.recorded_late hok.inv (Nat.lt_succ_self _)

end RoundKind

end Jiajia
