import Jiajia.Routing
import Jiajia.Lib.LockQueue

/-!
# Mutual exclusion

Every lock is a run of the lock manager of `LockQueue`: the messages about it
are the channels, `acqs` is the queue, and a host is inside from the moment it
handles ACQGRANT until it sends REL.
-/

namespace Jiajia

open Fifo Transition

/-! ## A lock as a run of the lock manager -/

def Msg.lockRequest (l : Nat) : Msg → Option LockQueue.Request
  | .acq l' _ => if l' = l then some .acq else none
  | .rel l' _ _ => if l' = l then some .rel else none
  | _ => none

def Msg.isGrant (l : Nat) : Msg → Bool
  | .acqgrant l' _ _ => l' = l
  | _ => false

/-- The requests about a lock among the messages of a channel. -/
def requests (l : Nat) (msgs : List Msg) : List LockQueue.Request :=
  msgs.filterMap (Msg.lockRequest l)

/-- The number of grants of a lock among the messages of a channel. -/
def grants (l : Nat) (msgs : List Msg) : Nat := msgs.countP (Msg.isGrant l)

/-- The requests the manager of a lock holds, `acqs[0..acqc)`. -/
def Lock.queue (lk : Lock) : List Nat := (List.range lk.acqc).map lk.acqs

namespace Host

/-- The host has handled ACQGRANT for `l` and has not sent REL yet. -/
def Holds (l : Nat) (h : Host) : Prop :=
  l ∈ h.y.ids ∨ (h.pc = .acqwait l ∧ h.y.acqwait = false)

instance (l : Nat) (h : Host) : Decidable (h.Holds l) := inferInstanceAs (Decidable (_ ∨ _))

/-- Where a host stands as a client of a lock. -/
def client (l : Nat) (h : Host) : LockQueue.Client :=
  if h.Holds l then .inside else if h.pc = .acqwait l then .waiting else .out

end Host

/-- For each lock the ACQ messages handled, by sender, and the ACQGRANT messages
sent, by receiver. -/
structure LockLog where
  asked : Nat → List Nat
  granted : Nat → List Nat

/-- The receivers of the grants of a lock in an outbox. -/
def grantees (l : Nat) (out : Out) : List Nat := (out.filter fun x => x.2.isGrant l).map Prod.fst

namespace LockLog

def ask (log : LockLog) (src : Nat) : Option Msg → LockLog
  | some (.acq l _) => { log with asked := upd log.asked l (log.asked l ++ [src]) }
  | _ => log

def grant (log : LockLog) (out : Out) : LockLog :=
  { log with granted := fun l => log.granted l ++ grantees l out }

end LockLog

/-- The sender of the message a step handles. -/
def Event.source : Event → Nat
  | .main i _ => i
  | .deliver src _ _ => src

/-- The history of all locks. -/
def lockHistory (cfg : Config) : System.Observer State Event LockLog where
  start := ⟨fun _ => [], fun _ => []⟩
  obs log s e _ := (log.ask e.source (handled s e)).grant (sent cfg s e)

variable {cfg : Config} {s : State} {l : Nat}

/-- The part of a state that is about lock `l`. -/
def lockView (cfg : Config) (s : State) (log : LockLog) (l : Nat) : LockQueue.State where
  queue := ((s.host (l % cfg.hostc)).y.locks l).queue
  up a := requests l (s.net a (l % cfg.hostc))
  down a := grants l (s.net (l % cfg.hostc) a)
  client a := (s.host a).client l
  asked := log.asked l
  granted := log.granted l

@[simp] theorem requests_nil (l : Nat) : requests l [] = [] := rfl

@[simp] theorem requests_append (l : Nat) (ms ms' : List Msg) :
    requests l (ms ++ ms') = requests l ms ++ requests l ms' := List.filterMap_append

@[simp] theorem grants_nil (l : Nat) : grants l [] = 0 := rfl

@[simp] theorem grants_append (l : Nat) (ms ms' : List Msg) :
    grants l (ms ++ ms') = grants l ms + grants l ms' := List.countP_append

theorem requests_eq_nil {ms : List Msg} (h : ∀ msg ∈ ms, msg.lockRequest l = none) :
    requests l ms = [] := List.filterMap_eq_nil_iff.mpr h

theorem grants_eq_zero {ms : List Msg} (h : ∀ msg ∈ ms, msg.isGrant l = false) :
    grants l ms = 0 := by
  rw [grants, List.countP_eq_zero]
  intro msg hm
  simp [h msg hm]

theorem grants_outboxTo (l a : Nat) (out : Out) :
    grants l (outboxTo out a) = (grantees l out).count a := by
  induction out with
  | nil => rfl
  | cons x out ih =>
      obtain ⟨d, msg⟩ := x
      unfold grants grantees at *
      by_cases hd : d = a
      · subst hd
        rw [outboxTo_cons_same, List.countP_cons, ih]
        cases hg : msg.isGrant l <;> simp [hg]
      · rw [outboxTo_cons_ne _ _ hd, ih]
        cases hg : msg.isGrant l <;> simp [hg, hd]

theorem grantees_eq_nil {out : Out} (h : ∀ x ∈ out, x.2.isGrant l = false) :
    grantees l out = [] := by
  simpa [grantees, List.filter_eq_nil_iff] using h

theorem requests_drop {n : Net Msg} {src dst : Nat} {msg : Msg} {rest : List Msg}
    (hnet : n src dst = msg :: rest) (hnone : msg.lockRequest l = none) (a b : Nat) :
    requests l (drop n src dst a b) = requests l (n a b) := by
  by_cases hab : a = src ∧ b = dst
  · obtain ⟨rfl, rfl⟩ := hab
    rw [drop_same hnet, hnet]
    simp [requests, hnone]
  · rw [drop_of_ne _ hab]

theorem grants_drop {n : Net Msg} {src dst : Nat} {msg : Msg} {rest : List Msg}
    (hnet : n src dst = msg :: rest) (hnot : msg.isGrant l = false) (a b : Nat) :
    grants l (drop n src dst a b) = grants l (n a b) := by
  by_cases hab : a = src ∧ b = dst
  · obtain ⟨rfl, rfl⟩ := hab
    rw [drop_same hnet, hnet]
    simp [grants, hnot]
  · rw [drop_of_ne _ hab]

/-! ## The messages of the main thread -/

namespace Host

variable {pid src : Nat} {rnd : List Nat} {h h' : Host} {out : Out}

/-- The client of lock `l` before and after a step that sends `rs` to its manager. -/
inductive Asks : LockQueue.Client → LockQueue.Client → List LockQueue.Request → Prop
  | stays (c : LockQueue.Client) : Asks c c []
  | ask : Asks .out .waiting [.acq]
  | free : Asks .inside .out [.rel]

theorem client_eq_of {h₁ h₂ : Host} (hids : h₂.y.ids = h₁.y.ids)
    (hpc₁ : ∀ l, h₁.pc ≠ .acqwait l) (hpc₂ : ∀ l, h₂.pc ≠ .acqwait l) :
    h₂.client l = h₁.client l := by
  simp only [client, Holds, hids, hpc₁, hpc₂, false_and, or_false, if_false]

/-- The messages of `sendwtnts(REL)` hold one request. -/
theorem requests_sendwtnts (hs : h.sendwtnts cfg false = .ok out) :
    requests l (outboxTo out (h.y.top.lockid % cfg.hostc)) =
      if h.y.top.lockid = l then [.rel] else [] := by
  obtain ⟨cs, hcs, rfl⟩ := sendwtnts_ok hs
  rw [outboxTo_map_same, wtntMsgs, chunkMsgs_eq (Packing.chunks_ne_nil hcs), requests_append]
  have hmore : requests l (cs.dropLast.map fun c =>
      Msg.wtnt h.y.top.lockid (c.map WtntEntry.toStack)) = [] := by
    apply requests_eq_nil
    intro msg hm
    obtain ⟨c, -, rfl⟩ := List.mem_map.mp hm
    rfl
  rw [hmore, List.nil_append]
  by_cases hl : h.y.top.lockid = l
  · simp [requests, Msg.lockRequest, hl]
  · simp [requests, Msg.lockRequest, hl]

theorem client_acquire (hok : StackOk h) (hpc : h.pc = .drain (.acq l)) :
    h.client l = .out ∧
      client l { h with y := { h.y with acqwait := true }, pc := .acqwait l } = .waiting := by
  have hids := hok.pc
  rw [hpc] at hids
  have hnot : l ∉ h.y.ids := (allowed_acq_iff.mp hids).2
  have hnot' : l ∉ ({ h.y with acqwait := true } : SynState).ids := hnot
  constructor
  · simp [client, Holds, hnot, hpc]
  · simp [client, Holds, hnot']

theorem client_release (hok : StackOk h) {m : MemState} {y : SynState}
    (hpc : h.pc = .drain (.rel l)) (hy : h.y.popstack = .ok y) :
    h.client l = .inside ∧ client l ⟨m, y, .app⟩ = .out ∧
      ∀ l' ≠ l, client l' ⟨m, y, .app⟩ = h.client l' := by
  have hallowed := hok.pc
  rw [hpc] at hallowed
  obtain ⟨-, rfl⟩ := hallowed
  obtain ⟨top, below, hbelow, rfl⟩ := popstack_ok hy
  have hids : h.y.ids = h.y.top.lockid :: (top :: below).map StackEntry.lockid := by
    rw [SynState.ids_eq, hbelow]
  have hnodup := hok.nodup
  rw [hids, List.nodup_cons] at hnodup
  refine ⟨by simp [client, Holds, hids], ?_, ?_⟩
  · have hnot := hnodup.1
    simpa [client, Holds, SynState.ids] using hnot
  · intro l' hne
    simp [client, Holds, SynState.ids, hbelow, hpc, hne]

theorem main_asks {a : Act} (hok : StackOk h) (hm : Main cfg pid h a h' out) :
    Asks (h.client l) (h'.client l) (requests l (outboxTo out (l % cfg.hostc))) := by
  have quiet : ∀ (h₂ : Host), h₂.y.ids = h.y.ids → (∀ l, h.pc ≠ .acqwait l) →
      (∀ l, h₂.pc ≠ .acqwait l) → Asks (h.client l) (h₂.client l) [] := by
    intro h₂ hids hpc hpc₂
    rw [client_eq_of hids hpc hpc₂]
    exact .stays _
  have hwaitreq : requests l (outboxTo [(0, .wait)] (l % cfg.hostc)) = [] := by
    apply requests_eq_nil
    intro msg hmem
    obtain ⟨-, rfl⟩ := Prod.mk.inj (List.mem_singleton.mp (mem_outboxTo.mp hmem))
    rfl
  cases hm with
  | load hpc hp hread => exact .stays _
  | store hpc hp hprot => exact quiet _ rfl (by simp [hpc]) (by simp [hpc])
  | homeFault hpc hp hfault hhome hm => exact quiet _ rfl (by simp [hpc]) (by simp [hpc])
  | cacheFault hpc hp hfault hhome hm =>
      have hreq : requests l (outboxTo out (l % cfg.hostc)) = [] := by
        apply requests_eq_nil
        intro msg hmem
        rw [mem_outboxTo] at hmem
        rcases cacheFault_out hm with rfl | ⟨temp, rfl⟩
        · cases hmem
        · obtain ⟨-, rfl⟩ := Prod.mk.inj (List.mem_singleton.mp hmem)
          rfl
      rw [hreq]
      exact quiet _ rfl (by simp [hpc]) (by simp)
  | faultEnd hpc hwait hm => exact quiet _ rfl (by simp [hpc]) (by simp)
  | single hpc hhost ha => exact .stays _
  | start hpc hhost ha hop hm =>
      obtain ⟨y, dm, hsave, rfl, rfl⟩ := endinterval_ok hm
      have hreq : requests l (outboxTo (senddiffs cfg dm) (l % cfg.hostc)) = [] := by
        apply requests_eq_nil
        intro msg hmem
        obtain ⟨k, -, -, heq⟩ := mem_senddiffs.mp (mem_outboxTo.mp hmem)
        obtain ⟨-, rfl⟩ := Prod.mk.inj heq
        rfl
      rw [hreq]
      exact quiet _ (savepages_sameButTop hsave).ids_eq (by simp [hpc]) (by simp)
  | scan hpc hi hm => exact quiet _ (scanHome_ok hm).2.ids_eq (by simp [hpc]) (by simp)
  | scanEnd hpc hi => exact quiet _ rfl (by simp [hpc]) (by simp)
  | @acquire l' hpc hwait =>
      by_cases hll : l' = l
      · subst hll
        obtain ⟨hout, hwaiting⟩ := client_acquire hok hpc
        rw [hout, hwaiting]
        simpa [requests, Msg.lockRequest] using Asks.ask
      · have hreq : requests l (outboxTo [(l' % cfg.hostc, Msg.acq l' (h.y.locks l').myscope)]
            (l % cfg.hostc)) = [] := by
          apply requests_eq_nil
          intro msg hmem
          obtain ⟨-, rfl⟩ := Prod.mk.inj (List.mem_singleton.mp (mem_outboxTo.mp hmem))
          simp [Msg.lockRequest, hll]
        rw [hreq]
        have hc : client l { h with y := { h.y with acqwait := true }, pc := .acqwait l' } =
            h.client l := by
          simp [client, Holds, SynState.ids, hpc, hll]
        rw [hc]
        exact .stays _
  | @acquired l' h₁ y hpc hwait hm hy =>
      have hc : client l ⟨h₁.m, y, .app⟩ = h.client l := by
        rw [pushstack_ok hy]
        by_cases hll : l' = l
        · simp [client, Holds, SynState.ids, hpc, hll, hwait]
        · simp [client, Holds, SynState.ids, hpc, hll, Ne.symm hll]
      exact hc ▸ .stays _
  | @release l' h₁ y out hpc hwait hout hm hy =>
      have hallowed := hok.pc
      rw [hpc] at hallowed
      obtain ⟨-, htop⟩ := hallowed
      obtain ⟨hin, hout', hother⟩ := client_release (m := h₁.m) hok hpc hy
      by_cases hll : l' = l
      · subst hll
        have hreq := requests_sendwtnts (l := l') hout
        rw [← htop, if_pos rfl] at hreq
        rw [hreq, hin, hout']
        exact .free
      · rw [hother l (Ne.symm hll)]
        have hreq : requests l (outboxTo out (l % cfg.hostc)) = [] := by
          apply requests_eq_nil
          intro msg hmem
          obtain ⟨cs, -, rfl⟩ := sendwtnts_ok hout
          obtain ⟨msg', hmem', heq⟩ := List.mem_map.mp (mem_outboxTo.mp hmem)
          obtain ⟨-, rfl⟩ := Prod.mk.inj heq
          obtain ⟨c, -, rfl | rfl⟩ := mem_chunkMsgs hmem'
          · rfl
          · simp [Msg.lockRequest, ← htop, hll]
        rw [hreq]
        exact .stays _
  | arrive hpc hwait hm =>
      obtain ⟨cs, -, rfl, rfl⟩ := arrive_ok hm
      have hreq : requests l (outboxTo ((wtntMsgs h.y.top.lockid
          (.barr h.y.top.lockid (h.y.locks hidelock).myscope) cs).map
            fun msg => (h.y.top.lockid % cfg.hostc, msg)) (l % cfg.hostc)) = [] := by
        apply requests_eq_nil
        intro msg hmem
        obtain ⟨msg', hmem', heq⟩ := List.mem_map.mp (mem_outboxTo.mp hmem)
        obtain ⟨-, rfl⟩ := Prod.mk.inj heq
        obtain ⟨c, -, rfl | rfl⟩ := mem_chunkMsgs hmem' <;> rfl
      rw [hreq]
      apply quiet
      · rfl
      · simp [hpc]
      · simp
  | barrsync hpc hwait hhost hflags =>
      rw [hwaitreq]
      apply quiet
      · rfl
      · simp [hpc]
      · simp
  | leave hpc hm =>
      obtain ⟨m₁, m₂, -, -, rfl⟩ := leaveBarrier_ok hm
      have hne : ∀ l, h.pc ≠ .acqwait l := by
        intro l'
        rcases hpc with ⟨hpc, -⟩ | ⟨hpc, -⟩ <;> simp [hpc]
      exact quiet _ rfl hne (by simp)
  | wait hpc hhost =>
      rw [hwaitreq]
      apply quiet
      · rfl
      · simp [hpc]
      · simp
  | waited hpc hwait => exact quiet _ rfl (by simp [hpc]) (by simp)
  | stay hpc hwait hhost => exact .stays _

/-! ## The messages of the server thread -/

theorem queue_pushAcq (lk : Lock) (scope : BitVec 32) :
    (pushAcq lk src scope).queue = lk.queue ++ [src] := by
  have hold : (List.range lk.acqc).map (upd lk.acqs lk.acqc src) =
      (List.range lk.acqc).map lk.acqs := by
    apply List.map_congr_left
    intro i hi
    exact upd_of_ne _ _ (List.mem_range.mp hi).ne
  rw [Lock.queue, pushAcq, List.range_succ, List.map_append, hold]
  simp [Lock.queue]

theorem queue_popAcq (lk : Lock) : (popAcq lk).queue = lk.queue.tail := by
  unfold Lock.queue popAcq
  cases lk.acqc with
  | zero => rfl
  | succ c =>
      rw [List.range_succ_eq_map, List.map_cons, List.tail_cons, List.map_map]
      apply List.map_congr_left
      intro i hi
      have hi : i < c := List.mem_range.mp hi
      simp [shift, hi]

theorem queue_eq_nil {lk : Lock} : lk.queue = [] ↔ lk.acqc = 0 := by
  simp [Lock.queue]

theorem head_queue {lk : Lock} (hc : 0 < lk.acqc) : ∃ q, lk.queue = lk.acqs 0 :: q := by
  unfold Lock.queue
  cases h : lk.acqc with
  | zero => omega
  | succ c => exact ⟨_, by rw [List.range_succ_eq_map, List.map_cons]⟩

theorem queue_recordRelease (y : SynState) (scope : BitVec 32) (ns : List StackNotice) :
    ((recordRelease y src l scope ns).locks l).queue = (y.locks l).queue.tail := by
  rw [recordRelease]
  simp only [SynState.setLock, upd_same, queue_popAcq]
  simp [SynState.recordwtnts, SynState.setLock, Lock.queue]

/-- The stream of a lock grant holds one grant. -/
theorem grantees_grantFirst {l' : Nat} (hg : h.grantFirst cfg l' = .ok out) :
    grantees l out = if l' = l then [(h.y.locks l').acqs 0] else [] := by
  obtain ⟨cs, hcs, rfl⟩ := grantFirst_ok hg
  rw [grantMsgs, chunkMsgs_eq (Packing.chunks_ne_nil hcs), grantees, List.map_append,
    List.filter_append, List.map_append]
  have hmore : ((cs.dropLast.map fun c => Msg.invld l' (c.map WtntEntry.toGrant)).map fun msg =>
      ((h.y.locks l').acqs 0, msg)).filter (fun x => x.2.isGrant l) = [] := by
    rw [List.filter_eq_nil_iff]
    intro x hx
    rw [List.map_map, List.mem_map] at hx
    obtain ⟨c, -, rfl⟩ := hx
    simp [Msg.isGrant]
  rw [hmore]
  by_cases hl : l' = l
  · simp [Msg.isGrant, hl]
  · simp [Msg.isGrant, hl]

theorem not_isGrant_bcastserver {root level : Nat} {msg : Msg} (hb : msg.Broadcast)
    {x : Nat × Msg} (hx : x ∈ bcastserver cfg pid root level msg) : x.2.isGrant l = false := by
  have hmsg := mem_bcastserver hx
  by_cases hlevel : level - 1 = 0
  · rw [if_pos hlevel] at hmsg
    rw [hmsg]
    cases hb <;> rfl
  · rw [if_neg hlevel] at hmsg
    rw [hmsg]
    rfl

theorem not_isGrant_broadcast {msg : Msg} (hb : msg.Broadcast) {x : Nat × Msg}
    (hx : x ∈ broadcast cfg pid msg) : x.2.isGrant l = false := by
  unfold broadcast at hx
  split at hx
  · exact not_isGrant_bcastserver hb hx
  · obtain ⟨k, -, rfl⟩ := List.mem_map.mp hx
    cases hb <;> rfl

/-- A message that is no request for lock `l` leaves its queue alone and
triggers no grant of it. -/
theorem served_neutral {msg : Msg} (hl : l ≠ hidelock) (hin : Routed cfg src pid msg)
    (hs : Served cfg pid h src rnd msg h' out) (hnone : msg.lockRequest l = none) :
    (h'.y.locks l).queue = (h.y.locks l).queue ∧ grantees l out = [] := by
  cases hs with
  | diff hm => exact ⟨rfl, rfl⟩
  | getp hm =>
      obtain ⟨wv, data, extra, rfl⟩ := getpserver_out hm
      exact ⟨rfl, rfl⟩
  | @acqFirst l' scope out hm hc hout =>
      have hne : l' ≠ l := by simpa [Msg.lockRequest] using hnone
      refine ⟨by simp [SynState.setLock, Ne.symm hne], ?_⟩
      rw [grantees_grantFirst hout, if_neg hne]
  | @acqQueue l' scope hm hc =>
      have hne : l' ≠ l := by simpa [Msg.lockRequest] using hnone
      exact ⟨by simp [SynState.setLock, Ne.symm hne], rfl⟩
  | @relNext l' scope ns out hm hsrc hc hout =>
      have hne : l' ≠ l := by simpa [Msg.lockRequest] using hnone
      refine ⟨?_, ?_⟩
      · simp [recordRelease, SynState.recordwtnts, SynState.setLock, Ne.symm hne]
      · rw [grantees_grantFirst hout, if_neg hne]
  | @relLast l' scope ns hm hsrc hc =>
      have hne : l' ≠ l := by simpa [Msg.lockRequest] using hnone
      exact ⟨by simp [recordRelease, SynState.recordwtnts, SynState.setLock, Ne.symm hne], rfl⟩
  | @acqgrant l' scope ns m hm =>
      refine ⟨?_, rfl⟩
      by_cases hll : l = l'
      · simp [SynState.setLock, hll, Lock.queue]
      · simp [SynState.setLock, hll]
  | @wtnt l' ns hm =>
      refine ⟨?_, rfl⟩
      by_cases hll : l = l'
      · simp [SynState.recordwtnts, SynState.setLock, hll, Lock.queue]
      · simp [SynState.recordwtnts, SynState.setLock, hll]
  | barrCount hm hc => exact ⟨by simp [SynState.recordwtnts, SynState.setLock, hl], rfl⟩
  | barrLast hm hc hout =>
      refine ⟨by simp [SynState.recordwtnts, SynState.setLock, hl], ?_⟩
      obtain ⟨cs, -, rfl⟩ := grantbarr_ok hout
      apply grantees_eq_nil
      intro x hx
      obtain ⟨msg, hmsg, hx⟩ := List.mem_flatMap.mp hx
      obtain ⟨c, -, rfl | rfl⟩ := mem_chunkMsgs hmsg
      · exact not_isGrant_broadcast (.invld _) hx
      · exact not_isGrant_broadcast (.barrgrant _ _) hx
  | barrgrant hm =>
      obtain ⟨m, -, rfl⟩ := barrgrantserver_ok hm
      have hend : ((h.y.endBarrier cfg pid).locks l).queue = (h.y.locks l).queue := by
        unfold SynState.endBarrier SynState.clearlocks
        split
        · rfl
        · simp only
          split <;> rfl
      refine ⟨?_, rfl⟩
      rw [← hend]
      rename_i l' _ _
      by_cases hll : l = l'
      · simp [SynState.setLock, hll, Lock.queue]
      · simp [SynState.setLock, hll]
  | waitLast hc =>
      refine ⟨rfl, grantees_eq_nil ?_⟩
      intro x hx
      exact not_isGrant_broadcast .waitgrant hx
  | bcast =>
      refine ⟨rfl, grantees_eq_nil ?_⟩
      intro x hx
      exact not_isGrant_bcastserver hin hx
  | _ => exact ⟨rfl, rfl⟩

/-- Only a grant lets the main thread out of `acquire`. -/
theorem served_client {msg : Msg} (hs : Served cfg pid h src rnd msg h' out)
    (hwait : ∀ l', msg.isGrant l' → h.pc = .acqwait l' ∧ l' ≠ l) :
    h'.client l = h.client l := by
  have hu := served_undisturbed hs
  have hids : h'.y.ids = h.y.ids := by
    rw [SynState.ids, SynState.ids, hu.top, hu.below]
  have hgrant : ∀ l' scope ns, msg = .acqgrant l' scope ns → h'.client l = h.client l := by
    rintro l' scope ns rfl
    obtain ⟨hpc, hne⟩ := hwait l' (by simp [Msg.isGrant])
    simp only [client, Holds, hids, hu.pc, hpc, Pc.acqwait.injEq, hne, false_and]
  have hsame : h'.y.acqwait = h.y.acqwait → h'.client l = h.client l := by
    intro ha
    have hholds : h'.Holds l ↔ h.Holds l := by simp only [Holds, hids, hu.pc, ha]
    simp only [client, hholds, hu.pc]
  cases hs with
  | acqgrant hm => exact hgrant _ _ _ rfl
  | barrgrant hm =>
      obtain ⟨m, -, rfl⟩ := barrgrantserver_ok hm
      apply hsame
      rw [SynState.endBarrier_eq]
      rfl
  | relNext hl hsrc hc hout =>
      apply hsame
      rw [recordRelease, noteScope_eq]
      rfl
  | relLast hl hsrc hc =>
      apply hsame
      rw [recordRelease, noteScope_eq]
      rfl
  | _ => exact hsame rfl

end Host

/-! ## The refinement -/

/-- The step of one main thread, seen from lock `l`. -/
theorem lockView_main {i : Nat} {a : Act} {h' : Host} {out : Out} (log : LockLog)
    (hok : Host.StackOk (s.host i)) (hm : Host.Main cfg i (s.host i) a h' out) :
    lockView cfg (s.put i h' out) log l = lockView cfg s log l ∨
      LockQueue.Step (lockView cfg s log l) (lockView cfg (s.put i h' out) log l) := by
  have hasks := Host.main_asks (l := l) hok hm
  have hgrant : ∀ b, grants l (outboxTo out b) = 0 := by
    intro b
    apply grants_eq_zero
    intro msg hmem
    have hreq := (Host.main_routed hok hm (mem_outboxTo.mp hmem)).1
    cases msg <;> first | rfl | cases hreq
  -- what the step does to the view, with the client and the requests left open
  have hview : lockView cfg (s.put i h' out) log l =
      { lockView cfg s log l with
        up := LockQueue.set (lockView cfg s log l).up i
          ((lockView cfg s log l).up i ++ requests l (outboxTo out (l % cfg.hostc)))
        client := LockQueue.set (lockView cfg s log l).client i (h'.client l) } := by
    apply LockQueue.State.ext
    · have hlocks := Host.main_locks hm
      by_cases hi : l % cfg.hostc = i
      · simp [lockView, hi, hlocks]
      · simp [lockView, State.put, hi]
    · funext b
      by_cases hb : b = i
      · simp [lockView, hb, send_same]
      · simp [lockView, hb, send_of_ne]
    · funext b
      by_cases hi : l % cfg.hostc = i
      · simp [lockView, hi, send_same, hgrant]
      · simp [lockView, send_of_ne _ _ _ hi]
    · funext b
      by_cases hb : b = i
      · simp [lockView, hb]
      · simp [lockView, State.put, hb]
    · rfl
    · rfl
  rw [hview]
  generalize hc : (s.host i).client l = c at hasks
  generalize hc' : h'.client l = c' at hasks ⊢
  generalize requests l (outboxTo out (l % cfg.hostc)) = rs at hasks ⊢
  have hclient : (lockView cfg s log l).client i = c := hc
  cases hasks with
  | stays =>
      left
      apply LockQueue.State.ext
      · rfl
      · funext b
        by_cases hb : b = i
        · simp [hb]
        · simp [hb]
      · rfl
      · funext b
        by_cases hb : b = i
        · simp [hb, hclient]
        · simp [hb]
      · rfl
      · rfl
  | ask => exact Or.inr (.ask i hclient)
  | free => exact Or.inr (.free i hclient)

/-- What a step of a server thread does to lock `l`, with the queue left open. -/
theorem lockView_served {src dst : Nat} {rnd : List Nat} {msg : Msg} {h' : Host} {out : Out}
    (log : LockLog) (hin : Routed cfg src dst msg) (hs : Host.Served cfg dst (s.host dst) src rnd msg h' out) :
    lockView cfg ({ s with net := drop s.net src dst }.put dst h' out) log l =
      { queue := if l % cfg.hostc = dst then (h'.y.locks l).queue
          else ((s.host (l % cfg.hostc)).y.locks l).queue
        up := fun a => requests l (drop s.net src dst a (l % cfg.hostc))
        down := fun a => grants l (drop s.net src dst (l % cfg.hostc) a) +
          if l % cfg.hostc = dst then (grantees l out).count a else 0
        client := LockQueue.set (fun a => (s.host a).client l) dst (h'.client l)
        asked := log.asked l
        granted := log.granted l } := by
  have hreq : ∀ b, requests l (outboxTo out b) = [] := by
    intro b
    apply requests_eq_nil
    intro msg' hmem
    have hkind := (Host.served_routed hin hs (mem_outboxTo.mp hmem)).1
    cases msg' <;> first | rfl | cases hkind
  apply LockQueue.State.ext
  · by_cases hd : l % cfg.hostc = dst
    · simp [lockView, hd]
    · simp [lockView, State.put, hd]
  · funext a
    by_cases ha : a = dst
    · simp [lockView, ha, send_same, hreq]
    · simp [lockView, send_of_ne _ _ _ ha]
  · funext a
    by_cases hd : l % cfg.hostc = dst
    · simp [lockView, hd, send_same, grants_outboxTo]
    · simp [lockView, hd, send_of_ne _ _ _ hd]
  · funext a
    by_cases ha : a = dst
    · simp [lockView, ha]
    · simp [lockView, State.put, ha]
  · rfl
  · rfl

section Served

variable {src dst : Nat} {rnd : List Nat} {msg : Msg} {rest : List Msg} {h' : Host} {out : Out}
  {log : LockLog}

/-- A grant in flight finds its host waiting for it. -/
theorem grant_waiting (hinv : LockQueue.Inv (lockView cfg s log l))
    (hnet : s.net src dst = msg :: rest) (hin : Routed cfg src dst msg)
    (hg : msg.isGrant l = true) :
    src = l % cfg.hostc ∧ (s.host dst).pc = .acqwait l ∧
      0 < (lockView cfg s log l).down dst := by
  have hsrc : src = l % cfg.hostc := by
    cases msg with
    | acqgrant l' scope ns =>
        have hl : l' = l := by simpa [Msg.isGrant] using hg
        exact hl ▸ hin.2
    | _ => cases hg
  have hdown : 0 < (lockView cfg s log l).down dst := by
    simp only [lockView, ← hsrc, hnet, grants, List.countP_cons, hg, if_true]
    omega
  refine ⟨hsrc, ?_, hdown⟩
  have hwaiting := (hinv.down_waiting hdown).1
  simp only [lockView, Host.client] at hwaiting
  by_contra hpc
  rw [if_neg hpc] at hwaiting
  split at hwaiting <;> cases hwaiting

theorem lockView_other (hl : l ≠ hidelock)
    (hinv : ∀ l ≠ hidelock, LockQueue.Inv (lockView cfg s log l))
    (hnet : s.net src dst = msg :: rest) (hin : Routed cfg src dst msg)
    (hs : Host.Served cfg dst (s.host dst) src rnd msg h' out)
    (hnone : msg.lockRequest l = none) (hnot : msg.isGrant l = false) :
    lockView cfg ({ s with net := drop s.net src dst }.put dst h' out)
      ((log.ask src (some msg)).grant out) l = lockView cfg s log l := by
  obtain ⟨hqueue, hgrantees⟩ := Host.served_neutral hl hin hs hnone
  have hclient : h'.client l = (s.host dst).client l := by
    apply Host.served_client hs
    intro l' hg
    have hl' : l' ≠ hidelock := by
      cases msg with
      | acqgrant l₁ scope ns =>
          have hll : l₁ = l' := by simpa [Msg.isGrant] using hg
          have hlt := hin.1
          simp only [hidelock]
          omega
      | _ => cases hg
    refine ⟨(grant_waiting (hinv l' hl') hnet hin hg).2.1, ?_⟩
    rintro rfl
    rw [hg] at hnot
    cases hnot
  have hasked : ((log.ask src (some msg)).grant out).asked l = log.asked l := by
    cases msg with
    | acq l' scope =>
        have hne : l' ≠ l := by simpa [Msg.lockRequest] using hnone
        simp [LockLog.ask, LockLog.grant, Ne.symm hne]
    | _ => rfl
  have hgranted : ((log.ask src (some msg)).grant out).granted l = log.granted l := by
    have hask : (log.ask src (some msg)).granted = log.granted := by
      cases msg <;> rfl
    simp [LockLog.grant, hask, hgrantees]
  rw [lockView_served _ hin hs, hclient, LockQueue.set_eq_self]
  apply LockQueue.State.ext
  · by_cases hd : l % cfg.hostc = dst
    · simp [lockView, hd, hqueue]
    · simp [hd, lockView]
  · funext a
    exact requests_drop hnet hnone a _
  · funext a
    simp only [hgrantees, List.count_nil, ite_self, Nat.add_zero]
    exact grants_drop hnet hnot _ a
  · rfl
  · exact hasked
  · exact hgranted

theorem lockView_enter (hl : l ≠ hidelock) (hinv : LockQueue.Inv (lockView cfg s log l))
    (hnet : s.net src dst = msg :: rest) (hin : Routed cfg src dst msg)
    (hs : Host.Served cfg dst (s.host dst) src rnd msg h' out) (hg : msg.isGrant l = true) :
    LockQueue.Step (lockView cfg s log l)
      (lockView cfg ({ s with net := drop s.net src dst }.put dst h' out)
        ((log.ask src (some msg)).grant out) l) := by
  obtain ⟨hsrc, hpc, hdown⟩ := grant_waiting hinv hnet hin hg
  have hnone : msg.lockRequest l = none := by
    cases msg <;> first | rfl | cases hg
  obtain ⟨hqueue, hgrantees⟩ := Host.served_neutral hl hin hs hnone
  have hu := Host.served_undisturbed hs
  have hinside : h'.client l = .inside := by
    have hwait : h'.y.acqwait = false := by
      cases hs with
      | acqgrant hm => rfl
      | _ => cases hg
    have hholds : h'.Holds l := Or.inr ⟨hu.pc ▸ hpc, hwait⟩
    simp [Host.client, hholds]
  have hlog : (log.ask src (some msg)).grant out = log := by
    cases hs with
    | acqgrant hm => simp [LockLog.ask, LockLog.grant, grantees]
    | _ => cases hg
  have hstep := LockQueue.Step.enter dst hdown
  rw [hlog, lockView_served _ hin hs]
  convert hstep using 1
  apply LockQueue.State.ext
  · by_cases hd : l % cfg.hostc = dst
    · simp [lockView, hd, hqueue]
    · simp [hd, lockView]
  · funext a
    exact requests_drop hnet hnone a _
  · funext a
    simp only [hgrantees, List.count_nil, ite_self, Nat.add_zero, lockView, ← hsrc]
    by_cases ha : a = dst
    · subst ha
      rw [drop_same hnet, LockQueue.set_same, hnet]
      simp [grants, hg]
    · rw [drop_of_ne _ (by simp [ha]), LockQueue.set_of_ne _ _ ha]
  · funext a
    by_cases ha : a = dst
    · simp [ha, hinside]
    · simp [ha, lockView]
  · rfl
  · rfl

theorem up_handled (log : LockLog) {r : LockQueue.Request} (hin : Routed cfg src dst msg)
    (hnet : s.net src dst = msg :: rest) (hr : msg.lockRequest l = some r) :
    dst = l % cfg.hostc ∧ (lockView cfg s log l).up src = r :: requests l rest ∧
      (fun a => requests l (drop s.net src dst a (l % cfg.hostc))) =
        LockQueue.set (lockView cfg s log l).up src (requests l rest) := by
  have hdst : dst = l % cfg.hostc := by
    cases msg with
    | acq l' scope =>
        have hl : l' = l := by simp_all [Msg.lockRequest]
        exact hl ▸ hin.2
    | rel l' scope ns =>
        have hl : l' = l := by simp_all [Msg.lockRequest]
        exact hl ▸ hin.2
    | _ => cases hr
  subst hdst
  refine ⟨rfl, ?_, ?_⟩
  · simp [lockView, hnet, requests, hr]
  · funext a
    by_cases ha : a = src
    · subst ha
      rw [drop_same hnet, LockQueue.set_same]
    · rw [drop_of_ne _ (by simp [ha]), LockQueue.set_of_ne _ _ ha]
      rfl

theorem grants_handled {r : LockQueue.Request} (hnet : s.net src dst = msg :: rest)
    (hr : msg.lockRequest l = some r) (a b : Nat) :
    grants l (drop s.net src dst a b) = grants l (s.net a b) := by
  apply grants_drop hnet
  cases msg <;> first | rfl | cases hr

theorem lockView_acq {scope : BitVec 32} (hnet : s.net src dst = .acq l scope :: rest)
    (hin : Routed cfg src dst (.acq l scope))
    (hs : Host.Served cfg dst (s.host dst) src rnd (.acq l scope) h' out) :
    LockQueue.Step (lockView cfg s log l)
      (lockView cfg ({ s with net := drop s.net src dst }.put dst h' out)
        ((log.ask src (some (.acq l scope))).grant out) l) := by
  have hr : (Msg.acq l scope).lockRequest l = some .acq := by simp [Msg.lockRequest]
  obtain ⟨rfl, hup, hup'⟩ := up_handled log hin hnet hr
  have hdown := grants_handled hnet hr
  have hclient : h'.client l = (s.host (l % cfg.hostc)).client l :=
    Host.served_client hs (by simp [Msg.isGrant])
  have hqueue : (h'.y.locks l).queue = (lockView cfg s log l).queue ++ [src] := by
    cases hs <;> simp [SynState.setLock, Host.queue_pushAcq, lockView]
  have hlog : ((log.ask src (some (.acq l scope))).grant out).asked l = log.asked l ++ [src] := by
    simp [LockLog.ask, LockLog.grant]
  have hlog' : ((log.ask src (some (.acq l scope))).grant out).granted l =
      log.granted l ++ grantees l out := rfl
  rw [lockView_served _ hin hs, hlog, hlog', hqueue, hup', hclient, LockQueue.set_eq_self,
    if_pos rfl]
  simp only [hdown, if_true]
  cases hs with
  | acqFirst hl hc hout =>
      have hempty : (lockView cfg s log l).queue = [] := Host.queue_eq_nil.mpr hc
      have hgrantees := Host.grantees_grantFirst (l := l) hout
      rw [if_pos rfl] at hgrantees
      have hfirst : ((((s.host (l % cfg.hostc)).y.setLock l
          (Host.pushAcq ((s.host (l % cfg.hostc)).y.locks l) src scope)).locks l).acqs 0) = src := by
        simp [SynState.setLock, Host.pushAcq, hc]
      rw [hfirst] at hgrantees
      have hstep := LockQueue.Step.handleAcq src hup hempty
      convert hstep using 1
      apply LockQueue.State.ext
      · simp [hempty, LockQueue.State.grantHead]
      · rfl
      · funext a
        by_cases ha : a = src
        · simp [ha, hgrantees, LockQueue.State.grantHead, lockView]
        · simp [ha, hgrantees, LockQueue.State.grantHead, lockView, Ne.symm ha]
      · rfl
      · rfl
      · simp [hgrantees, LockQueue.State.grantHead, lockView]
  | acqQueue hl hc =>
      have hne : (lockView cfg s log l).queue ≠ [] := fun h => hc (Host.queue_eq_nil.mp h)
      have hstep := LockQueue.Step.queueAcq src hup hne
      convert hstep using 1
      apply LockQueue.State.ext
      · rfl
      · rfl
      · funext a
        simp [grantees, lockView]
      · rfl
      · rfl
      · simp [grantees, lockView]

theorem lockView_rel {scope : BitVec 32} {ns : List StackNotice}
    (hnet : s.net src dst = .rel l scope ns :: rest)
    (hin : Routed cfg src dst (.rel l scope ns))
    (hs : Host.Served cfg dst (s.host dst) src rnd (.rel l scope ns) h' out) :
    LockQueue.Step (lockView cfg s log l)
      (lockView cfg ({ s with net := drop s.net src dst }.put dst h' out)
        ((log.ask src (some (.rel l scope ns))).grant out) l) := by
  have hr : (Msg.rel l scope ns).lockRequest l = some .rel := by simp [Msg.lockRequest]
  obtain ⟨rfl, hup, hup'⟩ := up_handled log hin hnet hr
  have hdown := grants_handled hnet hr
  have hclient : h'.client l = (s.host (l % cfg.hostc)).client l :=
    Host.served_client hs (by simp [Msg.isGrant])
  have hqueue : (h'.y.locks l).queue = (lockView cfg s log l).queue.tail := by
    cases hs <;> exact Host.queue_recordRelease _ _ _
  have hlog : ((log.ask src (some (.rel l scope ns))).grant out).granted l =
      log.granted l ++ grantees l out := rfl
  have hlog' : ((log.ask src (some (.rel l scope ns))).grant out).asked l = log.asked l := rfl
  have hdown' : (lockView cfg s log l).down = fun a => grants l (s.net (l % cfg.hostc) a) := rfl
  have hgranted : (lockView cfg s log l).granted = log.granted l := rfl
  have hstep := LockQueue.Step.handleRel src hup
  rw [lockView_served _ hin hs, hlog, hlog', hqueue, hup', hclient, LockQueue.set_eq_self,
    if_pos rfl]
  simp only [hdown, if_true]
  convert hstep using 1
  cases hs with
  | @relNext _ _ _ out hl hsrc hc hout =>
      have hgrantees := Host.grantees_grantFirst (l := l) hout
      rw [if_pos rfl] at hgrantees
      have hacqc := Host.acqc_recordRelease (s.host (l % cfg.hostc)).y src l scope ns
      have hpos : 0 < ((Host.recordRelease
          (s.host (l % cfg.hostc)).y src l scope ns).locks l).acqc := by omega
      obtain ⟨q, hq⟩ := Host.head_queue hpos
      have htail : (lockView cfg s log l).queue.tail = _ := hqueue.symm.trans hq
      generalize ((Host.recordRelease (s.host (l % cfg.hostc)).y src l scope ns).locks l).acqs 0 =
        b at htail hgrantees
      apply LockQueue.State.ext
      · simp
      · simp
      · funext a
        by_cases ha : a = b
        · simp [ha, hgrantees, LockQueue.State.grantHead, htail, hdown']
        · simp [ha, hgrantees, LockQueue.State.grantHead, htail, hdown', Ne.symm ha]
      · simp [lockView]
      · simp [lockView]
      · simp [hgrantees, LockQueue.State.grantHead, htail, hgranted]
  | relLast hl hsrc hc =>
      have hacqc := Host.acqc_recordRelease (s.host (l % cfg.hostc)).y src l scope ns
      have hempty : (lockView cfg s log l).queue.tail = [] := by
        rw [← hqueue, Host.queue_eq_nil]
        simp only [hacqc]
        omega
      apply LockQueue.State.ext
      · simp
      · simp
      · funext a
        simp [LockQueue.State.grantHead, hempty, grantees, hdown']
      · simp [lockView]
      · simp [lockView]
      · simp [LockQueue.State.grantHead, hempty, grantees, hgranted]

end Served

/-- Seen from a lock, a step of the system is a step of its manager or nothing. -/
theorem lockView_step {s s' : State} {e : Event} {log : LockLog} (hs : (system cfg).Reach s)
    (hinv : ∀ l ≠ hidelock, LockQueue.Inv (lockView cfg s log l)) (h : step cfg s e = .ok s')
    (hl : l ≠ hidelock) :
    lockView cfg s' ((lockHistory cfg).obs log s e s') l = lockView cfg s log l ∨
      LockQueue.Step (lockView cfg s log l)
        (lockView cfg s' ((lockHistory cfg).obs log s e s') l) := by
  rcases step_view h with ⟨i, a, hst, out, rfl, -, hm, hsent, rfl⟩ |
    ⟨src, dst, rnd, msg, rest, hst, out, rfl, hnet, hm, hsent, rfl⟩
  · have hlog : (lockHistory cfg).obs log s (.main i a) (s.put i hst out) = log := by
      have hnone : ∀ l, grantees l out = [] := by
        intro l
        apply grantees_eq_nil
        intro x hx
        have hreq := (Host.main_routed (reach_stackOk hs i) hm hx).1
        cases hmsg : x.2 <;> first | rfl | (rw [hmsg] at hreq; cases hreq)
      simp [lockHistory, hsent, handled, LockLog.ask, LockLog.grant, hnone]
    rw [hlog]
    exact lockView_main log (reach_stackOk hs i) hm
  · have hin : Routed cfg src dst msg := by
      apply reach_routed hs
      rw [hnet]
      exact List.mem_cons_self
    have hlog : (lockHistory cfg).obs log s (.deliver src dst rnd)
        ({ s with net := drop s.net src dst }.put dst hst out) =
        (log.ask src (some msg)).grant out := by
      simp [lockHistory, hsent, handled, hnet, Event.source]
    rw [hlog]
    cases hr : msg.lockRequest l with
    | none =>
        cases hg : msg.isGrant l with
        | false => exact Or.inl (lockView_other hl hinv hnet hin hm hr hg)
        | true => exact Or.inr (lockView_enter hl (hinv l hl) hnet hin hm hg)
    | some r =>
        right
        cases msg with
        | acq l' scope =>
            obtain rfl : l' = l := by simp_all [Msg.lockRequest]
            exact lockView_acq hnet hin hm
        | rel l' scope ns =>
            obtain rfl : l' = l := by simp_all [Msg.lockRequest]
            exact lockView_rel hnet hin hm
        | _ => cases hr

theorem lockView_init (cfg : Config) (l : Nat) :
    lockView cfg (initState cfg) (lockHistory cfg).start l = LockQueue.init ∨ l = hidelock := by
  by_cases hl : l = hidelock
  · exact Or.inr hl
  · left
    apply LockQueue.State.ext
    · rfl
    · rfl
    · rfl
    · funext a
      simp [lockView, initState, initHost, initsyn, Host.client, Host.Holds, SynState.ids, hl,
        LockQueue.init]
    · rfl
    · rfl

/-- Every lock keeps the invariant of the lock manager. -/
theorem lockView_inv {x : State × LockLog} (hx : ((system cfg).withHist (lockHistory cfg)).Reach x)
    (hl : l ≠ hidelock) : LockQueue.Inv (lockView cfg x.1 x.2 l) := by
  revert l
  refine hx.invariant (I := fun x => ∀ {l}, l ≠ hidelock → LockQueue.Inv (lockView cfg x.1 x.2 l))
    ?_ ?_
  · intro l hl
    rcases lockView_init cfg l with h | h
    · exact h ▸ LockQueue.inv_init
    · exact absurd h hl
  · intro x e x' hreach hinv hnext l hl
    obtain ⟨hstep, hlog⟩ := hnext
    rw [hlog]
    rcases lockView_step hreach.forget (fun l hl => hinv hl) hstep hl with h | h
    · rw [h]
      exact hinv hl
    · exact LockQueue.inv_step (hinv hl) h

/-! ## Mutual exclusion -/

theorem client_lt {s : State} (hs : (system cfg).Reach s) (hl : l ≠ hidelock) {i : Nat}
    (hi : (s.host i).client l ≠ .out) : i < cfg.hostc := by
  have hidle : cfg.hostc ≤ i → (s.host i).y.ids = [hidelock] ∧ (s.host i).pc = .app := by
    refine reach_host
      (P := fun i h => cfg.hostc ≤ i → h.y.ids = [hidelock] ∧ h.pc = .app) ?_ ?_ ?_ hs i
    · exact fun i _ => ⟨rfl, rfl⟩
    · intro i h a h' out hi _ _ hle
      omega
    · intro i h src rnd msg h' out hidle hm hle
      have hu := Host.served_undisturbed hm
      rw [SynState.ids, hu.top, hu.below, hu.pc]
      exact hidle hle
  by_contra hle
  obtain ⟨hids, hpc⟩ := hidle (by omega)
  exact hi (by simp [Host.client, Host.Holds, hids, hpc, hl])

theorem request_lt {s : State} (hs : (system cfg).Reach s) {a b : Nat} {msg : Msg}
    (hm : msg ∈ s.net a b) (hreq : msg.isRequest = true) : a < cfg.hostc := by
  have hboth : Routed cfg a b msg ∧ (msg.isRequest = true → a < cfg.hostc) := by
    refine reach_net
      (P := fun a b msg => Routed cfg a b msg ∧ (msg.isRequest = true → a < cfg.hostc)) ?_ ?_ hs hm
    · intro s i act h' out hreach hi hmain d msg hmem
      exact ⟨(Host.main_routed (reach_stackOk hreach i) hmain hmem).2, fun _ => hi⟩
    · intro s src dst rnd msg h' out _ hin hserved d msg' hmem
      have hr := Host.served_routed hin.1 hserved hmem
      exact ⟨hr.2, fun hreq => by rw [hr.1] at hreq; cases hreq⟩
  exact hboth.2 hreq

theorem mem_of_mem_requests {r : LockQueue.Request} {ms : List Msg} (h : r ∈ requests l ms) :
    ∃ msg ∈ ms, msg.isRequest = true := by
  obtain ⟨msg, hmem, hr⟩ := List.mem_filterMap.mp h
  refine ⟨msg, hmem, ?_⟩
  cases msg <;> first | rfl | cases hr

section Exclusion

variable {x : State × LockLog} (hx : ((system cfg).withHist (lockHistory cfg)).Reach x)

include hx

theorem mem_queue_lt (hl : l ≠ hidelock) {a : Nat}
    (ha : a ∈ ((x.1.host (l % cfg.hostc)).y.locks l).queue) : a < cfg.hostc := by
  have hinv := lockView_inv hx hl
  rcases hinv.mem_queue ha with hout | hup
  · exact client_lt hx.forget hl hout
  · have hmem : LockQueue.Request.rel ∈ requests l (x.1.net a (l % cfg.hostc)) := by
      have hup' : requests l (x.1.net a (l % cfg.hostc)) = [.rel] := hup
      rw [hup']
      exact List.mem_cons_self
    obtain ⟨msg, hmsg, hreq⟩ := mem_of_mem_requests hmem
    exact request_lt hx.forget hmsg hreq

theorem length_queue_le (hl : l ≠ hidelock) :
    ((x.1.host (l % cfg.hostc)).y.locks l).queue.length ≤ cfg.hostc := by
  have hsub : ((x.1.host (l % cfg.hostc)).y.locks l).queue ⊆ List.range cfg.hostc :=
    fun a ha => List.mem_range.mpr (mem_queue_lt hx hl ha)
  have hle := ((lockView_inv hx hl).nodup.subperm hsub).length_le
  rwa [List.length_range] at hle

theorem acq_room (hl : l ≠ hidelock) {a : Nat} {scope : BitVec 32} {rest : List Msg}
    (hnet : x.1.net a (l % cfg.hostc) = .acq l scope :: rest) :
    ((x.1.host (l % cfg.hostc)).y.locks l).acqc < cfg.hostc := by
  have hinv := lockView_inv hx hl
  have hnew : a ∉ ((x.1.host (l % cfg.hostc)).y.locks l).queue := by
    have hup : (lockView cfg x.1 x.2 l).up a = .acq :: requests l rest := by
      simp [lockView, hnet, requests, Msg.lockRequest]
    exact hinv.acq_not_mem hup
  have ha : a < cfg.hostc :=
    request_lt hx.forget (b := l % cfg.hostc) (by rw [hnet]; exact List.mem_cons_self) rfl
  have hnodup : (a :: ((x.1.host (l % cfg.hostc)).y.locks l).queue).Nodup :=
    List.nodup_cons.mpr ⟨hnew, hinv.nodup⟩
  have hsub : a :: ((x.1.host (l % cfg.hostc)).y.locks l).queue ⊆ List.range cfg.hostc := by
    intro b hb
    rw [List.mem_range]
    rcases List.mem_cons.mp hb with rfl | hb
    · exact ha
    · exact mem_queue_lt hx hl hb
  have hle := (hnodup.subperm hsub).length_le
  simp only [List.length_cons, List.length_range, Lock.queue, List.length_map] at hle
  omega

theorem rel_first (hl : l ≠ hidelock) {a : Nat} {scope : BitVec 32} {ns : List StackNotice}
    {rest : List Msg} (hnet : x.1.net a (l % cfg.hostc) = .rel l scope ns :: rest) :
    a = ((x.1.host (l % cfg.hostc)).y.locks l).acqs 0 := by
  have hhead : ((x.1.host (l % cfg.hostc)).y.locks l).queue.head? = some a := by
    have hup : (lockView cfg x.1 x.2 l).up a = .rel :: requests l rest := by
      simp [lockView, hnet, requests, Msg.lockRequest]
    exact (lockView_inv hx hl).rel_head hup
  have hpos : 0 < ((x.1.host (l % cfg.hostc)).y.locks l).acqc := by
    by_contra hc
    rw [Host.queue_eq_nil.mpr (by omega)] at hhead
    cases hhead
  obtain ⟨q, hq⟩ := Host.head_queue hpos
  rw [hq, List.head?_cons, Option.some.injEq] at hhead
  exact hhead.symm

/-- Mutual exclusion and FIFO granting of every lock in every run.  At most one
host holds the lock; the grants are the handled requests in order, up to those
that wait behind the first; the queue holds no host twice and at most `hostc`
hosts; the next request finds room in it; and a release comes from `acqs[0]`. -/
theorem lock_exclusive_fifo {l : Nat} (hl : l < Maxlocks) :
    (∀ a b, (x.1.host a).Holds l → (x.1.host b).Holds l → a = b) ∧
    x.2.asked l = x.2.granted l ++ ((x.1.host (l % cfg.hostc)).y.locks l).queue.tail ∧
    ((x.1.host (l % cfg.hostc)).y.locks l).queue.Nodup ∧
    ((x.1.host (l % cfg.hostc)).y.locks l).acqc ≤ cfg.hostc ∧
    (∀ a scope rest, x.1.net a (l % cfg.hostc) = .acq l scope :: rest →
      ((x.1.host (l % cfg.hostc)).y.locks l).acqc < cfg.hostc) ∧
    ∀ a scope ns rest, x.1.net a (l % cfg.hostc) = .rel l scope ns :: rest →
      a = ((x.1.host (l % cfg.hostc)).y.locks l).acqs 0 := by
  have hne : l ≠ hidelock := Nat.ne_of_lt hl
  have hinv := lockView_inv hx hne
  have hinside : ∀ a, (x.1.host a).Holds l → (lockView cfg x.1 x.2 l).client a = .inside := by
    intro a ha
    simp [lockView, Host.client, ha]
  have hlen := length_queue_le hx hne
  rw [Lock.queue, List.length_map, List.length_range] at hlen
  refine ⟨?_, hinv.fifo, hinv.nodup, hlen, ?_, ?_⟩
  · exact fun a b ha hb => hinv.mutex (hinside a ha) (hinside b hb)
  · exact fun a scope rest hnet => acq_room hx hne hnet
  · exact fun a scope ns rest hnet => rel_first hx hne hnet

end Exclusion

/-- Host 1 asks host 0 for lock 0 and enters; host 0 asks for it too and waits. -/
def contention : List Event :=
  [.main 1 (.lock 0), .main 1 .go, .main 1 .go, .deliver 1 0 [], .deliver 0 1 [],
    .main 0 (.lock 0), .main 0 .go, .main 0 .go, .deliver 0 0 [], .main 1 .go]

theorem lock_exclusive_fifo_contention :
    ∃ x, ((system .noPages).withHist (lockHistory .noPages)).Reach x ∧
      (x.1.host 1).Holds 0 ∧ x.2.asked 0 = [1, 0] ∧ x.2.granted 0 = [1] ∧
      ∀ b, (x.1.host b).Holds 0 → 1 = b := by
  obtain ⟨x, hx, hcheck⟩ := exists_execHist .noPages (lockHistory .noPages) contention
    (fun x => decide ((x.1.host 1).Holds 0 ∧ x.2.asked 0 = [1, 0] ∧ x.2.granted 0 = [1]))
    (by decide +kernel)
  obtain ⟨hholds, hasked, hgranted⟩ := of_decide_eq_true hcheck
  refine ⟨x, hx, hholds, hasked, hgranted, fun b hb => ?_⟩
  exact (lock_exclusive_fifo hx (by decide)).1 1 b hholds hb

end Jiajia
