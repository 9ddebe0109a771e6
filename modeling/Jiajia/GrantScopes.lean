import Jiajia.LockNotices
import Jiajia.Locks
import Jiajia.Lib.LockStamps

/-!
# The scopes of lock grants

A manager stamps the notices of a lock with the scope of the lock, which each REL moves
on, and grants the lock with it.  A host asks with the scope of its last grant and is told
the notices after it: none of them is a page that only this host has written.
-/

namespace Jiajia

open Fifo Transition

/-! ## The history of the scopes -/

/-- For each lock the RELs its manager has handled, and for each host the scope of the last
ACQGRANT sent to it. -/
structure ScopeLog where
  released : Nat → Nat
  granted : Nat → Nat → BitVec 32

def Msg.grantScope (l : Nat) : Msg → Option (BitVec 32)
  | .acqgrant l' scope _ => if l' = l then some scope else none
  | _ => none

def Msg.askScope (l : Nat) : Msg → Option (BitVec 32)
  | .acq l' scope => if l' = l then some scope else none
  | _ => none

/-- The scopes of the grants of a lock among the messages of a channel. -/
def grantScopes (l : Nat) (msgs : List Msg) : List (BitVec 32) :=
  msgs.filterMap (Msg.grantScope l)

/-- The scopes of the requests for a lock among the messages of a channel. -/
def askScopes (l : Nat) (msgs : List Msg) : List (BitVec 32) :=
  msgs.filterMap (Msg.askScope l)

namespace ScopeLog

def release (log : ScopeLog) : Option Msg → ScopeLog
  | some (.rel l _ _) => { log with released := upd log.released l (log.released l + 1) }
  | _ => log

def grant (log : ScopeLog) (out : Out) : ScopeLog :=
  { log with
    granted := fun l a => (grantScopes l (outboxTo out a)).getLast?.getD (log.granted l a) }

end ScopeLog

def scopeHistory (cfg : Config) : System.Observer State Event ScopeLog where
  start := ⟨fun _ => 0, fun _ _ => BitVec.allOnes 32⟩
  obs log s e _ := (log.release (handled s e)).grant (sent cfg s e)

/-! ## A lock as a manager that stamps notes -/

/-- `acqs[0..acqc)` with `acqscope[0..acqc)`. -/
def Lock.waiting (lk : Lock) : List (Nat × BitVec 32) :=
  (List.range lk.acqc).map fun i => (lk.acqs i, lk.acqscope i)

/-- The only host that has written the page since the list was empty. -/
def WtntEntry.writer (e : WtntEntry) : Option Nat :=
  if e.fromPid = Maxhosts then none else some e.fromPid

/-- The lock at its manager. -/
def State.manager (cfg : Config) (s : State) (l : Nat) : Lock :=
  (s.host (l % cfg.hostc)).y.locks l

/-- What is said about lock `l`; scopes are `int`s. -/
def stampView (cfg : Config) (s : State) (log : ScopeLog) (l : Nat) : LockStamps.State Int where
  clock := (s.manager cfg l).scope.toInt
  queue := (s.manager cfg l).waiting.map fun q => (q.1, q.2.toInt)
  notes := (s.manager cfg l).wtntp.entries.map fun e => (e.writer, e.scope.toInt)
  mine a := ((s.host a).y.locks l).myscope.toInt
  asks a := (askScopes l (s.net a (l % cfg.hostc))).map BitVec.toInt
  grants a := (grantScopes l (s.net (l % cfg.hostc) a)).map BitVec.toInt
  granted a := (log.granted l a).toInt

section Channels

variable {l : Nat} {msgs : List Msg}

@[simp] theorem askScopes_append (ms ms' : List Msg) :
    askScopes l (ms ++ ms') = askScopes l ms ++ askScopes l ms' := List.filterMap_append

@[simp] theorem grantScopes_append (ms ms' : List Msg) :
    grantScopes l (ms ++ ms') = grantScopes l ms ++ grantScopes l ms' := List.filterMap_append

@[simp] theorem grantScopes_nil : grantScopes l [] = [] := rfl

theorem length_grantScopes (l : Nat) (msgs : List Msg) :
    (grantScopes l msgs).length = grants l msgs := by
  induction msgs with
  | nil => rfl
  | cons msg msgs ih =>
      rw [grants, List.countP_cons, ← grants, ← ih, grantScopes, List.filterMap_cons]
      cases msg with
      | acqgrant l' scope ns =>
          by_cases hl : l' = l
          · simp [Msg.grantScope, Msg.isGrant, hl, grantScopes]
          · simp [Msg.grantScope, Msg.isGrant, hl, grantScopes]
      | _ => rfl

theorem length_askScopes (l : Nat) (msgs : List Msg) :
    (askScopes l msgs).length = (requests l msgs).count .acq := by
  induction msgs with
  | nil => rfl
  | cons msg msgs ih =>
      rw [requests, List.filterMap_cons, askScopes, List.filterMap_cons]
      rw [requests, askScopes] at ih
      cases msg with
      | acq l' scope =>
          by_cases hl : l' = l
          · simp [Msg.askScope, Msg.lockRequest, hl, ih]
          · simp [Msg.askScope, Msg.lockRequest, hl, ih]
      | rel l' scope ns =>
          by_cases hl : l' = l
          · simp [Msg.askScope, Msg.lockRequest, hl, ih]
          · simp [Msg.askScope, Msg.lockRequest, hl, ih]
      | _ => exact ih

theorem grantScopes_eq_nil (h : grants l msgs = 0) : grantScopes l msgs = [] :=
  List.length_eq_zero_iff.mp ((length_grantScopes l msgs).trans h)

theorem askScopes_eq_nil (h : LockQueue.Request.acq ∉ requests l msgs) : askScopes l msgs = [] :=
  List.length_eq_zero_iff.mp ((length_askScopes l msgs).trans (List.count_eq_zero.mpr h))

/-- The messages of a kind that a channel keeps when one of another kind leaves it. -/
theorem filterMap_drop {α : Type} (f : Msg → Option α) {n : Net Msg} {src dst : Nat} {msg : Msg}
    {rest : List Msg} (hnet : n src dst = msg :: rest) (hnone : f msg = none) (a b : Nat) :
    (drop n src dst a b).filterMap f = (n a b).filterMap f := by
  by_cases hab : a = src ∧ b = dst
  · obtain ⟨rfl, rfl⟩ := hab
    rw [drop_same hnet, hnet, List.filterMap_cons, hnone]
  · rw [drop_of_ne _ hab]

end Channels

/-! ## Every WTNT has its REL behind it -/

def Msg.wtntLock : Msg → Option Nat
  | .wtnt l _ => some l
  | _ => none

/-- Every WTNT for lock `l` in a channel is followed by a REL. -/
def Paired (l : Nat) : List Msg → Prop
  | [] => True
  | msg :: msgs =>
      (msg.wtntLock = some l → LockQueue.Request.rel ∈ requests l msgs) ∧ Paired l msgs

namespace Paired

variable {l : Nat} {msgs msgs' : List Msg}

theorem of_none (h : ∀ msg ∈ msgs, msg.wtntLock ≠ some l) : Paired l msgs := by
  induction msgs with
  | nil => trivial
  | cons msg msgs ih =>
      constructor
      · intro hmsg
        exact absurd hmsg (h msg List.mem_cons_self)
      · exact ih fun m hm => h m (List.mem_cons_of_mem _ hm)

theorem of_rel (h : LockQueue.Request.rel ∈ requests l msgs') (hp : Paired l msgs') :
    Paired l (msgs ++ msgs') := by
  induction msgs with
  | nil => exact hp
  | cons msg msgs ih =>
      refine ⟨fun _ => ?_, ih⟩
      rw [List.append_eq, requests_append]
      exact List.mem_append_right _ h

theorem append (h : Paired l msgs) (h' : Paired l msgs') : Paired l (msgs ++ msgs') := by
  induction msgs with
  | nil => exact h'
  | cons msg msgs ih =>
      refine ⟨fun hmsg => ?_, ih h.2⟩
      rw [List.append_eq, requests_append]
      exact List.mem_append_left _ (h.1 hmsg)

theorem tail (h : Paired l msgs) : Paired l msgs.tail := by
  cases msgs with
  | nil => trivial
  | cons msg msgs => exact h.2

end Paired

section Run

variable {cfg : Config} {pid : Nat} {l : Nat}

theorem Host.mem_wtntMsgs {k dst d : Nat} {last : List StackNotice → Msg}
    {cs : List (List WtntEntry)} {msg : Msg}
    (h : (d, msg) ∈ (wtntMsgs k last cs).map fun msg => (dst, msg)) :
    ∃ ns, msg = .wtnt k ns ∨ msg = last ns := by
  obtain ⟨msg', hmsg, heq⟩ := List.mem_map.mp h
  obtain ⟨-, rfl⟩ := Prod.mk.inj heq
  obtain ⟨c, -, hc⟩ := mem_chunkMsgs hmsg
  exact ⟨_, hc⟩

/-- Only a release sends WTNTs for a lock, and their REL after them. -/
theorem Host.main_paired {h h' : Host} {a : Act} {out : Out} (hok : Host.StackOk h)
    (hl : l ≠ hidelock) (hm : Host.Main cfg pid h a h' out) :
    Paired l (outboxTo out (l % cfg.hostc)) := by
  have hnone : (∀ d msg, (d, msg) ∈ out → msg.wtntLock ≠ some l) →
      Paired l (outboxTo out (l % cfg.hostc)) :=
    fun hall => Paired.of_none fun msg hmem => hall _ msg (mem_outboxTo.mp hmem)
  cases hm with
  | cacheFault hpc hp hfault hhome hm =>
      apply hnone
      intro d msg hmem
      rcases cacheFault_out hm with rfl | ⟨temp, rfl⟩
      · cases hmem
      · obtain ⟨-, rfl⟩ := Prod.mk.inj (List.mem_singleton.mp hmem)
        simp [Msg.wtntLock]
  | start hpc hhost ha hop hm =>
      obtain ⟨y, dm, -, rfl, -⟩ := endinterval_ok hm
      apply hnone
      intro d msg hmem
      obtain ⟨k, -, -, heq⟩ := mem_senddiffs.mp hmem
      obtain ⟨-, rfl⟩ := Prod.mk.inj heq
      simp [Msg.wtntLock]
  | release hpc hwait hout hm hy =>
      obtain ⟨cs, hcs, rfl⟩ := sendwtnts_ok hout
      by_cases htop : h.y.top.lockid = l
      · rw [htop, outboxTo_map_same, wtntMsgs, chunkMsgs_eq (Packing.chunks_ne_nil hcs)]
        refine Paired.of_rel ?_ (Paired.of_none ?_)
        · simp [requests, Msg.lockRequest]
        · simp [Msg.wtntLock]
      · apply hnone
        intro d msg hmem
        obtain ⟨ns, rfl | rfl⟩ := mem_wtntMsgs hmem
        · simpa [Msg.wtntLock] using htop
        · simp [Msg.wtntLock]
  | arrive hpc hwait hm =>
      have hpcok := hok.pc
      rw [hpc] at hpcok
      obtain ⟨cs, -, rfl, -⟩ := arrive_ok hm
      apply hnone
      intro d msg hmem
      obtain ⟨ns, rfl | rfl⟩ := mem_wtntMsgs hmem
      · simpa [Msg.wtntLock, hok.top_hidelock hpcok] using hl.symm
      · simp [Msg.wtntLock]
  | _ => exact hnone (by simp [Msg.wtntLock])

theorem reach_paired {s : State} (hs : (system cfg).Reach s) (hl : l ≠ hidelock) (a : Nat) :
    Paired l (s.net a (l % cfg.hostc)) := by
  revert a
  refine hs.invariant (I := fun s => ∀ a, Paired l (s.net a (l % cfg.hostc))) ?_ ?_
  · exact fun _ => trivial
  · intro s e s' hreach hpaired hnext a
    rcases step_view hnext with ⟨i, act, hst, out, -, -, hm, -, rfl⟩ |
      ⟨src, dst, rnd, msg, rest, hst, out, -, hnet, hm, -, rfl⟩
    · rw [State.put_net]
      by_cases ha : a = i
      · subst ha
        rw [send_same]
        exact (hpaired a).append (Host.main_paired (reach_stackOk hreach a) hl hm)
      · rw [send_of_ne _ _ _ ha]
        exact hpaired a
    · have hin : Routed cfg src dst msg := by
        apply reach_routed hreach
        rw [hnet]
        exact List.mem_cons_self
      have hdrop : Paired l (drop s.net src dst a (l % cfg.hostc)) := by
        unfold drop
        split
        · exact (hpaired a).tail
        · exact hpaired a
      rw [State.put_net]
      by_cases ha : a = dst
      · subst ha
        rw [send_same]
        apply hdrop.append
        apply Paired.of_none
        intro m hmem hwtnt
        have hreq := (Host.served_routed hin hm (mem_outboxTo.mp hmem)).1
        cases m with
        | wtnt l' ns => cases hreq
        | _ => cases hwtnt
      · rw [send_of_ne _ _ _ ha]
        exact hdrop

end Run

/-! ## What a message does to a lock -/

namespace Lock

variable {lk : Lock} {src : Nat} {scope : BitVec 32}

theorem map_waiting : lk.waiting.map Prod.fst = lk.queue := by
  simp [waiting, queue]

theorem waiting_pushAcq :
    (Host.pushAcq lk src scope).waiting = lk.waiting ++ [(src, scope)] := by
  have hold : (List.range lk.acqc).map (fun i =>
      (upd lk.acqs lk.acqc src i, upd lk.acqscope lk.acqc scope i)) = lk.waiting := by
    apply List.map_congr_left
    intro i hi
    have hne := (List.mem_range.mp hi).ne
    rw [upd_of_ne _ _ hne, upd_of_ne _ _ hne]
  rw [waiting, Host.pushAcq, List.range_succ, List.map_append, hold]
  simp

theorem waiting_popAcq : (Host.popAcq lk).waiting = lk.waiting.tail := by
  unfold waiting Host.popAcq
  cases lk.acqc with
  | zero => rfl
  | succ c =>
      rw [List.range_succ_eq_map, List.map_cons, List.tail_cons, List.map_map]
      apply List.map_congr_left
      intro i hi
      have hi : i < c := List.mem_range.mp hi
      simp [Host.shift, hi]

theorem head_waiting (hc : 0 < lk.acqc) :
    ∃ q, lk.waiting = (lk.acqs 0, lk.acqscope 0) :: q := by
  unfold waiting
  cases h : lk.acqc with
  | zero => omega
  | succ c => exact ⟨_, by rw [List.range_succ_eq_map, List.map_cons]⟩

theorem waiting_eq_nil : lk.waiting = [] ↔ lk.acqc = 0 := by
  simp [waiting]

end Lock

/-- A notice that a message brings carries the scope of the lock, and its sender unless the
page had a notice before. -/
theorem WtntList.of_mem_record {ns : List StackNotice} {src : Nat} {scope : BitVec 32}
    {l : WtntList} {e : WtntEntry}
    (he : e ∈ (ns.foldl (fun l n => l.save n.addr (n.addr.setWidth 32) src scope) l).entries) :
    e ∈ l.entries ∨ e.scope = scope ∧ (e.fromPid = src ∨ e.fromPid = Maxhosts) := by
  induction ns generalizing l with
  | nil => exact Or.inl he
  | cons n ns ih =>
      rcases ih he with hmem | hnew
      · rcases WtntList.of_mem_save hmem with ⟨hold, -⟩ | ⟨-, rfl⟩ | ⟨e₀, -, -, rfl⟩
        · exact Or.inl hold
        · exact Or.inr ⟨rfl, Or.inl rfl⟩
        · exact Or.inr ⟨rfl, Or.inr rfl⟩
      · exact Or.inr hnew

namespace Host

variable {cfg : Config} {pid src : Nat} {rnd : List Nat} {h h' : Host} {out : Out} {l : Nat}

theorem served_lock {msg : Msg} (hl : l < Maxlocks) (hin : Routed cfg src pid msg)
    (hs : Served cfg pid h src rnd msg h' out) (hreq : msg.lockRequest l = none)
    (hgrant : msg.isGrant l = false) (hwtnt : msg.wtntLock ≠ some l) :
    ∃ wl, h'.y.locks l = { h.y.locks l with wtntp := wl } ∧
      ∀ e ∈ wl.entries, e ∈ (h.y.locks l).wtntp.entries := by
  have hsame : h'.y.locks l = h.y.locks l → ∃ wl, h'.y.locks l = { h.y.locks l with wtntp := wl } ∧
      ∀ e ∈ wl.entries, e ∈ (h.y.locks l).wtntp.entries :=
    fun heq => ⟨(h.y.locks l).wtntp, heq, fun _ he => he⟩
  have hhide : l ≠ hidelock := Nat.ne_of_lt hl
  cases hs with
  | @acqFirst l' scope out hm hc hout =>
      have hne : l' ≠ l := by simpa [Msg.lockRequest] using hreq
      exact hsame (by simp [SynState.setLock, Ne.symm hne])
  | @acqQueue l' scope hm hc =>
      have hne : l' ≠ l := by simpa [Msg.lockRequest] using hreq
      exact hsame (by simp [SynState.setLock, Ne.symm hne])
  | @relNext l' scope ns out hm hsrc hc hout =>
      have hne : l' ≠ l := by simpa [Msg.lockRequest] using hreq
      exact hsame (Barrier.locks_recordRelease_of_ne _ _ _ (Ne.symm hne))
  | @relLast l' scope ns hm hsrc hc =>
      have hne : l' ≠ l := by simpa [Msg.lockRequest] using hreq
      exact hsame (Barrier.locks_recordRelease_of_ne _ _ _ (Ne.symm hne))
  | @acqgrant l' scope ns m hm =>
      have hne : l' ≠ l := by simpa [Msg.isGrant] using hgrant
      exact hsame (by simp [SynState.setLock, Ne.symm hne])
  | @wtnt l' ns hm =>
      have hne : l' ≠ l := by simpa [Msg.wtntLock] using hwtnt
      exact hsame (by simp [SynState.recordwtnts, SynState.setLock, Ne.symm hne])
  | barrCount hm hc => exact hsame (by simp [SynState.recordwtnts, SynState.setLock, hhide])
  | barrLast hm hc hout => exact hsame (by simp [SynState.recordwtnts, SynState.setLock, hhide])
  | @barrgrant l' scope ns h' hm =>
      obtain ⟨m, -, rfl⟩ := barrgrantserver_ok hm
      have hne : l ≠ l' := (show l' = hidelock from hin) ▸ hhide
      have hlock : (h.y.endBarrier cfg pid).locks l = h.y.locks l ∨
          (h.y.endBarrier cfg pid).locks l = { h.y.locks l with wtntp := .empty } := by
        unfold SynState.endBarrier SynState.clearlocks
        split
        · exact Or.inl rfl
        · simp only
          split
          · exact Or.inr rfl
          · exact Or.inl rfl
      simp only [SynState.setLock, upd_of_ne _ _ hne] at hsame ⊢
      rcases hlock with heq | heq
      · exact hsame heq
      · exact ⟨.empty, heq, by simp⟩
  | _ => exact hsame rfl

theorem served_acq {scope : BitVec 32} (hs : Served cfg pid h src rnd (.acq l scope) h' out) :
    h'.y.locks l = pushAcq (h.y.locks l) src scope ∧
      ((h.y.locks l).acqc = 0 ∧ h'.grantFirst cfg l = .ok out ∨
        (h.y.locks l).acqc ≠ 0 ∧ out = []) := by
  cases hs with
  | acqFirst hm hc hout => exact ⟨by simp [SynState.setLock], Or.inl ⟨hc, hout⟩⟩
  | acqQueue hm hc => exact ⟨by simp [SynState.setLock], Or.inr ⟨hc, rfl⟩⟩

/-- The lock with the notices of a message recorded. -/
def recorded (lk : Lock) (src : Nat) (ns : List StackNotice) : Lock :=
  { lk with
    wtntp := ns.foldl (fun l n => l.save n.addr (n.addr.setWidth 32) src lk.scope) lk.wtntp }

theorem served_wtnt {ns : List StackNotice} (hs : Served cfg pid h src rnd (.wtnt l ns) h' out) :
    h'.y.locks l = recorded (h.y.locks l) src ns ∧ out = [] := by
  cases hs with
  | wtnt hm => exact ⟨by simp [SynState.recordwtnts, SynState.setLock, recorded], rfl⟩

theorem served_rel {scope : BitVec 32} {ns : List StackNotice}
    (hs : Served cfg pid h src rnd (.rel l scope ns) h' out) :
    h'.y.locks l = popAcq (recorded (h.y.locks l) src ns) ∧
      (1 < (h.y.locks l).acqc ∧ h'.grantFirst cfg l = .ok out ∨
        (h.y.locks l).acqc ≤ 1 ∧ out = []) := by
  have hlock : (recordRelease h.y src l scope ns).locks l =
      popAcq (recorded (h.y.locks l) src ns) := by
    simp [recordRelease, SynState.recordwtnts, SynState.setLock, recorded]
  cases hs with
  | relNext hm hsrc hc hout => exact ⟨hlock, Or.inl ⟨hc, hout⟩⟩
  | relLast hm hsrc hc => exact ⟨hlock, Or.inr ⟨hc, rfl⟩⟩

theorem served_acqgrant {scope : BitVec 32} {ns : List GrantNotice}
    (hs : Served cfg pid h src rnd (.acqgrant l scope ns) h' out) :
    h'.y.locks l = { h.y.locks l with myscope := scope } ∧ out = [] := by
  cases hs with
  | acqgrant hm => exact ⟨by simp [SynState.setLock], rfl⟩

theorem grantScopes_grantFirst (hg : h.grantFirst cfg l = .ok out) (a : Nat) :
    grantScopes l (outboxTo out a) =
      if a = (h.y.locks l).acqs 0 then [(h.y.locks l).scope] else [] := by
  obtain ⟨cs, hcs, rfl⟩ := grantFirst_ok hg
  by_cases ha : a = (h.y.locks l).acqs 0
  · rw [if_pos ha, ha, outboxTo_map_same, grantMsgs, chunkMsgs_eq (Packing.chunks_ne_nil hcs),
      grantScopes_append]
    have hmore : grantScopes l (cs.dropLast.map fun c =>
        Msg.invld l (c.map WtntEntry.toGrant)) = [] := by
      rw [grantScopes, List.filterMap_eq_nil_iff]
      intro msg hmem
      obtain ⟨c, -, rfl⟩ := List.mem_map.mp hmem
      rfl
    rw [hmore]
    simp [grantScopes, Msg.grantScope]
  · rw [if_neg ha, grantScopes, List.filterMap_eq_nil_iff]
    intro msg hmem
    obtain ⟨msg', -, heq⟩ := List.mem_map.mp (mem_outboxTo.mp hmem)
    exact absurd (Prod.mk.inj heq).1.symm ha

/-- A host asks with the scope of its last grant. -/
theorem main_askScope {a : Act} (hm : Main cfg pid h a h' out) {d : Nat} {msg : Msg}
    (hmem : (d, msg) ∈ out) {scope : BitVec 32} (hask : msg.askScope l = some scope) :
    scope = (h.y.locks l).myscope := by
  cases hm with
  | cacheFault hpc hp hfault hhome hm =>
      rcases cacheFault_out hm with rfl | ⟨temp, rfl⟩
      · cases hmem
      · obtain ⟨-, rfl⟩ := Prod.mk.inj (List.mem_singleton.mp hmem)
        cases hask
  | start hpc hhost ha hop hm =>
      obtain ⟨y, dm, -, rfl, -⟩ := endinterval_ok hm
      obtain ⟨k, -, -, heq⟩ := mem_senddiffs.mp hmem
      obtain ⟨-, rfl⟩ := Prod.mk.inj heq
      cases hask
  | @acquire l' hpc hwait =>
      obtain ⟨-, rfl⟩ := Prod.mk.inj (List.mem_singleton.mp hmem)
      by_cases hl : l' = l
      · subst hl
        simpa [Msg.askScope] using hask.symm
      · simp [Msg.askScope, hl] at hask
  | release hpc hwait hout hm hy =>
      obtain ⟨cs, -, rfl⟩ := sendwtnts_ok hout
      obtain ⟨ns, rfl | rfl⟩ := mem_wtntMsgs hmem <;> cases hask
  | arrive hpc hwait hm =>
      obtain ⟨cs, -, rfl, -⟩ := arrive_ok hm
      obtain ⟨ns, rfl | rfl⟩ := mem_wtntMsgs hmem <;> cases hask
  | barrsync hpc hwait hhost hflags | wait hpc hhost =>
      obtain ⟨-, rfl⟩ := Prod.mk.inj (List.mem_singleton.mp hmem)
      cases hask
  | _ => cases hmem

end Host

/-! ## The refinement -/

section Refinement

variable {cfg : Config} {s : State} {l : Nat} {log log' : ScopeLog}

open LockStamps (Step)
open Relation (ReflTransGen)

/-- A main thread sends at most one request for the lock, with the scope of its last grant. -/
theorem stampView_main {i : Nat} {a : Act} {h' : Host} {out : Out} (hok : Host.StackOk (s.host i))
    (hm : Host.Main cfg i (s.host i) a h' out) :
    ReflTransGen Step (stampView cfg s log l) (stampView cfg (s.put i h' out) (log.grant out) l) := by
  have hlocks : ∀ b, ((s.put i h' out).host b).y.locks = (s.host b).y.locks := by
    intro b
    by_cases hb : b = i
    · subst hb
      rw [State.put_host_same]
      exact Host.main_locks hm
    · rw [State.put_host_of_ne _ _ _ hb]
  have hnone : ∀ b, grantScopes l (outboxTo out b) = [] := by
    intro b
    rw [grantScopes, List.filterMap_eq_nil_iff]
    intro msg hmem
    have hreq := (Host.main_routed hok hm (mem_outboxTo.mp hmem)).1
    cases msg <;> first | rfl | cases hreq
  have hgrants : ∀ b, grantScopes l ((s.put i h' out).net (l % cfg.hostc) b) =
      grantScopes l (s.net (l % cfg.hostc) b) := by
    intro b
    by_cases hi : l % cfg.hostc = i
    · rw [hi, State.put_net, send_same, grantScopes_append, hnone, List.append_nil]
    · rw [State.put_net, send_of_ne _ _ _ hi]
  have hview : stampView cfg (s.put i h' out) (log.grant out) l =
      { stampView cfg s log l with
        asks := LockQueue.set (stampView cfg s log l).asks i ((stampView cfg s log l).asks i ++
          (askScopes l (outboxTo out (l % cfg.hostc))).map BitVec.toInt) } := by
    apply LockStamps.State.ext
    · simp [stampView, State.manager, hlocks]
    · simp [stampView, State.manager, hlocks]
    · simp [stampView, State.manager, hlocks]
    · simp [stampView, hlocks]
    · funext b
      by_cases hb : b = i
      · simp [stampView, hb, send_same]
      · simp [stampView, hb, send_of_ne]
    · funext b
      exact congrArg (List.map BitVec.toInt) (hgrants b)
    · simp [stampView, ScopeLog.grant, hnone]
  have hstamp : ∀ t ∈ askScopes l (outboxTo out (l % cfg.hostc)),
      t.toInt = (stampView cfg s log l).mine i := by
    intro t ht
    obtain ⟨msg, hmem, hask⟩ := List.mem_filterMap.mp ht
    exact congrArg BitVec.toInt (Host.main_askScope hm (mem_outboxTo.mp hmem) hask)
  have hlength := length_askScopes l (outboxTo out (l % cfg.hostc))
  rw [hview]
  have hasks := Host.main_asks (l := l) hok hm
  generalize (s.host i).client l = c at hasks
  generalize h'.client l = c' at hasks
  generalize requests l (outboxTo out (l % cfg.hostc)) = rs at hlength hasks
  by_cases hacq : rs.count .acq = 0
  · rw [List.length_eq_zero_iff.mp (hlength.trans hacq), List.map_nil, List.append_nil,
      LockQueue.set_eq_self]
  · have hone : rs.count .acq = 1 := by
      cases hasks with
      | ask => rfl
      | stays c => exact absurd rfl hacq
      | free => exact absurd rfl hacq
    obtain ⟨t, ht⟩ := List.length_eq_one_iff.mp (hlength.trans hone)
    rw [ht, List.map_singleton, hstamp t (by rw [ht]; exact List.mem_singleton_self t)]
    exact .single (.ask i)

theorem manager_put (cfg : Config) (s : State) (l i : Nat) (h' : Host) (out : Out) :
    (s.put i h' out).manager cfg l = if l % cfg.hostc = i then h'.y.locks l else s.manager cfg l := by
  rw [State.manager]
  by_cases hi : l % cfg.hostc = i
  · rw [if_pos hi, hi, State.put_host_same]
  · rw [if_neg hi, State.put_host_of_ne _ _ _ hi]
    rfl

section Deliver

variable {src dst : Nat} {rnd : List Nat} {msg : Msg} {rest : List Msg} {h' : Host} {out : Out}

theorem manager_other (hl : l < Maxlocks) (hin : Routed cfg src dst msg)
    (hs : Host.Served cfg dst (s.host dst) src rnd msg h' out) (hreq : msg.lockRequest l = none)
    (hgrant : msg.isGrant l = false) (hwtnt : msg.wtntLock ≠ some l) :
    ∃ wl, (if l % cfg.hostc = dst then h'.y.locks l else s.manager cfg l) =
      { s.manager cfg l with wtntp := wl } ∧
      ∀ e ∈ wl.entries, e ∈ (s.manager cfg l).wtntp.entries := by
  obtain ⟨wl, hlock, hsub⟩ := Host.served_lock hl hin hs hreq hgrant hwtnt
  by_cases hd : l % cfg.hostc = dst
  · subst hd
    exact ⟨wl, (if_pos rfl).trans hlock, hsub⟩
  · exact ⟨_, if_neg hd, fun _ he => he⟩

theorem manager_enter {scope : BitVec 32} {ns : List GrantNotice}
    (hs : Host.Served cfg dst (s.host dst) src rnd (.acqgrant l scope ns) h' out) :
    ∃ myscope, (if l % cfg.hostc = dst then h'.y.locks l else s.manager cfg l) =
      { s.manager cfg l with myscope := myscope } := by
  by_cases hd : l % cfg.hostc = dst
  · subst hd
    exact ⟨scope, (if_pos rfl).trans (Host.served_acqgrant hs).1⟩
  · exact ⟨_, if_neg hd⟩

/-- The lock `lk`, and the channels about it, when `dst` has handled a message of `src` and sent
nothing yet. -/
def stampKept (cfg : Config) (s : State) (log : ScopeLog) (l src dst : Nat) (h' : Host) (lk : Lock) :
    LockStamps.State Int where
  clock := lk.scope.toInt
  queue := lk.waiting.map fun q => (q.1, q.2.toInt)
  notes := lk.wtntp.entries.map fun e => (e.writer, e.scope.toInt)
  mine := LockQueue.set (stampView cfg s log l).mine dst (h'.y.locks l).myscope.toInt
  asks a := (askScopes l (drop s.net src dst a (l % cfg.hostc))).map BitVec.toInt
  grants a := (grantScopes l (drop s.net src dst (l % cfg.hostc) a)).map BitVec.toInt
  granted a := (log.granted l a).toInt

theorem stampView_served (log : ScopeLog) (hin : Routed cfg src dst msg)
    (hs : Host.Served cfg dst (s.host dst) src rnd msg h' out) {lk : Lock}
    (hlk : lk = if l % cfg.hostc = dst then h'.y.locks l else s.manager cfg l) :
    stampView cfg ({ s with net := drop s.net src dst }.put dst h' out) log' l =
      { stampKept cfg s log l src dst h' lk with
        grants := fun a => (grantScopes l (drop s.net src dst (l % cfg.hostc) a) ++
          if l % cfg.hostc = dst then grantScopes l (outboxTo out a) else []).map BitVec.toInt
        granted := fun a => (log'.granted l a).toInt } := by
  have hmgr := (manager_put cfg { s with net := drop s.net src dst } l dst h' out).trans hlk.symm
  have hnone : ∀ a, askScopes l (outboxTo out a) = [] := by
    intro a
    rw [askScopes, List.filterMap_eq_nil_iff]
    intro m hmem
    have hreq := (Host.served_routed hin hs (mem_outboxTo.mp hmem)).1
    cases m <;> first | rfl | cases hreq
  apply LockStamps.State.ext
  · exact congrArg (fun lk : Lock => lk.scope.toInt) hmgr
  · exact congrArg (fun lk : Lock => lk.waiting.map fun q => (q.1, q.2.toInt)) hmgr
  · exact congrArg
      (fun lk : Lock => lk.wtntp.entries.map fun e => (e.writer, e.scope.toInt)) hmgr
  · funext a
    by_cases ha : a = dst
    · simp [stampView, stampKept, ha]
    · simp [stampView, stampKept, ha, State.put]
  · funext a
    by_cases ha : a = dst
    · simp [stampView, stampKept, ha, send_same, hnone]
    · simp [stampView, stampKept, send_of_ne _ _ _ ha]
  · funext a
    by_cases hd : l % cfg.hostc = dst
    · simp [stampView, hd, send_same]
    · simp [stampView, hd, send_of_ne _ _ _ hd]
  · rfl

theorem grantScopes_drop (hnet : s.net src dst = msg :: rest)
    (hnone : msg.grantScope l = none) (a b : Nat) :
    grantScopes l (drop s.net src dst a b) = grantScopes l (s.net a b) :=
  filterMap_drop _ hnet hnone a b

theorem askScopes_drop (hnet : s.net src dst = msg :: rest) (hnone : msg.askScope l = none)
    (a b : Nat) : askScopes l (drop s.net src dst a b) = askScopes l (s.net a b) :=
  filterMap_drop _ hnet hnone a b

theorem stampView_other (hl : l < Maxlocks) (hnet : s.net src dst = msg :: rest)
    (hin : Routed cfg src dst msg) (hs : Host.Served cfg dst (s.host dst) src rnd msg h' out)
    (hreq : msg.lockRequest l = none) (hgrant : msg.isGrant l = false)
    (hwtnt : msg.wtntLock ≠ some l) (hlog : log'.granted l = log.granted l) :
    ReflTransGen Step (stampView cfg s log l)
      (stampView cfg ({ s with net := drop s.net src dst }.put dst h' out) (log'.grant out) l) := by
  obtain ⟨wl, hlock, -⟩ := Host.served_lock hl hin hs hreq hgrant hwtnt
  obtain ⟨-, hgrantees⟩ := Host.served_neutral (Nat.ne_of_lt hl) hin hs hreq
  have hsend : ∀ a, grantScopes l (outboxTo out a) = [] := by
    intro a
    apply grantScopes_eq_nil
    rw [grants_outboxTo, hgrantees, List.count_nil]
  have hnogrant : msg.grantScope l = none := by
    cases msg with
    | acqgrant l' scope ns =>
        have hne : l' ≠ l := by simpa [Msg.isGrant] using hgrant
        simp [Msg.grantScope, hne]
    | _ => rfl
  have hnoask : msg.askScope l = none := by
    cases msg with
    | acq l' scope =>
        have hne : l' ≠ l := by simpa [Msg.lockRequest] using hreq
        simp [Msg.askScope, hne]
    | _ => rfl
  have hgrants := grantScopes_drop hnet hnogrant (l % cfg.hostc)
  have hasks := askScopes_drop hnet hnoask
  have hmine : LockQueue.set (stampView cfg s log l).mine dst (h'.y.locks l).myscope.toInt =
      (stampView cfg s log l).mine := by
    rw [hlock]
    exact LockQueue.set_eq_self _ _
  obtain ⟨wl', hlk, hsub'⟩ := manager_other hl hin hs hreq hgrant hwtnt
  refine .single ?_
  rw [stampView_served log hin hs rfl, hlk, stampKept, hmine]
  simp only [ScopeLog.grant, hsend, ite_self, List.append_nil, hgrants, hasks, hlog]
  refine Step.note ?_
  intro n hn
  obtain ⟨e, he, rfl⟩ := List.mem_map.mp hn
  exact Or.inl (List.mem_map_of_mem (hsub' e he))

theorem stampView_silent (hin : Routed cfg src dst msg)
    (hs : Host.Served cfg dst (s.host dst) src rnd msg h' []) (hd : l % cfg.hostc = dst)
    (hlog : log'.granted l = log.granted l) :
    stampView cfg ({ s with net := drop s.net src dst }.put dst h' []) (log'.grant []) l =
      stampKept cfg s log l src dst h' (h'.y.locks l) := by
  rw [stampView_served log hin hs (if_pos hd).symm]
  simp [ScopeLog.grant, hlog, stampKept]

theorem stampView_grant (hin : Routed cfg src dst msg)
    (hs : Host.Served cfg dst (s.host dst) src rnd msg h' out) (hd : l % cfg.hostc = dst)
    (hc : 0 < (h'.y.locks l).acqc) (hout : h'.grantFirst cfg l = .ok out)
    (hlog : log'.granted l = log.granted l) :
    stampView cfg ({ s with net := drop s.net src dst }.put dst h' out) (log'.grant out) l =
      (stampKept cfg s log l src dst h' (h'.y.locks l)).grantHead := by
  have hsend := Host.grantScopes_grantFirst hout
  obtain ⟨q, hq⟩ := Lock.head_waiting hc
  rw [stampView_served log hin hs (if_pos hd).symm, LockStamps.State.grantHead_cons
    (congrArg (List.map fun q : Nat × BitVec 32 => (q.1, q.2.toInt)) hq)]
  apply LockStamps.State.ext
  · rfl
  · rfl
  · rfl
  · rfl
  · rfl
  · funext a
    by_cases ha : a = (h'.y.locks l).acqs 0
    · simp [hd, hsend, ha, stampKept]
    · simp [hd, hsend, ha, stampKept]
  · funext a
    by_cases ha : a = (h'.y.locks l).acqs 0
    · simp [ScopeLog.grant, hsend, ha, stampKept]
    · simp [ScopeLog.grant, hsend, ha, hlog, stampKept]

theorem set_mine (hscope : (h'.y.locks l).myscope = ((s.host dst).y.locks l).myscope) :
    LockQueue.set (stampView cfg s log l).mine dst (h'.y.locks l).myscope.toInt =
      (stampView cfg s log l).mine := by
  rw [hscope]
  exact LockQueue.set_eq_self _ _

theorem map_queue_stampView (lockLog : LockLog) :
    (stampView cfg s log l).queue.map Prod.fst = (lockView cfg s lockLog l).queue := by
  rw [lockView, ← Lock.map_waiting]
  simp [stampView, State.manager, Function.comp_def]

theorem holder_stampView (log : ScopeLog) (lockLog : LockLog) :
    (stampView cfg s log l).holder = (lockView cfg s lockLog l).queue.head? := by
  rw [LockStamps.State.holder, map_queue_stampView lockLog]

theorem grants_stampView (log : ScopeLog) {lockLog : LockLog} {a : Nat}
    (hdown : (lockView cfg s lockLog l).down a = 0) : (stampView cfg s log l).grants a = [] :=
  List.map_eq_nil_iff.mpr (grantScopes_eq_nil hdown)

theorem stampView_acq {scope : BitVec 32} {lockLog : LockLog}
    (hinv : LockQueue.Inv (lockView cfg s lockLog l))
    (hnet : s.net src dst = .acq l scope :: rest) (hin : Routed cfg src dst (.acq l scope))
    (hs : Host.Served cfg dst (s.host dst) src rnd (.acq l scope) h' out) :
    ReflTransGen Step (stampView cfg s log l)
      (stampView cfg ({ s with net := drop s.net src dst }.put dst h' out) (log.grant out) l) := by
  obtain rfl : dst = l % cfg.hostc := hin.2
  obtain ⟨hlock, hcases⟩ := Host.served_acq hs
  have hask : (stampView cfg s log l).asks src =
      scope.toInt :: (askScopes l rest).map BitVec.toInt := by
    simp [stampView, hnet, askScopes, Msg.askScope]
  have hasks : (fun a => (askScopes l (drop s.net src (l % cfg.hostc) a (l % cfg.hostc))).map
      BitVec.toInt) = LockQueue.set (stampView cfg s log l).asks src
        ((askScopes l rest).map BitVec.toInt) := by
    funext a
    by_cases ha : a = src
    · rw [ha, drop_same hnet, LockQueue.set_same]
    · rw [drop_of_ne _ (by simp [ha]), LockQueue.set_of_ne _ _ ha]
      rfl
  have hgrants := grantScopes_drop (l := l) hnet rfl (l % cfg.hostc)
  have hmine := @set_mine cfg s l log (l % cfg.hostc) h' (by rw [hlock]; rfl)
  have hqueue : (h'.y.locks l).waiting.map (fun q => (q.1, q.2.toInt)) =
      (stampView cfg s log l).queue ++ [(src, scope.toInt)] := by
    rw [hlock, Lock.waiting_pushAcq, List.map_append]
    rfl
  rcases hcases with ⟨hc, hout⟩ | ⟨hc, rfl⟩
  · have hempty : (stampView cfg s log l).queue = [] :=
      List.map_eq_nil_iff.mpr (Lock.waiting_eq_nil.mpr hc)
    have hfree : ∀ a, (stampView cfg s log l).grants a = [] :=
      fun a => grants_stampView log (hinv.empty_free (Host.queue_eq_nil.mpr hc) a)
    have hpos : 0 < (h'.y.locks l).acqc := by
      rw [hlock]
      exact Nat.succ_pos _
    have hkept : stampKept cfg s log l src (l % cfg.hostc) h' (h'.y.locks l) =
        { stampView cfg s log l with
          queue := [(src, scope.toInt)]
          asks := LockQueue.set (stampView cfg s log l).asks src
            ((askScopes l rest).map BitVec.toInt) } := by
      rw [stampKept, hasks, hmine, hqueue, hempty, List.nil_append, hlock]
      simp only [hgrants]
      rfl
    rw [stampView_grant hin hs rfl hpos hout rfl, hkept]
    exact .single (.grant src hask hempty hfree)
  · have hne : (stampView cfg s log l).queue ≠ [] :=
      fun h => hc (Lock.waiting_eq_nil.mp (List.map_eq_nil_iff.mp h))
    have hkept : stampKept cfg s log l src (l % cfg.hostc) h' (h'.y.locks l) =
        { stampView cfg s log l with
          queue := (stampView cfg s log l).queue ++ [(src, scope.toInt)]
          asks := LockQueue.set (stampView cfg s log l).asks src
            ((askScopes l rest).map BitVec.toInt) } := by
      rw [stampKept, hasks, hmine, hqueue, hlock]
      simp only [hgrants]
      rfl
    rw [stampView_silent hin hs rfl rfl, hkept]
    exact .single (.enqueue src hask hne)

/-- The lock with the notices of a message of `src` recorded. -/
def stampNoted (cfg : Config) (s : State) (log : ScopeLog) (l src : Nat) (ns : List StackNotice) :
    LockStamps.State Int :=
  { stampView cfg s log l with
    notes := (Host.recorded (s.manager cfg l) src ns).wtntp.entries.map fun e =>
      (e.writer, e.scope.toInt) }

/-- A host whose REL is on its way holds the lock, and the notices it sends carry the scope of
the lock. -/
theorem step_stampNoted {lockLog : LockLog} (hinv : LockQueue.Inv (lockView cfg s lockLog l))
    (hrel : LockQueue.Request.rel ∈ requests l (s.net src (l % cfg.hostc)))
    (ns : List StackNotice) : Step (stampView cfg s log l) (stampNoted cfg s log l src ns) := by
  obtain ⟨hhead, hfree⟩ := hinv.rel_free hrel
  rw [← holder_stampView log lockLog] at hhead
  refine .note ?_
  intro n hn
  obtain ⟨e, he, rfl⟩ := List.mem_map.mp hn
  rcases WtntList.of_mem_record he with hold | ⟨hscope, hfrom⟩
  · exact Or.inl (List.mem_map.mpr ⟨e, hold, rfl⟩)
  · refine Or.inr ⟨congrArg BitVec.toInt hscope, ?_⟩
    intro a ha
    simp only [WtntEntry.writer] at ha
    split at ha
    · cases ha
    · rename_i hne
      obtain rfl := hfrom.resolve_right hne
      rw [← Option.some.inj ha]
      exact ⟨hhead, grants_stampView log (hfree _)⟩

theorem stampView_wtnt {ns : List StackNotice} {lockLog : LockLog}
    (hinv : LockQueue.Inv (lockView cfg s lockLog l)) (hpaired : Paired l (s.net src dst))
    (hnet : s.net src dst = .wtnt l ns :: rest) (hin : Routed cfg src dst (.wtnt l ns))
    (hs : Host.Served cfg dst (s.host dst) src rnd (.wtnt l ns) h' out) :
    ReflTransGen Step (stampView cfg s log l)
      (stampView cfg ({ s with net := drop s.net src dst }.put dst h' out) (log.grant out) l) := by
  obtain rfl : dst = l % cfg.hostc := hin.2
  obtain ⟨hlock, rfl⟩ := Host.served_wtnt hs
  have hrel : LockQueue.Request.rel ∈ requests l (s.net src (l % cfg.hostc)) := by
    rw [hnet] at hpaired ⊢
    simpa [requests, Msg.lockRequest] using hpaired.1 rfl
  have hmine := @set_mine cfg s l log (l % cfg.hostc) h' (by rw [hlock]; rfl)
  have hgrants := grantScopes_drop (l := l) hnet rfl (l % cfg.hostc)
  have hasks := askScopes_drop (l := l) hnet rfl
  have hkept : stampKept cfg s log l src (l % cfg.hostc) h' (h'.y.locks l) =
      stampNoted cfg s log l src ns := by
    rw [stampKept, hmine, hlock]
    simp only [hgrants, hasks]
    rfl
  rw [stampView_silent hin hs rfl rfl, hkept]
  exact .single (step_stampNoted hinv hrel ns)

theorem stampView_rel {scope : BitVec 32} {ns : List StackNotice} {lockLog : LockLog}
    (hinv : LockQueue.Inv (lockView cfg s lockLog l))
    (hnet : s.net src dst = .rel l scope ns :: rest) (hin : Routed cfg src dst (.rel l scope ns))
    (hs : Host.Served cfg dst (s.host dst) src rnd (.rel l scope ns) h' out)
    (hle : (s.manager cfg l).scope.toInt ≤ ((s.manager cfg l).scope + 1).toInt)
    (hlog : log'.granted l = log.granted l) :
    ReflTransGen Step (stampView cfg s log l)
      (stampView cfg ({ s with net := drop s.net src dst }.put dst h' out) (log'.grant out) l) := by
  obtain rfl : dst = l % cfg.hostc := hin.2
  obtain ⟨hlock, hcases⟩ := Host.served_rel hs
  have hrel : LockQueue.Request.rel ∈ requests l (s.net src (l % cfg.hostc)) := by
    rw [hnet]
    simp [requests, Msg.lockRequest]
  have hmine := @set_mine cfg s l log (l % cfg.hostc) h' (by rw [hlock]; rfl)
  have hgrants := grantScopes_drop (l := l) hnet rfl (l % cfg.hostc)
  have hasks := askScopes_drop (l := l) hnet rfl
  have hkept : stampKept cfg s log l src (l % cfg.hostc) h' (h'.y.locks l) =
      { stampNoted cfg s log l src ns with
        queue := (stampNoted cfg s log l src ns).queue.tail
        clock := ((s.manager cfg l).scope + 1).toInt } := by
    rw [stampKept, hmine, hlock, Lock.waiting_popAcq, List.map_tail]
    simp only [hgrants, hasks]
    rfl
  have hrelease : Step (stampNoted cfg s log l src ns)
      (stampKept cfg s log l src (l % cfg.hostc) h' (h'.y.locks l)).grantHead := by
    rw [hkept]
    refine .release hle fun a => ?_
    exact grants_stampView log ((hinv.rel_free hrel).2 a)
  have hacqc : (h'.y.locks l).acqc = (s.manager cfg l).acqc - 1 := by
    rw [hlock]
    rfl
  have hpost : stampView cfg ({ s with net := drop s.net src (l % cfg.hostc) }.put
      (l % cfg.hostc) h' out) (log'.grant out) l =
      (stampKept cfg s log l src (l % cfg.hostc) h' (h'.y.locks l)).grantHead := by
    rcases hcases with ⟨hc, hout⟩ | ⟨hc, rfl⟩
    · refine stampView_grant hin hs rfl ?_ hout hlog
      rw [hacqc]
      exact Nat.sub_pos_of_lt hc
    · rw [stampView_silent hin hs rfl hlog, LockStamps.State.grantHead_nil]
      apply List.map_eq_nil_iff.mpr
      rw [Lock.waiting_eq_nil, hacqc]
      exact Nat.sub_eq_zero_of_le hc
  rw [hpost]
  exact .trans (.single (step_stampNoted hinv hrel ns)) (.single hrelease)

theorem stampView_enter {lockLog : LockLog} (hinv : LockQueue.Inv (lockView cfg s lockLog l))
    {scope : BitVec 32} {ns : List GrantNotice} (hnet : s.net src dst = .acqgrant l scope ns :: rest)
    (hin : Routed cfg src dst (.acqgrant l scope ns))
    (hs : Host.Served cfg dst (s.host dst) src rnd (.acqgrant l scope ns) h' out) :
    ReflTransGen Step (stampView cfg s log l)
      (stampView cfg ({ s with net := drop s.net src dst }.put dst h' out) (log.grant out) l) := by
  obtain ⟨rfl, -, hdown⟩ := grant_waiting hinv hnet hin (by simp [Msg.isGrant])
  obtain ⟨-, hone, hhead⟩ := hinv.down_waiting hdown
  obtain ⟨hlock, rfl⟩ := Host.served_acqgrant hs
  have hask : (stampView cfg s log l).asks dst = [] := by
    apply List.map_eq_nil_iff.mpr
    apply askScopes_eq_nil
    rw [show requests l (s.net dst (l % cfg.hostc)) = [] from hinv.up_granted hdown]
    exact List.not_mem_nil
  have hscopes : grantScopes l (s.net (l % cfg.hostc) dst) = scope :: grantScopes l rest := by
    rw [hnet]
    simp [grantScopes, Msg.grantScope]
  have hrest : grantScopes l rest = [] := by
    have hlength := length_grantScopes l (s.net (l % cfg.hostc) dst)
    rw [hscopes, show grants l (s.net (l % cfg.hostc) dst) = 1 from hone] at hlength
    simpa using hlength
  have hgrant : (stampView cfg s log l).grants dst = [scope.toInt] := by
    show (grantScopes l (s.net (l % cfg.hostc) dst)).map BitVec.toInt = _
    rw [hscopes, hrest]
    rfl
  have hgrants : (fun a => (grantScopes l (drop s.net (l % cfg.hostc) dst (l % cfg.hostc) a)).map
      BitVec.toInt) = LockQueue.set (stampView cfg s log l).grants dst [] := by
    funext a
    by_cases ha : a = dst
    · rw [ha, drop_same hnet, hrest, LockQueue.set_same]
      rfl
    · rw [drop_of_ne _ (by simp [ha]), LockQueue.set_of_ne _ _ ha]
      rfl
  have hasks := askScopes_drop (l := l) hnet rfl
  have hnodup : ((stampView cfg s log l).queue.map Prod.fst).Nodup := by
    rw [map_queue_stampView lockLog]
    exact hinv.nodup
  obtain ⟨myscope, hlk⟩ := manager_enter hs
  have hpost : stampView cfg ({ s with net := drop s.net (l % cfg.hostc) dst }.put dst h' [])
      (log.grant []) l = { stampView cfg s log l with
        mine := LockQueue.set (stampView cfg s log l).mine dst scope.toInt
        grants := LockQueue.set (stampView cfg s log l).grants dst [] } := by
    rw [stampView_served log hin hs rfl, hlk, stampKept, hlock]
    simp only [hasks, outboxTo_nil, grantScopes_nil, ite_self, List.append_nil]
    rw [hgrants]
    rfl
  rw [hpost]
  have hholder := (holder_stampView log lockLog).trans hhead
  exact .single (.enter dst hgrant hask hholder hnodup)

end Deliver

/-- The scope of a lock counts its releases, its notices come from hosts, and it is a run of the
manager that stamps notes until the scope overflows. -/
structure ScopesOk (cfg : Config) (s : State) (log : ScopeLog) (l : Nat) : Prop where
  scope : (s.manager cfg l).scope = BitVec.ofNat 32 (log.released l)
  writers : ∀ e ∈ (s.manager cfg l).wtntp.entries, e.fromPid < cfg.hostc ∨ e.fromPid = Maxhosts
  stamps : log.released l < 2 ^ 31 → LockStamps.Inv (stampView cfg s log l)

/-- What a message has to do with lock `l`. -/
inductive Msg.About (l : Nat) : Msg → Prop
  | acq (scope : BitVec 32) : About l (.acq l scope)
  | rel (scope : BitVec 32) (ns : List StackNotice) : About l (.rel l scope ns)
  | wtnt (ns : List StackNotice) : About l (.wtnt l ns)
  | acqgrant (scope : BitVec 32) (ns : List GrantNotice) : About l (.acqgrant l scope ns)
  | other {msg : Msg} (hreq : msg.lockRequest l = none) (hgrant : msg.isGrant l = false)
      (hwtnt : msg.wtntLock ≠ some l) : About l msg

theorem Msg.about (l : Nat) (msg : Msg) : msg.About l := by
  cases msg with
  | acq l' scope =>
      by_cases hl : l' = l
      · exact hl ▸ .acq scope
      · exact .other (by simp [Msg.lockRequest, hl]) rfl (by simp [Msg.wtntLock])
  | rel l' scope ns =>
      by_cases hl : l' = l
      · exact hl ▸ .rel scope ns
      · exact .other (by simp [Msg.lockRequest, hl]) rfl (by simp [Msg.wtntLock])
  | wtnt l' ns =>
      by_cases hl : l' = l
      · exact hl ▸ .wtnt ns
      · exact .other rfl rfl (by simp [Msg.wtntLock, hl])
  | acqgrant l' scope ns =>
      by_cases hl : l' = l
      · exact hl ▸ .acqgrant scope ns
      · exact .other rfl (by simp [Msg.isGrant, hl]) (by simp [Msg.wtntLock])
  | _ => exact .other rfl rfl (by simp [Msg.wtntLock])

theorem toInt_le_succ {n : Nat} (hn : n + 1 < 2 ^ 31) :
    (BitVec.ofNat 32 n).toInt ≤ (BitVec.ofNat 32 n + 1).toInt := by
  have hsucc : BitVec.ofNat 32 n + 1 = BitVec.ofNat 32 (n + 1) := (BitVec.ofNat_add n 1).symm
  rw [hsucc, BitVec.toInt_ofNat', BitVec.toInt_ofNat', Int.bmod_eq_of_le, Int.bmod_eq_of_le] <;>
    omega

namespace ScopesOk

theorem main {i : Nat} {a : Act} {h' : Host} {out : Out} (hok : ScopesOk cfg s log l)
    (hstack : Host.StackOk (s.host i)) (hm : Host.Main cfg i (s.host i) a h' out) :
    ScopesOk cfg (s.put i h' out) (log.grant out) l := by
  have hmgr : (s.put i h' out).manager cfg l = s.manager cfg l := by
    rw [manager_put, Host.main_locks hm]
    split
    · rename_i hi
      rw [State.manager, hi]
    · rfl
  refine ⟨?_, ?_, ?_⟩
  · rw [hmgr]
    exact hok.scope
  · rw [hmgr]
    exact hok.writers
  · exact fun hn => LockStamps.inv_steps (hok.stamps hn) (stampView_main hstack hm)

theorem recorded_writers {lk : Lock} {src : Nat} (hsrc : src < cfg.hostc) (ns : List StackNotice)
    (hlk : ∀ e ∈ lk.wtntp.entries, e.fromPid < cfg.hostc ∨ e.fromPid = Maxhosts) :
    ∀ e ∈ (Host.recorded lk src ns).wtntp.entries, e.fromPid < cfg.hostc ∨ e.fromPid = Maxhosts := by
  intro e he
  rcases WtntList.of_mem_record he with hold | ⟨-, rfl | hmany⟩
  · exact hlk e hold
  · exact Or.inl hsrc
  · exact Or.inr hmany

section Deliver

variable {src dst : Nat} {rnd : List Nat} {msg : Msg} {rest : List Msg} {h' : Host} {out : Out}
  {lockLog : LockLog}

theorem acq {scope : BitVec 32} (hok : ScopesOk cfg s log l)
    (hinv : LockQueue.Inv (lockView cfg s lockLog l)) (hnet : s.net src dst = .acq l scope :: rest)
    (hin : Routed cfg src dst (.acq l scope))
    (hm : Host.Served cfg dst (s.host dst) src rnd (.acq l scope) h' out) :
    ScopesOk cfg ({ s with net := drop s.net src dst }.put dst h' out) (log.grant out) l := by
  have hmgr := manager_put cfg { s with net := drop s.net src dst } l dst h' out
  rw [if_pos hin.2.symm, (Host.served_acq hm).1] at hmgr
  obtain rfl := hin.2
  refine ⟨?_, ?_, fun hn => ?_⟩
  · rw [hmgr]
    exact hok.scope
  · rw [hmgr]
    exact hok.writers
  · exact LockStamps.inv_steps (hok.stamps hn) (stampView_acq hinv hnet hin hm)

theorem rel {scope : BitVec 32} {ns : List StackNotice} (hok : ScopesOk cfg s log l)
    (hinv : LockQueue.Inv (lockView cfg s lockLog l)) (hsrc : src < cfg.hostc)
    (hnet : s.net src dst = .rel l scope ns :: rest) (hin : Routed cfg src dst (.rel l scope ns))
    (hm : Host.Served cfg dst (s.host dst) src rnd (.rel l scope ns) h' out) :
    ScopesOk cfg ({ s with net := drop s.net src dst }.put dst h' out)
      ((log.release (some (.rel l scope ns))).grant out) l := by
  have hmgr := manager_put cfg { s with net := drop s.net src dst } l dst h' out
  rw [if_pos hin.2.symm, (Host.served_rel hm).1] at hmgr
  obtain rfl := hin.2
  have hreleased : (log.release (some (.rel l scope ns))).released l = log.released l + 1 :=
    upd_same _ _ _
  refine ⟨?_, ?_, fun hn => ?_⟩
  · rw [hmgr]
    show (s.manager cfg l).scope + 1 = BitVec.ofNat 32 _
    rw [hok.scope, ScopeLog.grant, hreleased, BitVec.ofNat_add]
    rfl
  · rw [hmgr]
    exact recorded_writers hsrc ns hok.writers
  · have hlt : log.released l + 1 < 2 ^ 31 := hreleased ▸ hn
    refine LockStamps.inv_steps (hok.stamps (Nat.lt_of_succ_lt hlt))
      (stampView_rel hinv hnet hin hm ?_ rfl)
    rw [hok.scope]
    exact toInt_le_succ hlt

theorem wtnt {ns : List StackNotice} (hok : ScopesOk cfg s log l)
    (hinv : LockQueue.Inv (lockView cfg s lockLog l)) (hpaired : Paired l (s.net src dst))
    (hsrc : src < cfg.hostc) (hnet : s.net src dst = .wtnt l ns :: rest)
    (hin : Routed cfg src dst (.wtnt l ns))
    (hm : Host.Served cfg dst (s.host dst) src rnd (.wtnt l ns) h' out) :
    ScopesOk cfg ({ s with net := drop s.net src dst }.put dst h' out) (log.grant out) l := by
  have hmgr := manager_put cfg { s with net := drop s.net src dst } l dst h' out
  rw [if_pos hin.2.symm, (Host.served_wtnt hm).1] at hmgr
  obtain rfl := hin.2
  refine ⟨?_, ?_, fun hn => ?_⟩
  · rw [hmgr]
    exact hok.scope
  · rw [hmgr]
    exact recorded_writers hsrc ns hok.writers
  · exact LockStamps.inv_steps (hok.stamps hn) (stampView_wtnt hinv hpaired hnet hin hm)

theorem enter {scope : BitVec 32} {ns : List GrantNotice} (hok : ScopesOk cfg s log l)
    (hinv : LockQueue.Inv (lockView cfg s lockLog l))
    (hnet : s.net src dst = .acqgrant l scope ns :: rest)
    (hin : Routed cfg src dst (.acqgrant l scope ns))
    (hm : Host.Served cfg dst (s.host dst) src rnd (.acqgrant l scope ns) h' out) :
    ScopesOk cfg ({ s with net := drop s.net src dst }.put dst h' out) (log.grant out) l := by
  obtain ⟨myscope, hsame⟩ := manager_enter hm
  have hmgr := (manager_put cfg { s with net := drop s.net src dst } l dst h' out).trans hsame
  refine ⟨?_, ?_, fun hn => ?_⟩
  · rw [hmgr]
    exact hok.scope
  · rw [hmgr]
    exact hok.writers
  · exact LockStamps.inv_steps (hok.stamps hn) (stampView_enter hinv hnet hin hm)

theorem other (hok : ScopesOk cfg s log l) (hl : l < Maxlocks) (hnet : s.net src dst = msg :: rest)
    (hin : Routed cfg src dst msg) (hm : Host.Served cfg dst (s.host dst) src rnd msg h' out)
    (hreq : msg.lockRequest l = none) (hgrant : msg.isGrant l = false)
    (hwtnt : msg.wtntLock ≠ some l) :
    ScopesOk cfg ({ s with net := drop s.net src dst }.put dst h' out)
      ((log.release (some msg)).grant out) l := by
  obtain ⟨wl, hsame, hsub⟩ := manager_other hl hin hm hreq hgrant hwtnt
  have hmgr := (manager_put cfg { s with net := drop s.net src dst } l dst h' out).trans hsame
  have hreleased : (log.release (some msg)).released l = log.released l := by
    cases msg with
    | rel l' scope ns =>
        have hl' : l' ≠ l := by simpa [Msg.lockRequest] using hreq
        exact upd_of_ne _ _ (Ne.symm hl')
    | _ => rfl
  have hgranted : (log.release (some msg)).granted l = log.granted l := by
    cases msg <;> rfl
  refine ⟨?_, ?_, fun hn => ?_⟩
  · rw [hmgr]
    show (s.manager cfg l).scope = BitVec.ofNat 32 ((log.release (some msg)).released l)
    rw [hreleased]
    exact hok.scope
  · rw [hmgr]
    exact fun e he => hok.writers e (hsub e he)
  · have hlt : log.released l < 2 ^ 31 := hreleased ▸ hn
    exact LockStamps.inv_steps (hok.stamps hlt)
      (stampView_other hl hnet hin hm hreq hgrant hwtnt hgranted)

theorem deliver (hs : (system cfg).Reach s) (hok : ScopesOk cfg s log l) (hl : l < Maxlocks)
    (hnet : s.net src dst = msg :: rest)
    (hm : Host.Served cfg dst (s.host dst) src rnd msg h' out) :
    ScopesOk cfg ({ s with net := drop s.net src dst }.put dst h' out)
      ((log.release (some msg)).grant out) l := by
  have hmem : msg ∈ s.net src dst := by
    rw [hnet]
    exact List.mem_cons_self
  have hin := reach_routed hs hmem
  have hne : l ≠ hidelock := Nat.ne_of_lt hl
  obtain ⟨lockLog, hreach⟩ := hs.exists_hist (lockHistory cfg)
  have hinv := lockView_inv hreach hne
  cases msg.about l with
  | acq scope => exact hok.acq hinv hnet hin hm
  | rel scope ns => exact hok.rel hinv (request_lt hs hmem rfl) hnet hin hm
  | wtnt ns =>
      obtain rfl : dst = l % cfg.hostc := hin.2
      exact hok.wtnt hinv (reach_paired hs hne src) (request_lt hs hmem rfl) hnet hin hm
  | acqgrant scope ns => exact hok.enter hinv hnet hin hm
  | other hreq hgrant hwtnt => exact hok.other hl hnet hin hm hreq hgrant hwtnt

end Deliver

end ScopesOk

theorem reach_scopesOk {x : State × ScopeLog}
    (hx : ((system cfg).withHist (scopeHistory cfg)).Reach x) (hl : l < Maxlocks) :
    ScopesOk cfg x.1 x.2 l := by
  refine hx.invariant (I := fun x => ScopesOk cfg x.1 x.2 l) ?_ ?_
  · refine ⟨rfl, ?_, fun _ => ?_⟩
    · intro e he
      cases he
    · exact LockStamps.inv_init (-1) 0 (by decide)
  · intro x e x' hreach hok hnext
    obtain ⟨s, log⟩ := x
    obtain ⟨s', log'⟩ := x'
    obtain ⟨hstep, hlog⟩ := hnext
    dsimp only at hstep hlog hok ⊢
    subst hlog
    rcases step_view hstep with ⟨i, a, hst, out, rfl, hi, hm, hsent, rfl⟩ |
      ⟨src, dst, rnd, msg, rest, hst, out, rfl, hnet, hm, hsent, rfl⟩
    · have hobs : (scopeHistory cfg).obs log s (.main i a) (s.put i hst out) = log.grant out := by
        simp [scopeHistory, handled, hsent, ScopeLog.release]
      rw [hobs]
      exact hok.main (reach_stackOk hreach.forget i) hm
    · have hobs : (scopeHistory cfg).obs log s (.deliver src dst rnd)
          ({ s with net := drop s.net src dst }.put dst hst out) =
          (log.release (some msg)).grant out := by
        simp [scopeHistory, handled, hsent, hnet]
      rw [hobs]
      exact hok.deliver hreach.forget hl hnet hm

end Refinement

/-! ## What a grant tells -/

/-- The notices of a message of a grant of lock `l`. -/
def Msg.lockGrant (l : Nat) : Msg → Option (List GrantNotice)
  | .invld l' ns => if l' = l then some ns else none
  | .acqgrant l' _ ns => if l' = l then some ns else none
  | _ => none

namespace Host

variable {cfg : Config} {pid src : Nat} {rnd : List Nat} {h h' : Host} {out : Out} {l : Nat}

theorem lockGrant_broadcast {msg msg' : Msg} (hl : l ≠ hidelock) (hb : msg'.Broadcast)
    {root level d : Nat} (hmem : (d, msg) ∈ bcastserver cfg pid root level msg') :
    msg.lockGrant l = none := by
  have hmsg := mem_bcastserver hmem
  split at hmsg
  · subst hmsg
    cases hb with
    | invld ns => simp [Msg.lockGrant, hl.symm]
    | barrgrant scope ns => rfl
    | waitgrant => rfl
  · rw [hmsg]
    rfl

theorem lockGrant_grantFirst {l' d : Nat} (hg : h.grantFirst cfg l' = .ok out) {msg : Msg}
    (hmem : (d, msg) ∈ out) {ns : List GrantNotice} (hmsg : msg.lockGrant l = some ns) :
    l' = l := by
  obtain ⟨cs, -, rfl⟩ := grantFirst_ok hg
  obtain ⟨msg', hmsg', heq⟩ := List.mem_map.mp hmem
  obtain ⟨-, rfl⟩ := Prod.mk.inj heq
  by_contra hne
  obtain ⟨c, -, rfl | rfl⟩ := mem_chunkMsgs hmsg' <;> simp [Msg.lockGrant, hne] at hmsg

theorem served_lockGrant {msg : Msg} (hl : l ≠ hidelock) (hin : Routed cfg src pid msg)
    (hs : Served cfg pid h src rnd msg h' out) {d : Nat} {msg' : Msg} (hmem : (d, msg') ∈ out)
    {ns : List GrantNotice} (hmsg : msg'.lockGrant l = some ns) :
    msg.lockRequest l ≠ none ∧ h'.grantFirst cfg l = .ok out := by
  have hbcast : ∀ {m : Msg}, m.Broadcast → (d, msg') ∈ broadcast cfg pid m → False := by
    intro m hb hmem
    unfold broadcast at hmem
    split at hmem
    · rw [lockGrant_broadcast hl hb hmem] at hmsg
      cases hmsg
    · obtain ⟨k, -, heq⟩ := List.mem_map.mp hmem
      obtain ⟨-, rfl⟩ := Prod.mk.inj heq
      cases hb with
      | invld ns => simp [Msg.lockGrant, hl.symm] at hmsg
      | barrgrant scope ns => cases hmsg
      | waitgrant => cases hmsg
  cases hs with
  | diff hm =>
      obtain ⟨-, rfl⟩ := Prod.mk.inj (List.mem_singleton.mp hmem)
      cases hmsg
  | getp hm =>
      obtain ⟨wv, data, extra, rfl⟩ := getpserver_out hm
      obtain ⟨-, rfl⟩ := Prod.mk.inj (List.mem_singleton.mp hmem)
      cases hmsg
  | acqFirst hm hc hout =>
      obtain rfl := lockGrant_grantFirst hout hmem hmsg
      exact ⟨by simp [Msg.lockRequest], hout⟩
  | relNext hm hsrc hc hout =>
      obtain rfl := lockGrant_grantFirst hout hmem hmsg
      exact ⟨by simp [Msg.lockRequest], hout⟩
  | barrLast hm hc hout =>
      obtain ⟨cs, -, rfl⟩ := grantbarr_ok hout
      obtain ⟨m, hm, hmem⟩ := List.mem_flatMap.mp hmem
      obtain ⟨c, -, rfl | rfl⟩ := mem_chunkMsgs hm
      · exact (hbcast (.invld _) hmem).elim
      · exact (hbcast (.barrgrant _ _) hmem).elim
  | waitLast hc => exact (hbcast .waitgrant hmem).elim
  | bcast =>
      rw [lockGrant_broadcast hl hin hmem] at hmsg
      cases hmsg
  | _ => cases hmem

theorem mem_grantFirst (hg : h.grantFirst cfg l = .ok out) {d : Nat} {msg : Msg}
    (hmem : (d, msg) ∈ out) {ns : List GrantNotice} (hmsg : msg.lockGrant l = some ns) :
    d = (h.y.locks l).acqs 0 ∧ ∀ n ∈ ns, ∃ e ∈ (h.y.locks l).wtntp.entries, e.toGrant = n ∧
      ((h.y.locks l).acqscope 0).toInt < e.scope.toInt := by
  obtain ⟨cs, hcs, rfl⟩ := grantFirst_ok hg
  obtain ⟨msg', hmsg', heq⟩ := List.mem_map.mp hmem
  obtain ⟨rfl, rfl⟩ := Prod.mk.inj heq
  obtain ⟨c, hc, hlast⟩ := mem_chunkMsgs hmsg'
  obtain rfl : c.map WtntEntry.toGrant = ns := by
    rcases hlast with rfl | rfl <;> simpa [Msg.lockGrant] using hmsg
  refine ⟨rfl, ?_⟩
  intro n hn
  obtain ⟨e, he, rfl⟩ := List.mem_map.mp hn
  have hmem' : e ∈ cs.flatten := List.mem_flatten.mpr ⟨c, hc, he⟩
  rw [Packing.chunks_flatten hcs, List.mem_filter] at hmem'
  obtain ⟨hentry, hsel⟩ := hmem'
  simp only [appendLockWtnts, Bool.and_eq_true] at hsel
  exact ⟨e, hentry, rfl, BitVec.slt_iff_toInt_lt.mp hsel.1⟩

end Host

section Grants

variable {cfg : Config} {l : Nat} {x x' : State × ScopeLog} {e : Event}

theorem released_le (hnext : ((system cfg).withHist (scopeHistory cfg)).next x e x') :
    x.2.released l ≤ x'.2.released l := by
  rw [hnext.2]
  show _ ≤ (x.2.release (handled x.1 e)).released l
  unfold ScopeLog.release
  split
  · rename_i l' scope ns _
    by_cases hl : l = l'
    · subst hl
      simp
    · simp [hl]
  · exact le_refl _

/-- A manager that grants the lock has no other grant of it on its way. -/
theorem granting_free {s : State} {lockLog : LockLog} (hinv : LockQueue.Inv (lockView cfg s lockLog l))
    {src dst : Nat} {rnd : List Nat} {msg : Msg} {rest : List Msg} {h' : Host} {out : Out}
    (hnet : s.net src dst = msg :: rest) (hin : Routed cfg src dst msg)
    (hm : Host.Served cfg dst (s.host dst) src rnd msg h' out) (hreq : msg.lockRequest l ≠ none)
    (hout : out ≠ []) :
    dst = l % cfg.hostc ∧ (∀ a, (lockView cfg s lockLog l).down a = 0) ∧
      0 < (h'.y.locks l).acqc ∧ (h'.y.locks l).myscope = ((s.host dst).y.locks l).myscope := by
  cases msg.about l with
  | acq scope =>
      obtain ⟨hlock, ⟨hc, -⟩ | ⟨-, hnone⟩⟩ := Host.served_acq hm
      · obtain rfl := hin.2
        rw [hlock]
        exact ⟨rfl, hinv.empty_free (Host.queue_eq_nil.mpr hc), Nat.succ_pos _, rfl⟩
      · exact absurd hnone hout
  | rel scope ns =>
      obtain ⟨hlock, ⟨hc, -⟩ | ⟨-, hnone⟩⟩ := Host.served_rel hm
      · obtain rfl := hin.2
        have hrel : LockQueue.Request.rel ∈ requests l (s.net src (l % cfg.hostc)) := by
          rw [hnet]
          simp [requests, Msg.lockRequest]
        rw [hlock]
        exact ⟨rfl, (hinv.rel_free hrel).2, Nat.sub_pos_of_lt hc, rfl⟩
      · exact absurd hnone hout
  | wtnt ns => exact absurd rfl hreq
  | acqgrant scope ns => exact absurd rfl hreq
  | other hnone => exact absurd hnone hreq

/-- A grant tells the host what is newer than its last grant and not its own. -/
theorem sent_lockGrant (hx : ((system cfg).withHist (scopeHistory cfg)).Reach x)
    (hnext : ((system cfg).withHist (scopeHistory cfg)).next x e x') (hl : l < Maxlocks)
    (hbound : x'.2.released l < 2 ^ 31) {b : Nat} {msg : Msg} {ns : List GrantNotice}
    (hsent : (b, msg) ∈ sent cfg x.1 e) (hmsg : msg.lockGrant l = some ns) :
    x.2.granted l b = ((x.1.host b).y.locks l).myscope ∧
      ∀ n ∈ ns, ∃ entry ∈ (x'.1.manager cfg l).wtntp.entries, entry.toGrant = n ∧
        (x.2.granted l b).toInt < entry.scope.toInt ∧ n.fromPid ≠ b ∧
        (n.fromPid < cfg.hostc ∨ n.fromPid = Maxhosts) := by
  have hx' := hx.step hnext
  have hok := reach_scopesOk hx hl
  have hok' := reach_scopesOk hx' hl
  have hstamps := hok.stamps (Nat.lt_of_le_of_lt (released_le hnext) hbound)
  have hstamps' := hok'.stamps hbound
  have hne : l ≠ hidelock := Nat.ne_of_lt hl
  obtain ⟨s, log⟩ := x
  obtain ⟨s', log'⟩ := x'
  rcases step_view hnext.1 with ⟨i, a, hst, out, rfl, hi, hm, hout, hs'⟩ |
    ⟨src, dst, rnd, m, rest, hst, out, rfl, hnet, hm, hout, hs'⟩
  · -- main threads grant nothing
    rw [hout] at hsent
    have hreq := (Host.main_routed (reach_stackOk hx.forget i) hm hsent).1
    cases msg <;> first | cases hmsg | cases hreq
  · rw [hout] at hsent
    dsimp only at hs' hnet hm hstamps hstamps' hok hok' ⊢
    have hin : Routed cfg src dst m := by
      apply reach_routed hx.forget
      rw [hnet]
      exact List.mem_cons_self
    obtain ⟨hreq, hgrant⟩ := Host.served_lockGrant hne hin hm hsent hmsg
    obtain ⟨lockLog, hreach⟩ := hx.forget.exists_hist (lockHistory cfg)
    obtain ⟨rfl, hfree, hpos, hmine⟩ := granting_free (lockView_inv hreach hne) hnet hin hm hreq
      (List.ne_nil_of_mem hsent)
    obtain ⟨rfl, hnotices⟩ := Host.mem_grantFirst hgrant hsent hmsg
    have hmgr : s'.manager cfg l = hst.y.locks l := by
      rw [hs', manager_put, if_pos rfl]
    generalize hb : (hst.y.locks l).acqs 0 = b at hsent ⊢
    have hgranted : log.granted l b = ((s.host b).y.locks l).myscope := by
      have hlast := hstamps.last b
      rw [grants_stampView log (hfree b)] at hlast
      exact BitVec.toInt_inj.mp hlast
    have hmine' : ((s'.host b).y.locks l).myscope = ((s.host b).y.locks l).myscope := by
      by_cases hbm : b = l % cfg.hostc
      · rw [hs', hbm, State.put_host_same]
        exact hmine
      · rw [hs', State.put_host_of_ne _ _ _ hbm]
    obtain ⟨q, hq⟩ := Lock.head_waiting hpos
    have hqueue : (b, ((hst.y.locks l).acqscope 0).toInt) ∈ (stampView cfg s' log' l).queue := by
      simp [stampView, hmgr, hq, hb]
    have hgrants : (stampView cfg s' log' l).grants b ≠ [] := by
      have hsend := Host.grantScopes_grantFirst hgrant b
      rw [if_pos hb.symm] at hsend
      simp [stampView, hs', send_same, hsend]
    have hscope := hstamps'.queued _ hqueue (Or.inr hgrants)
    have hlt : b < cfg.hostc := by
      obtain ⟨lockLog', hreach'⟩ := hx'.forget.exists_hist (lockHistory cfg)
      refine mem_queue_lt hreach' hne ?_
      obtain ⟨q, hq⟩ := Host.head_queue hpos
      rw [show ((s'.host (l % cfg.hostc)).y.locks l) = hst.y.locks l from hmgr, hq, hb]
      exact List.mem_cons_self
    refine ⟨hgranted, ?_⟩
    intro n hn
    obtain ⟨entry, hentry, rfl, hnewer⟩ := hnotices n hn
    rw [← hmgr] at hentry
    have hown : entry.writer ≠ some b :=
      hstamps'.not_own hqueue hgrants (List.mem_map_of_mem hentry) hnewer
    refine ⟨entry, hentry, rfl, ?_, ?_, hok'.writers entry hentry⟩
    · rw [hgranted, ← hmine']
      exact hscope.symm.trans_lt hnewer
    · intro heq
      have hhosts := cfg.hostc_le
      apply hown
      rw [WtntEntry.writer, show entry.fromPid = b from heq, if_neg (by omega)]

theorem mem_net_sent {s s' : State} (h : step cfg s e = .ok s') {a b : Nat} {msg : Msg}
    (hmem : msg ∈ s'.net a b) : msg ∈ s.net a b ∨ (b, msg) ∈ sent cfg s e := by
  rcases step_view h with ⟨i, act, hst, out, -, -, -, hsent, rfl⟩ |
    ⟨src, dst, rnd, msg₀, rest, hst, out, -, hnet, -, hsent, rfl⟩
  · rw [State.put_net] at hmem
    rw [hsent]
    exact (mem_send.mp hmem).imp_right And.right
  · rw [State.put_net] at hmem
    rw [hsent]
    exact (mem_send.mp hmem).imp mem_of_mem_drop And.right

/-- No notice of a grant on its way names its receiver. -/
theorem reach_lockGrant (hx : ((system cfg).withHist (scopeHistory cfg)).Reach x)
    (hl : l < Maxlocks) (hbound : x.2.released l < 2 ^ 31) {a b : Nat} {msg : Msg}
    (hmem : msg ∈ x.1.net a b) {ns : List GrantNotice} (hmsg : msg.lockGrant l = some ns) :
    ∀ n ∈ ns, n.fromPid ≠ b := by
  revert hbound a b msg ns
  refine hx.invariant (I := fun x => x.2.released l < 2 ^ 31 → ∀ {a b msg}, msg ∈ x.1.net a b →
    ∀ {ns}, msg.lockGrant l = some ns → ∀ n ∈ ns, n.fromPid ≠ b) ?_ ?_
  · intro _ a b msg hmem
    cases hmem
  · intro x e x' hreach hold hnext hbound a b msg hmem ns hmsg n hn
    rcases mem_net_sent hnext.1 hmem with hmem | hsent
    · exact hold (Nat.lt_of_le_of_lt (released_le hnext) hbound) hmem hmsg n hn
    · obtain ⟨-, hnotices⟩ := sent_lockGrant hreach hnext hl hbound hsent hmsg
      obtain ⟨entry, -, -, -, hne, -⟩ := hnotices n hn
      exact hne

/-- The first branch of `invalidate` without its test on `modifypid`. -/
def dropCopy (cfg : Config) (pid : Nat) (m : MemState) (n : GrantNotice) : Result MemState := do
  let cachei := m.cachepage cfg n.addr
  if m.homehost cfg n.addr ≠ pid ∧ cachei < cfg.cachepages ∧ (m.cache cachei).state ≠ .inv then do
    let c := m.cache cachei
    (m.setCache cachei { c with state := .inv, wtnt := false }).memprotect (cfg.pagei c.addr) .none
  else return m

/-- Where no notice names the host, `invalidate` drops the copies of all pages. -/
theorem invalidate_eq_dropCopy {pid : Nat} (hl : l ≠ hidelock) {ns : List GrantNotice}
    (hns : ∀ n ∈ ns, n.fromPid ≠ pid) (m : MemState) :
    Host.invalidate cfg pid l m ns = ns.foldlM (dropCopy cfg pid) m := by
  induction ns generalizing m with
  | nil => rfl
  | cons n ns ih =>
      have hne := hns n List.mem_cons_self
      have hcopy : Host.invalidateCopy cfg pid m n = dropCopy cfg pid m n := by
        simp only [Host.invalidateCopy, dropCopy, hne, ne_eq, not_false_iff, true_and]
      have hmig : ∀ m, Host.migrateNotice cfg pid l m n = .ok m := by
        intro m
        rw [Host.migrateNotice, if_neg fun h => hl h.2.1]
      have hmark : ∀ homepid m, Host.markRemote cfg pid l homepid m n = .ok m := by
        intro homepid m
        rw [Host.markRemote, if_neg fun h => hl h.2.1]
      have hnotice : Host.invalidateNotice cfg pid l m n = dropCopy cfg pid m n := by
        simp only [Host.invalidateNotice, hcopy, hmig, hmark]
        exact bind_pure _
      rw [Host.invalidate, List.foldlM_cons, hnotice]
      congr 1
      funext m'
      exact ih (fun n hn => hns n (List.mem_cons_of_mem _ hn)) m'

/-- In every run with fewer than `2 ^ 31` releases of a lock, the notices of a grant of the lock
are newer than the last grant of the host it goes to and come from other hosts or from several,
and when the host handles them `invalidate` drops what it would drop without its test on
`modifypid`. -/
theorem lock_grants_tell_others (hx : ((system cfg).withHist (scopeHistory cfg)).Reach x)
    (hnext : ((system cfg).withHist (scopeHistory cfg)).next x e x') (hl : l < Maxlocks)
    (hbound : x'.2.released l < 2 ^ 31) :
    (∀ b msg ns, (b, msg) ∈ sent cfg x.1 e → msg.lockGrant l = some ns →
      x.2.granted l b = ((x.1.host b).y.locks l).myscope ∧
      ∀ n ∈ ns, ∃ entry ∈ (x'.1.manager cfg l).wtntp.entries, entry.toGrant = n ∧
        (x.2.granted l b).toInt < entry.scope.toInt ∧ n.fromPid ≠ b ∧
        (n.fromPid < cfg.hostc ∨ n.fromPid = Maxhosts)) ∧
    ∀ a b msg ns, msg ∈ x'.1.net a b → msg.lockGrant l = some ns →
      ∀ m, Host.invalidate cfg b l m ns = ns.foldlM (dropCopy cfg b) m := by
  refine ⟨?_, ?_⟩
  · intro b msg ns hsent hmsg
    exact sent_lockGrant hx hnext hl hbound hsent hmsg
  · intro a b msg ns hmem hmsg
    have hhide : l ≠ hidelock := Nat.ne_of_lt hl
    exact invalidate_eq_dropCopy hhide (reach_lockGrant (hx.step hnext) hl hbound hmem hmsg)

end Grants

/-- Host 1 writes the page of host 0 under lock 0, then host 0 does, and host 1 asks again. -/
def writeInTurn : List Event :=
  [.main 1 (.lock 0), .main 1 .go, .main 1 .go, .deliver 1 0 [], .deliver 0 1 [], .main 1 .go,
    .main 1 (.fault 0 true 0), .deliver 1 0 [], .deliver 0 1 [], .main 1 .go,
    .main 1 (.fault 0 true 0), .main 1 .go, .main 1 (.store 0 Config.unit0 7),
    .main 1 (.unlock 0), .main 1 .go, .deliver 1 0 [], .deliver 0 1 [], .main 1 .go,
    .deliver 1 0 [],
    .main 0 (.lock 0), .main 0 .go, .main 0 .go, .main 0 .go, .deliver 0 0 [], .deliver 0 0 [],
    .main 0 .go, .main 0 (.fault 0 true 0), .main 0 (.store 0 Config.unit0 8),
    .main 0 (.unlock 0), .main 0 .go, .main 0 .go, .main 0 .go, .deliver 0 0 [],
    .main 1 (.lock 0), .main 1 .go, .main 1 .go]

/-- Host 0 handles the request next, and its grant brings a notice. -/
def grantsNotice (x : State × ScopeLog) : Bool :=
  (step .onePage x.1 (.deliver 1 0 [])).isOk &&
    decide ((x.2.release (handled x.1 (.deliver 1 0 []))).released 0 < 2 ^ 31) &&
    (sent .onePage x.1 (.deliver 1 0 [])).any fun y =>
      decide (y.1 = 1) && (y.2.lockGrant 0).any fun ns => !ns.isEmpty

theorem lock_grants_tell_others_writeInTurn :
    ∃ x x' msg n ns, ((system .onePage).withHist (scopeHistory .onePage)).Reach x ∧
      ((system .onePage).withHist (scopeHistory .onePage)).next x (.deliver 1 0 []) x' ∧
      (1, msg) ∈ sent .onePage x.1 (.deliver 1 0 []) ∧ msg.lockGrant 0 = some ns ∧ n ∈ ns ∧
      n.fromPid ≠ 1 := by
  obtain ⟨x, hx, hcheck⟩ := exists_execHist .onePage (scopeHistory .onePage) writeInTurn
    grantsNotice (by decide +kernel)
  simp only [grantsNotice, Bool.and_eq_true, decide_eq_true_eq, List.any_eq_true] at hcheck
  obtain ⟨⟨hstep, hbound⟩, ⟨d, msg⟩, hsent, rfl, hany⟩ := hcheck
  obtain ⟨ns, hmsg, hne⟩ := (Option.any_eq_true _ _).mp hany
  obtain ⟨n, hn⟩ : ∃ n, n ∈ ns := List.exists_mem_of_ne_nil ns (by simpa using hne)
  cases hs : step .onePage x.1 (.deliver 1 0 []) with
  | error what =>
      rw [hs] at hstep
      cases hstep
  | ok s' =>
      have hnext : ((system .onePage).withHist (scopeHistory .onePage)).next x (.deliver 1 0 [])
          (s', (scopeHistory .onePage).obs x.2 x.1 (.deliver 1 0 []) s') := ⟨hs, rfl⟩
      have hgrants := (lock_grants_tell_others hx hnext (by decide) hbound).1 1 msg ns hsent hmsg
      obtain ⟨entry, -, -, -, hother, -⟩ := hgrants.2 n hn
      exact ⟨x, _, msg, n, ns, hx, hnext, hsent, hmsg, hn, hother⟩

end Jiajia
