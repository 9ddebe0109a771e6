import Jiajia.Global
import Jiajia.Lib.Transition

/-!
# Condition variables

`jia_setcv`, `jia_resetcv` and `jia_waitcv` on any hosts, and the server threads of their
managers.  Messages may be overtaken: any one in flight can be the next that is handled.
-/

namespace Jiajia.CondVar

open Transition

abbrev Maxcvs : Nat := 16

/-- `jiacv_t`; `waitc` is the length of `waits`. -/
structure Jiacv where
  waits : List Nat
  value : Bool

inductive CvOp
  | setcv
  | resetcv
  | waitcv
  | cvgrant
deriving DecidableEq

structure CvMsg where
  op : CvOp
  frompid : Nat
  topid : Nat
  condv : Nat
deriving DecidableEq

/-! ## The handlers -/

/-- The message of `grantcondv(condv, toproc)` on host `pid`. -/
def grantcondv (pid condv toproc : Nat) : CvMsg := ⟨.cvgrant, pid, toproc, condv⟩

/-- The loop that grants and the reset of `waitc` behind it. -/
def grantAll (pid condv : Nat) (cv : Jiacv) : Jiacv × List CvMsg :=
  ({ cv with waits := [] }, cv.waits.map (grantcondv pid condv))

def setcvserver (hostc pid condv : Nat) (cv : Jiacv) : Result (Jiacv × List CvMsg) := do
  jiaAssert (condv % hostc = pid) "Incorrect home of condv!"
  return grantAll pid condv { cv with value := true }

def resetcvserver (cv : Jiacv) : Jiacv := { cv with value := false }

def waitcvserver (pid condv frompid : Nat) (cv : Jiacv) : Result (Jiacv × List CvMsg) := do
  defined (cv.waits.length < Maxhosts) "waits[Maxhosts]"
  let cv := { cv with waits := cv.waits ++ [frompid] }
  return if cv.value then grantAll pid condv cv else (cv, [])

/-! ## The hosts -/

/-- Where the main thread is: in `jia_waitcv(c)` before and after the message is out. -/
inductive Main
  | idle
  | sending (c : Nat)
  | spinning (c : Nat)
deriving DecidableEq

/-- `condvars[]` of each host, its main thread with `cvwait`, and the messages in flight. -/
structure CvState where
  condvars : Nat → Nat → Jiacv
  main : Nat → Main
  cvwait : Nat → Bool
  net : List CvMsg

/-- `initsyn` on every host. -/
def initsyn : CvState where
  condvars _ _ := ⟨[], false⟩
  main _ := .idle
  cvwait _ := false
  net := []

inductive CvEvent
  /-- `jia_setcv(c)` on host `p` -/
  | set (p c : Nat)
  /-- `jia_resetcv(c)` on host `p` -/
  | reset (p c : Nat)
  /-- `jia_waitcv(c)` on host `p`, up to the store to `cvwait` -/
  | wait (p c : Nat)
  /-- The message of `jia_waitcv` goes out. -/
  | send (p : Nat)
  /-- `jia_waitcv` returns. -/
  | ret (p : Nat)
  /-- A server thread handles a message. -/
  | deliver (m : CvMsg)

namespace CvState

/-- A message goes out. -/
def post (s : CvState) (m : CvMsg) : CvState := { s with net := s.net ++ [m] }

/-- Host `topid` has handled a message about one of its condition variables. -/
def handled (s : CvState) (m : CvMsg) (cv : Jiacv) (sent : List CvMsg) : CvState :=
  { s with
    condvars := upd s.condvars m.topid (upd (s.condvars m.topid) m.condv cv)
    net := s.net.erase m ++ sent }

/-- The server thread on a message. -/
def deliver (hostc : Nat) (s : CvState) (m : CvMsg) : Result CvState :=
  let cv := s.condvars m.topid m.condv
  match m.op with
  | .setcv => do
      let (cv, sent) ← setcvserver hostc m.topid m.condv cv
      return s.handled m cv sent
  | .resetcv => return s.handled m (resetcvserver cv) []
  | .waitcv => do
      let (cv, sent) ← waitcvserver m.topid m.condv m.frompid cv
      return s.handled m cv sent
  | .cvgrant => return { s with cvwait := upd s.cvwait m.topid false, net := s.net.erase m }

end CvState

/-- The step of the main thread that sends. -/
def sendWait (hostc : Nat) (s : CvState) (p : Nat) : Result CvState :=
  match s.main p with
  | .sending c =>
      .ok { s.post ⟨.waitcv, p, c % hostc, c⟩ with main := upd s.main p (.spinning c) }
  | _ => .error .blocked

/-- The spin loop ends. -/
def leaveWait (s : CvState) (p : Nat) : Result CvState :=
  match s.main p, s.cvwait p with
  | .spinning _, false => .ok { s with main := upd s.main p .idle }
  | _, _ => .error .blocked

/-- One step; with one host the calls return at once. -/
def cvStep (hostc : Nat) (s : CvState) : CvEvent → Result CvState
  | .set p c =>
      if p < hostc ∧ c < Maxcvs ∧ s.main p = .idle then
        .ok (if hostc = 1 then s else s.post ⟨.setcv, p, c % hostc, c⟩)
      else .error .blocked
  | .reset p c =>
      if p < hostc ∧ c < Maxcvs ∧ s.main p = .idle then
        .ok (if hostc = 1 then s else s.post ⟨.resetcv, p, c % hostc, c⟩)
      else .error .blocked
  | .wait p c =>
      if p < hostc ∧ c < Maxcvs ∧ s.main p = .idle then
        .ok (if hostc = 1 then s
          else { s with main := upd s.main p (.sending c), cvwait := upd s.cvwait p true })
      else .error .blocked
  | .send p => sendWait hostc s p
  | .ret p => leaveWait s p
  | .deliver m => if m ∈ s.net then s.deliver hostc m else .error .blocked

def cvSystem (hostc : Nat) : System CvState CvEvent where
  start := initsyn
  next s e s' := cvStep hostc s e = .ok s'

/-! ## What has happened -/

/-- The messages of host `p` about `c`. -/
def waitMsg (hostc p c : Nat) : CvMsg := ⟨.waitcv, p, c % hostc, c⟩
def grantMsg (hostc p c : Nat) : CvMsg := ⟨.cvgrant, c % hostc, p, c⟩

/-- For each host and condition variable: the calls of `jia_waitcv` and the returns, the WAITCV
that were handled and those among them that are due an answer, the CVGRANT sent and handled.  A
WAITCV is due if the value was 1 when it arrived, or else from the next SETCV on; the `k`-th
CVGRANT is the answer to the `k`-th WAITCV. -/
structure CvCounts where
  called : Nat → Nat → Nat
  returned : Nat → Nat → Nat
  arrived : Nat → Nat → Nat
  due : Nat → Nat → Nat
  granted : Nat → Nat → Nat
  received : Nat → Nat → Nat

def inc (f : Nat → Nat → Nat) (p c : Nat) : Nat → Nat → Nat :=
  fun q d => if q = p ∧ d = c then f q d + 1 else f q d

theorem inc_apply (f : Nat → Nat → Nat) (p c q d : Nat) :
    inc f p c q d = f q d + if q = p ∧ d = c then 1 else 0 := by
  unfold inc
  split <;> rfl

/-- The host and the variable in the order of a handler, which looks at one variable. -/
theorem inc_handler (f : Nat → Nat → Nat) (p c q d : Nat) :
    inc f p c q d = f q d + if d = c then if q = p then 1 else 0 else 0 := by
  rw [inc_apply, ← ite_and]
  simp only [and_comm]

/-- The CVGRANT that a step has sent. -/
def newGrants (hostc : Nat) (s s' : CvState) (p c : Nat) : Nat :=
  s'.net.count (grantMsg hostc p c) - s.net.count (grantMsg hostc p c)

/-- What a handled message adds. -/
def CvCounts.handle (hostc : Nat) (h : CvCounts) (s : CvState) (m : CvMsg) (s' : CvState) :
    CvCounts :=
  match m.op with
  | .setcv =>
      { h with
        due := fun p c => if c = m.condv then h.arrived p c else h.due p c
        granted := fun p c => h.granted p c + newGrants hostc s s' p c }
  | .resetcv => h
  | .waitcv =>
      { h with
        arrived := inc h.arrived m.frompid m.condv
        due := if (s.condvars m.topid m.condv).value then inc h.due m.frompid m.condv else h.due
        granted := fun p c => h.granted p c + newGrants hostc s s' p c }
  | .cvgrant => { h with received := inc h.received m.topid m.condv }

def cvHistory (hostc : Nat) : System.Observer CvState CvEvent CvCounts where
  start := ⟨fun _ _ => 0, fun _ _ => 0, fun _ _ => 0, fun _ _ => 0, fun _ _ => 0, fun _ _ => 0⟩
  obs h s e s' :=
    match e with
    | .wait p c =>
        { h with
          called := inc h.called p c
          returned := if s'.main p = .idle then inc h.returned p c else h.returned }
    | .ret p =>
        match s.main p with
        | .spinning c => { h with returned := inc h.returned p c }
        | _ => h
    | .deliver m => h.handle hostc s m s'
    | _ => h

/-- No wake-up is lost or duplicated. -/
structure CvOk (hostc : Nat) (s : CvState) (h : CvCounts) : Prop where
  answered : ∀ p c, h.granted p c = h.due p c
  due_le : ∀ p c, h.due p c ≤ h.arrived p c ∧ h.arrived p c ≤ h.due p c + 1
  quiet : ∀ c, (s.condvars (c % hostc) c).value = true → (s.condvars (c % hostc) c).waits = []
  waitc_le : ∀ c, (s.condvars (c % hostc) c).waits.length ≤ hostc
  handles : hostc ≤ Maxhosts → ∀ m ∈ s.net, ∃ s', s.deliver hostc m = .ok s'
  wakes : ∀ p c, s.main p = .spinning c → s.cvwait p = false → h.received p c = h.called p c
  returned_le : ∀ p c, h.returned p c ≤ h.received p c

/-! ## Counting messages -/

section Counting

variable {hostc : Nat} {s : CvState}

/-- The condition variable on its manager. -/
def CvState.cv (s : CvState) (hostc c : Nat) : Jiacv := s.condvars (c % hostc) c

/-- WAITCV in flight, waiters in the queue, CVGRANT in flight. -/
def CvState.waitsOf (s : CvState) (hostc p c : Nat) : Nat := s.net.count (waitMsg hostc p c)
def CvState.queued (s : CvState) (hostc p c : Nat) : Nat := (s.cv hostc c).waits.count p
def CvState.grantsOf (s : CvState) (hostc p c : Nat) : Nat := s.net.count (grantMsg hostc p c)

theorem cv_handled {m : CvMsg} (hm : m.topid = m.condv % hostc) (cv : Jiacv) (sent : List CvMsg)
    (c : Nat) : (s.handled m cv sent).cv hostc c = if c = m.condv then cv else s.cv hostc c := by
  show upd s.condvars m.topid (upd (s.condvars m.topid) m.condv cv) (c % hostc) c = _
  by_cases hc : c = m.condv
  · rw [if_pos hc, hc, ← hm, upd_same, upd_same]
  · rw [if_neg hc]
    by_cases hhome : c % hostc = m.topid
    · rw [hhome, upd_same, upd_of_ne _ _ hc, ← hhome]
      rfl
    · rw [upd_of_ne _ _ hhome]
      rfl

theorem count_handled (m k : CvMsg) (cv : Jiacv) (sent : List CvMsg) :
    (s.handled m cv sent).net.count k = (s.net.count k - if m = k then 1 else 0) + sent.count k := by
  show (s.net.erase m ++ sent).count k = _
  rw [List.count_append, List.count_erase]
  simp only [beq_iff_eq]

theorem count_grants (p c d : Nat) (waits : List Nat) :
    (waits.map (grantcondv (d % hostc) d)).count (grantMsg hostc p c) =
      if c = d then waits.count p else 0 := by
  by_cases hc : c = d
  · have hinj : Function.Injective (grantcondv (d % hostc) d) := fun a b h => congrArg CvMsg.topid h
    rw [if_pos hc, hc]
    exact List.count_map_of_injective waits _ hinj p
  · rw [if_neg hc, List.count_eq_zero]
    intro hmem
    obtain ⟨q, -, hq⟩ := List.mem_map.mp hmem
    exact hc (congrArg CvMsg.condv hq).symm

theorem count_grants_wait (p c pid d : Nat) (waits : List Nat) :
    (waits.map (grantcondv pid d)).count (waitMsg hostc p c) = 0 := by
  rw [List.count_eq_zero]
  intro hmem
  obtain ⟨q, -, hq⟩ := List.mem_map.mp hmem
  cases congrArg CvMsg.op hq

theorem waitMsg_iff {m : CvMsg} (hop : m.op = .waitcv) (hm : m.topid = m.condv % hostc) (p c : Nat) :
    m = waitMsg hostc p c ↔ p = m.frompid ∧ c = m.condv := by
  constructor
  · intro heq
    rw [heq]
    exact ⟨rfl, rfl⟩
  · rintro ⟨rfl, rfl⟩
    show m = ⟨.waitcv, m.frompid, m.condv % hostc, m.condv⟩
    rw [← hop, ← hm]

theorem grantMsg_iff {m : CvMsg} (hop : m.op = .cvgrant) (hm : m.frompid = m.condv % hostc)
    (p c : Nat) : m = grantMsg hostc p c ↔ p = m.topid ∧ c = m.condv := by
  constructor
  · intro heq
    rw [heq]
    exact ⟨rfl, rfl⟩
  · rintro ⟨rfl, rfl⟩
    show m = ⟨.cvgrant, m.condv % hostc, m.topid, m.condv⟩
    rw [← hop, ← hm]

theorem ne_waitMsg {m : CvMsg} (hop : m.op ≠ .waitcv) (p c : Nat) : m ≠ waitMsg hostc p c :=
  fun heq => hop (congrArg CvMsg.op heq)

theorem ne_grantMsg {m : CvMsg} (hop : m.op ≠ .cvgrant) (p c : Nat) : m ≠ grantMsg hostc p c :=
  fun heq => hop (congrArg CvMsg.op heq)

end Counting

/-! ## The invariant -/

/-- 1 while the host is in `jia_waitcv(c)`. -/
def inside (c : Nat) (main : Main) : Nat := if main = .sending c ∨ main = .spinning c then 1 else 0

/-- A message knows its manager. -/
structure MsgOk (hostc : Nat) (m : CvMsg) : Prop where
  manager : m.op ≠ .cvgrant → m.topid = m.condv % hostc
  sender : m.op = .waitcv → m.frompid < hostc
  grantor : m.op = .cvgrant → m.frompid = m.condv % hostc

/-- A host that waits has one token: its WAITCV, its place in the queue or its CVGRANT. -/
structure CvInv (hostc : Nat) (s : CvState) (h : CvCounts) : Prop where
  msgs : ∀ m ∈ s.net, MsgOk hostc m
  quiet : ∀ c, (s.cv hostc c).value = true → (s.cv hostc c).waits = []
  lt : ∀ c, ∀ p ∈ (s.cv hostc c).waits, p < hostc
  token : ∀ p c, s.waitsOf hostc p c + s.queued hostc p c + s.grantsOf hostc p c =
    if s.main p = .spinning c ∧ s.cvwait p = true then 1 else 0
  called : ∀ p c, h.called p c =
    h.arrived p c + s.waitsOf hostc p c + if s.main p = .sending c then 1 else 0
  arrived : ∀ p c, h.arrived p c = h.due p c + s.queued hostc p c
  granted : ∀ p c, h.granted p c = h.due p c
  received : ∀ p c, h.granted p c = h.received p c + s.grantsOf hostc p c
  returned : ∀ p c, h.called p c = h.returned p c + inside c (s.main p)

section Inv

variable {hostc : Nat} {s : CvState} {h : CvCounts}

theorem CvInv.start : CvInv hostc initsyn (cvHistory hostc).start where
  msgs _ hm := by cases hm
  quiet _ _ := rfl
  lt _ _ hp := by cases hp
  token _ _ := rfl
  called _ _ := rfl
  arrived _ _ := rfl
  granted _ _ := rfl
  received _ _ := rfl
  returned _ _ := rfl

theorem CvInv.post (hi : CvInv hostc s h) {m : CvMsg} (hm : MsgOk hostc m) (hw : m.op ≠ .waitcv)
    (hg : m.op ≠ .cvgrant) : CvInv hostc (s.post m) h := by
  have hcount : ∀ k : CvMsg, m ≠ k → (s.post m).net.count k = s.net.count k := by
    intro k hk
    show (s.net ++ [m]).count k = _
    rw [List.count_append, List.count_singleton, if_neg (by rwa [beq_iff_eq])]
    rfl
  have hwaits : ∀ p c, (s.post m).waitsOf hostc p c = s.waitsOf hostc p c :=
    fun p c => hcount _ (ne_waitMsg hw p c)
  have hgrants : ∀ p c, (s.post m).grantsOf hostc p c = s.grantsOf hostc p c :=
    fun p c => hcount _ (ne_grantMsg hg p c)
  constructor
  · intro k hk
    cases List.mem_append.mp hk with
    | inl hold => exact hi.msgs k hold
    | inr hnew => exact List.mem_singleton.mp hnew ▸ hm
  · exact hi.quiet
  · exact hi.lt
  · intro p c
    rw [hwaits, hgrants]
    exact hi.token p c
  · intro p c
    rw [hwaits]
    exact hi.called p c
  · exact hi.arrived
  · exact hi.granted
  · intro p c
    rw [hgrants]
    exact hi.received p c
  · exact hi.returned

/-- What a manager has done with a message: who was waiting and who is granted. -/
structure Managed (hostc : Nat) (s : CvState) (m : CvMsg) (s' : CvState)
    (joined granted : Nat → Nat) : Prop where
  main : s'.main = s.main ∧ s'.cvwait = s.cvwait
  net : ∀ k ∈ s'.net, k ∈ s.net ∨ ∃ p, k = grantMsg hostc p m.condv
  other : ∀ c, c ≠ m.condv → s'.cv hostc c = s.cv hostc c
  waits : ∀ p c, s.waitsOf hostc p c =
    s'.waitsOf hostc p c + if c = m.condv then joined p else 0
  queued : ∀ p, s'.queued hostc p m.condv + granted p = s.queued hostc p m.condv + joined p
  grants : ∀ p c, s'.grantsOf hostc p c =
    s.grantsOf hostc p c + if c = m.condv then granted p else 0

theorem Managed.newGrants {m : CvMsg} {s' : CvState} {joined granted : Nat → Nat}
    (hm : Managed hostc s m s' joined granted) (p c : Nat) :
    newGrants hostc s s' p c = if c = m.condv then granted p else 0 := by
  show s'.grantsOf hostc p c - s.grantsOf hostc p c = _
  rw [hm.grants, Nat.add_sub_cancel_left]

theorem Managed.queued_other {m : CvMsg} {s' : CvState} {joined granted : Nat → Nat}
    (hm : Managed hostc s m s' joined granted) {c : Nat} (hc : c ≠ m.condv) (p : Nat) :
    s'.queued hostc p c = s.queued hostc p c := by
  unfold CvState.queued
  rw [hm.other c hc]

/-- A manager turns tokens into other ones. -/
theorem CvInv.manage (hi : CvInv hostc s h) {m : CvMsg} {s' : CvState} {joined granted : Nat → Nat}
    (hm : Managed hostc s m s' joined granted)
    (hquiet : (s'.cv hostc m.condv).value = true → (s'.cv hostc m.condv).waits = [])
    (hlt : ∀ p ∈ (s'.cv hostc m.condv).waits, p < hostc) {h' : CvCounts}
    (hcalled : h'.called = h.called) (hreturned : h'.returned = h.returned)
    (hreceived : h'.received = h.received)
    (harrived : ∀ p c, h'.arrived p c = h.arrived p c + if c = m.condv then joined p else 0)
    (hdue : ∀ p c, h'.due p c = h.due p c + if c = m.condv then granted p else 0)
    (hgranted : ∀ p c, h'.granted p c = h.granted p c + if c = m.condv then granted p else 0) :
    CvInv hostc s' h' := by
  constructor
  · intro k hk
    cases hm.net k hk with
    | inl hold => exact hi.msgs k hold
    | inr hnew =>
        obtain ⟨p, rfl⟩ := hnew
        exact ⟨fun hop => absurd rfl hop, nofun, fun _ => rfl⟩
  · intro c
    by_cases hc : c = m.condv
    · rw [hc]
      exact hquiet
    · rw [hm.other c hc]
      exact hi.quiet c
  · intro c
    by_cases hc : c = m.condv
    · rw [hc]
      exact hlt
    · rw [hm.other c hc]
      exact hi.lt c
  · intro p c
    have htoken := hi.token p c
    have hwaits := hm.waits p c
    have hgrants := hm.grants p c
    rw [hm.main.1, hm.main.2, ← htoken, hgrants, hwaits]
    by_cases hc : c = m.condv
    · have hqueued := hm.queued p
      rw [if_pos hc, if_pos hc, hc]
      omega
    · rw [if_neg hc, if_neg hc, hm.queued_other hc]
      omega
  · intro p c
    rw [hcalled, hm.main.1, hi.called p c, harrived, hm.waits p c]
    omega
  · intro p c
    rw [harrived, hdue, hi.arrived p c]
    by_cases hc : c = m.condv
    · have hqueued := hm.queued p
      rw [if_pos hc, if_pos hc, hc]
      omega
    · rw [if_neg hc, if_neg hc, hm.queued_other hc]
      omega
  · intro p c
    rw [hgranted, hdue, hi.granted p c]
  · intro p c
    rw [hgranted, hreceived, hm.grants, hi.received p c]
    omega
  · intro p c
    rw [hcalled, hreturned, hm.main.1]
    exact hi.returned p c

section Handlers

variable {m : CvMsg}

theorem deliver_setcv (hop : m.op = .setcv) (hm : m.topid = m.condv % hostc) :
    s.deliver hostc m = .ok (s.handled m ⟨[], true⟩
      ((s.cv hostc m.condv).waits.map (grantcondv (m.condv % hostc) m.condv))) := by
  unfold CvState.deliver setcvserver jiaAssert
  simp only [hop, hm]
  rfl

theorem deliver_resetcv (hop : m.op = .resetcv) (hm : m.topid = m.condv % hostc) :
    s.deliver hostc m = .ok (s.handled m ⟨(s.cv hostc m.condv).waits, false⟩ []) := by
  unfold CvState.deliver
  simp only [hop, hm]
  rfl

theorem deliver_waitcv (hop : m.op = .waitcv) (hm : m.topid = m.condv % hostc)
    (hroom : (s.cv hostc m.condv).waits.length < Maxhosts) :
    s.deliver hostc m = .ok (
      if (s.cv hostc m.condv).value = true then
        s.handled m ⟨[], true⟩ (((s.cv hostc m.condv).waits ++ [m.frompid]).map
          (grantcondv (m.condv % hostc) m.condv))
      else s.handled m ⟨(s.cv hostc m.condv).waits ++ [m.frompid], false⟩ []) := by
  have hcv : s.condvars (m.condv % hostc) m.condv = s.cv hostc m.condv := rfl
  unfold CvState.deliver waitcvserver defined
  simp only [hop, hm, hcv, if_pos hroom]
  cases hval : (s.cv hostc m.condv).value with
  | false => rw [if_neg Bool.false_ne_true]; simp [bind, Except.bind, pure, Except.pure]
  | true => rw [if_pos rfl]; simp [bind, Except.bind, pure, Except.pure, grantAll]

/-- What `handled` does, when no other WAITCV is taken out. -/
theorem managed_handled (hm : m.topid = m.condv % hostc) (hop : m.op ≠ .cvgrant) {value : Bool}
    {waits g : List Nat} {joined : Nat → Nat}
    (hjoined : ∀ p c, s.waitsOf hostc p c =
      (s.waitsOf hostc p c - if m = waitMsg hostc p c then 1 else 0) +
        if c = m.condv then joined p else 0)
    (hqueued : ∀ p, waits.count p + g.count p = s.queued hostc p m.condv + joined p) :
    Managed hostc s m (s.handled m ⟨waits, value⟩
      (g.map (grantcondv (m.condv % hostc) m.condv))) joined (fun p => g.count p) where
  main := ⟨rfl, rfl⟩
  net k hk := by
    cases List.mem_append.mp hk with
    | inl hold => exact .inl (List.mem_of_mem_erase hold)
    | inr hnew =>
        obtain ⟨p, -, rfl⟩ := List.mem_map.mp hnew
        exact .inr ⟨p, rfl⟩
  other c hc := by rw [cv_handled hm, if_neg hc]
  waits p c := by
    unfold CvState.waitsOf
    rw [count_handled, count_grants_wait, Nat.add_zero]
    exact hjoined p c
  queued p := by
    show ((s.handled m _ _).cv hostc m.condv).waits.count p + _ = _
    rw [cv_handled hm, if_pos rfl]
    exact hqueued p
  grants p c := by
    unfold CvState.grantsOf
    rw [count_handled, count_grants, if_neg (ne_grantMsg hop p c)]
    rfl

/-- Every waiter is granted at a SETCV. -/
theorem CvInv.setcv (hi : CvInv hostc s h) (hmem : m ∈ s.net) (hop : m.op = .setcv)
    {s' : CvState} (hstep : s.deliver hostc m = .ok s') :
    CvInv hostc s' (h.handle hostc s m s') := by
  have hm := (hi.msgs m hmem).manager (by rw [hop]; decide)
  rw [deliver_setcv hop hm, Except.ok.injEq] at hstep
  have hmanaged : Managed hostc s m s' (fun _ => 0) (fun p => s.queued hostc p m.condv) := by
    rw [← hstep]
    apply managed_handled hm (by rw [hop]; decide)
    · intro p c
      rw [if_neg (ne_waitMsg (by rw [hop]; decide) p c), ite_self]
      rfl
    · intro p
      exact Nat.zero_add _
  have hcv : s'.cv hostc m.condv = ⟨[], true⟩ := by rw [← hstep, cv_handled hm, if_pos rfl]
  have hnew := hmanaged.newGrants
  have hhist : h.handle hostc s m s' = { h with
      due := fun p c => if c = m.condv then h.arrived p c else h.due p c
      granted := fun p c => h.granted p c + newGrants hostc s s' p c } := by
    unfold CvCounts.handle
    rw [hop]
  rw [hhist]
  refine hi.manage hmanaged (fun _ => by rw [hcv]) (fun p hp => ?_) rfl rfl rfl ?_ ?_ ?_
  · rw [hcv] at hp
    cases hp
  · intro p c
    exact (ite_self 0).symm ▸ rfl
  · intro p c
    show (if c = m.condv then h.arrived p c else h.due p c) = _
    by_cases hc : c = m.condv
    · rw [if_pos hc, if_pos hc, hi.arrived, hc]
    · rw [if_neg hc, if_neg hc]
      rfl
  · intro p c
    show h.granted p c + newGrants hostc s s' p c = _
    rw [hnew]

theorem CvInv.resetcv (hi : CvInv hostc s h) (hmem : m ∈ s.net) (hop : m.op = .resetcv)
    {s' : CvState} (hstep : s.deliver hostc m = .ok s') :
    CvInv hostc s' (h.handle hostc s m s') := by
  have hm := (hi.msgs m hmem).manager (by rw [hop]; decide)
  rw [deliver_resetcv hop hm, Except.ok.injEq] at hstep
  have hmanaged : Managed hostc s m s' (fun _ => 0) (fun _ => 0) := by
    rw [← hstep]
    apply managed_handled (g := []) hm (by rw [hop]; decide)
    · intro p c
      rw [if_neg (ne_waitMsg (by rw [hop]; decide) p c), ite_self]
      rfl
    · intro p
      rfl
  have hcv : s'.cv hostc m.condv = ⟨(s.cv hostc m.condv).waits, false⟩ := by
    rw [← hstep, cv_handled hm, if_pos rfl]
  have hhist : h.handle hostc s m s' = h := by
    unfold CvCounts.handle
    rw [hop]
  have hzero : ∀ (n : Nat) (c : Nat), n = n + if c = m.condv then 0 else 0 := by
    intro n c
    rw [ite_self]
    rfl
  rw [hhist]
  refine hi.manage hmanaged (fun hval => ?_) (fun p hp => ?_) rfl rfl rfl
    (fun p c => hzero _ c) (fun p c => hzero _ c) (fun p c => hzero _ c)
  · rw [hcv] at hval
    cases hval
  · rw [hcv] at hp
    exact hi.lt _ p hp

/-- A WAITCV is queued, and answered at once when the value is 1. -/
theorem CvInv.waitcv (hi : CvInv hostc s h) (hmem : m ∈ s.net) (hop : m.op = .waitcv)
    (hroom : (s.cv hostc m.condv).waits.length < Maxhosts)
    {s' : CvState} (hstep : s.deliver hostc m = .ok s') :
    CvInv hostc s' (h.handle hostc s m s') := by
  have hm := (hi.msgs m hmem).manager (by rw [hop]; decide)
  have hfrom := (hi.msgs m hmem).sender hop
  have hne : m.op ≠ .cvgrant := by rw [hop]; decide
  rw [deliver_waitcv hop hm hroom, Except.ok.injEq] at hstep
  have hjoined : ∀ p c, s.waitsOf hostc p c =
      (s.waitsOf hostc p c - if m = waitMsg hostc p c then 1 else 0) +
        if c = m.condv then if p = m.frompid then 1 else 0 else 0 := by
    intro p c
    by_cases hmsg : m = waitMsg hostc p c
    · have hpos : 0 < s.waitsOf hostc p c := List.count_pos_iff.mpr (hmsg ▸ hmem)
      obtain ⟨hp, hc⟩ := (waitMsg_iff hop hm p c).mp hmsg
      rw [if_pos hmsg, if_pos hc, if_pos hp]
      omega
    · rw [if_neg hmsg]
      have hnot := mt (waitMsg_iff hop hm p c).mpr hmsg
      by_cases hc : c = m.condv
      · rw [if_pos hc, if_neg (fun hp => hnot ⟨hp, hc⟩)]
        rfl
      · rw [if_neg hc]
        rfl
  have hlast : ∀ p, [m.frompid].count p = if p = m.frompid then 1 else 0 := by
    intro p
    rw [List.count_singleton]
    by_cases hp : p = m.frompid
    · rw [if_pos hp, if_pos (beq_iff_eq.mpr hp.symm)]
    · rw [if_neg hp, if_neg (mt beq_iff_eq.mp (Ne.symm hp))]
  have harrived := inc_handler h.arrived m.frompid m.condv
  have hhist : h.handle hostc s m s' = { h with
      arrived := inc h.arrived m.frompid m.condv
      due := if (s.condvars m.topid m.condv).value then inc h.due m.frompid m.condv else h.due
      granted := fun p c => h.granted p c + newGrants hostc s s' p c } := by
    unfold CvCounts.handle
    rw [hop]
  have hcvhome : s.condvars m.topid m.condv = s.cv hostc m.condv := by
    rw [hm]
    rfl
  rw [hcvhome] at hhist
  rw [hhist]
  by_cases hval : (s.cv hostc m.condv).value = true
  · -- nobody was waiting
    have hempty := hi.quiet _ hval
    rw [if_pos hval, hempty, List.nil_append] at hstep
    have hmanaged : Managed hostc s m s' (fun p => if p = m.frompid then 1 else 0)
        (fun p => [m.frompid].count p) := by
      rw [← hstep]
      apply managed_handled hm hne hjoined
      intro p
      show _ = (s.cv hostc m.condv).waits.count p + _
      rw [hempty, hlast]
    have hcv : s'.cv hostc m.condv = ⟨[], true⟩ := by rw [← hstep, cv_handled hm, if_pos rfl]
    have hnew := hmanaged.newGrants
    refine hi.manage hmanaged (fun _ => by rw [hcv]) (fun p hp => ?_) rfl rfl rfl harrived ?_ ?_
    · rw [hcv] at hp
      cases hp
    · intro p c
      show (if (s.cv hostc m.condv).value = true then inc h.due m.frompid m.condv
        else h.due) p c = _
      rw [if_pos hval, hlast]
      exact inc_handler h.due m.frompid m.condv p c
    · intro p c
      show h.granted p c + newGrants hostc s s' p c = _
      rw [hnew]
  · rw [if_neg hval] at hstep
    have hmanaged : Managed hostc s m s' (fun p => if p = m.frompid then 1 else 0)
        (fun _ => 0) := by
      rw [← hstep]
      apply managed_handled (g := []) hm hne hjoined
      intro p
      rw [List.count_append, hlast, List.count_nil, Nat.add_zero]
      rfl
    have hcv : s'.cv hostc m.condv = ⟨(s.cv hostc m.condv).waits ++ [m.frompid], false⟩ := by
      rw [← hstep, cv_handled hm, if_pos rfl]
    have hnew := hmanaged.newGrants
    refine hi.manage hmanaged (fun hval' => ?_) (fun p hp => ?_) rfl rfl rfl harrived ?_ ?_
    · rw [hcv] at hval'
      cases hval'
    · rw [hcv] at hp
      cases List.mem_append.mp hp with
      | inl hold => exact hi.lt _ p hold
      | inr hlast' => exact List.mem_singleton.mp hlast' ▸ hfrom
    · intro p c
      show (if (s.cv hostc m.condv).value = true then inc h.due m.frompid m.condv
        else h.due) p c = _
      rw [if_neg hval, ite_self]
      rfl
    · intro p c
      show h.granted p c + newGrants hostc s s' p c = _
      rw [hnew]

theorem CvInv.cvgrant (hi : CvInv hostc s h) (hmem : m ∈ s.net) (hop : m.op = .cvgrant)
    {s' : CvState} (hstep : s.deliver hostc m = .ok s') :
    CvInv hostc s' (h.handle hostc s m s') := by
  have hm := (hi.msgs m hmem).grantor hop
  have hs' : s' = { s with cvwait := upd s.cvwait m.topid false, net := s.net.erase m } := by
    unfold CvState.deliver at hstep
    simp only [hop] at hstep
    exact (Except.ok.inj hstep).symm
  have hhist : h.handle hostc s m s' = { h with
      received := inc h.received m.topid m.condv } := by
    unfold CvCounts.handle
    rw [hop]
  have hwaits : ∀ p c, s'.waitsOf hostc p c = s.waitsOf hostc p c := by
    intro p c
    rw [hs']
    show (s.net.erase m).count (waitMsg hostc p c) = _
    rw [List.count_erase, if_neg]
    · rfl
    · rw [beq_iff_eq]
      exact ne_waitMsg (by rw [hop]; decide) p c
  have hgrants : ∀ p c, s.grantsOf hostc p c =
      s'.grantsOf hostc p c + if p = m.topid ∧ c = m.condv then 1 else 0 := by
    intro p c
    rw [hs']
    show _ = (s.net.erase m).count (grantMsg hostc p c) + _
    rw [List.count_erase]
    by_cases hmsg : m = grantMsg hostc p c
    · have hpos : 0 < s.grantsOf hostc p c := List.count_pos_iff.mpr (hmsg ▸ hmem)
      rw [if_pos (beq_iff_eq.mpr hmsg), if_pos ((grantMsg_iff hop hm p c).mp hmsg)]
      exact (Nat.sub_add_cancel hpos).symm
    · rw [if_neg (mt beq_iff_eq.mp hmsg), if_neg (mt (grantMsg_iff hop hm p c).mpr hmsg)]
      rfl
  have hspin : s.main m.topid = .spinning m.condv ∧ s.cvwait m.topid = true := by
    by_contra hnot
    have htoken := hi.token m.topid m.condv
    have hone := hgrants m.topid m.condv
    rw [if_neg hnot] at htoken
    rw [if_pos ⟨rfl, rfl⟩] at hone
    omega
  rw [hhist]
  constructor
  · intro k hk
    rw [hs'] at hk
    exact hi.msgs k (List.mem_of_mem_erase hk)
  · rw [hs']
    exact hi.quiet
  · rw [hs']
    exact hi.lt
  · intro p c
    have htoken := hi.token p c
    have hqueued : s'.queued hostc p c = s.queued hostc p c := by rw [hs']; rfl
    have hmain : s'.main = s.main := by rw [hs']
    have hwait : s'.cvwait = upd s.cvwait m.topid false := by rw [hs']
    rw [hgrants] at htoken
    rw [hwaits, hqueued, hmain, hwait]
    by_cases hp : p = m.topid
    · rw [hp, upd_same]
      rw [hp] at htoken
      by_cases hc : c = m.condv
      · rw [hc, if_pos hspin, if_pos ⟨rfl, rfl⟩] at htoken
        rw [hc, if_neg (fun hand => by cases hand.2)]
        omega
      · rw [if_neg (fun hand => hc hand.2)] at htoken
        rw [if_neg] at htoken
        · rw [if_neg (fun hand => by cases hand.2)]
          omega
        · rintro ⟨hmain', -⟩
          rw [hspin.1, Main.spinning.injEq] at hmain'
          exact hc hmain'.symm
    · rw [upd_of_ne _ _ hp, ← htoken, if_neg (fun hand => hp hand.1)]
      rfl
  · intro p c
    rw [hwaits, hs']
    exact hi.called p c
  · rw [hs']
    exact hi.arrived
  · exact hi.granted
  · intro p c
    have hgranted := hi.received p c
    rw [hgrants] at hgranted
    show h.granted p c = inc h.received m.topid m.condv p c + _
    rw [inc_apply]
    omega
  · rw [hs']
    exact hi.returned

theorem deliver_waitcv_room (hop : m.op = .waitcv) (hm : m.topid = m.condv % hostc)
    {s' : CvState} (hstep : s.deliver hostc m = .ok s') :
    (s.cv hostc m.condv).waits.length < Maxhosts := by
  have hcv : s.condvars (m.condv % hostc) m.condv = s.cv hostc m.condv := rfl
  simp only [CvState.deliver, hop, hm, hcv, waitcvserver, bind_eq_ok, defined_eq_ok] at hstep
  obtain ⟨-, ⟨-, hroom, -⟩, -⟩ := hstep
  exact hroom

theorem CvInv.deliver (hi : CvInv hostc s h) (hmem : m ∈ s.net) {s' : CvState}
    (hstep : s.deliver hostc m = .ok s') : CvInv hostc s' (h.handle hostc s m s') := by
  cases hop : m.op with
  | setcv => exact hi.setcv hmem hop hstep
  | resetcv => exact hi.resetcv hmem hop hstep
  | waitcv =>
      have hm := (hi.msgs m hmem).manager (by rw [hop]; decide)
      exact hi.waitcv hmem hop (deliver_waitcv_room hop hm hstep) hstep
  | cvgrant => exact hi.cvgrant hmem hop hstep

end Handlers

/-! ### The main thread -/

theorem CvInv.wait (hi : CvInv hostc s h) {p c : Nat} (hidle : s.main p = .idle) :
    CvInv hostc { s with main := upd s.main p (.sending c), cvwait := upd s.cvwait p true }
      { h with called := inc h.called p c } := by
  constructor
  · exact hi.msgs
  · exact hi.quiet
  · exact hi.lt
  · intro q d
    show s.waitsOf hostc q d + s.queued hostc q d + s.grantsOf hostc q d =
      if upd s.main p (.sending c) q = .spinning d ∧ upd s.cvwait p true q = true then 1 else 0
    by_cases hq : q = p
    · have htoken := hi.token p d
      rw [hidle, if_neg (fun hand => by cases hand.1)] at htoken
      rw [hq, upd_same, if_neg (fun hand => by cases hand.1)]
      exact htoken
    · rw [upd_of_ne _ _ hq, upd_of_ne _ _ hq]
      exact hi.token q d
  · intro q d
    show inc h.called p c q d = h.arrived q d + s.waitsOf hostc q d +
      if upd s.main p (.sending c) q = .sending d then 1 else 0
    rw [inc_apply, hi.called]
    by_cases hq : q = p
    · rw [hq, upd_same, hidle, if_neg (fun hmain => by cases hmain)]
      simp only [true_and, Main.sending.injEq, eq_comm, Nat.add_zero]
    · have hnot : ¬ (q = p ∧ d = c) := fun hand => hq hand.1
      rw [upd_of_ne _ _ hq, if_neg hnot]
      rfl
  · exact hi.arrived
  · exact hi.granted
  · exact hi.received
  · intro q d
    show inc h.called p c q d = h.returned q d + inside d (upd s.main p (.sending c) q)
    rw [inc_apply, hi.returned]
    by_cases hq : q = p
    · rw [hq, upd_same, hidle]
      unfold inside
      by_cases hd : d = c
      · simp [hd]
      · simp [hd, Ne.symm hd]
    · rw [upd_of_ne _ _ hq, if_neg (fun hand => hq hand.1)]
      rfl

theorem CvInv.send (hi : CvInv hostc s h) {p c : Nat} (hlt : p < hostc)
    (hmain : s.main p = .sending c) (hwait : s.cvwait p = true) :
    CvInv hostc { s.post ⟨.waitcv, p, c % hostc, c⟩ with main := upd s.main p (.spinning c) } h := by
  have hnet : ∀ q d, (s.net ++ [waitMsg hostc p c]).count (waitMsg hostc q d) =
      s.waitsOf hostc q d + if q = p ∧ d = c then 1 else 0 := by
    intro q d
    rw [List.count_append, List.count_singleton]
    by_cases heq : q = p ∧ d = c
    · rw [if_pos heq, heq.1, heq.2, if_pos (beq_self_eq_true _)]
      rfl
    · have hne : ¬ waitMsg hostc p c = waitMsg hostc q d := by
        intro hmsg
        exact heq ((waitMsg_iff rfl rfl q d).mp hmsg)
      rw [if_neg heq, if_neg (mt beq_iff_eq.mp hne)]
      rfl
  have hgrants : ∀ q d, (s.net ++ [waitMsg hostc p c]).count (grantMsg hostc q d) =
      s.grantsOf hostc q d := by
    intro q d
    have hne : ¬ waitMsg hostc p c = grantMsg hostc q d :=
      ne_grantMsg (show CvOp.waitcv ≠ .cvgrant by decide) q d
    rw [List.count_append, List.count_singleton, if_neg (mt beq_iff_eq.mp hne)]
    rfl
  constructor
  · intro k hk
    cases List.mem_append.mp hk with
    | inl hold => exact hi.msgs k hold
    | inr hnew =>
        rw [List.mem_singleton.mp hnew]
        exact ⟨fun _ => rfl, fun _ => hlt, nofun⟩
  · exact hi.quiet
  · exact hi.lt
  · intro q d
    show (s.net ++ [waitMsg hostc p c]).count (waitMsg hostc q d) + s.queued hostc q d +
      (s.net ++ [waitMsg hostc p c]).count (grantMsg hostc q d) =
      if upd s.main p (.spinning c) q = .spinning d ∧ s.cvwait q = true then 1 else 0
    have htoken := hi.token q d
    rw [hnet, hgrants]
    by_cases hq : q = p
    · rw [hq, hmain, if_neg (fun hand => by cases hand.1)] at htoken
      rw [hq, upd_same, hwait]
      simp only [true_and, and_true, Main.spinning.injEq, eq_comm]
      omega
    · rw [upd_of_ne _ _ hq, ← htoken, if_neg (fun hand => hq hand.1)]
      rfl
  · intro q d
    show h.called q d = h.arrived q d + (s.net ++ [waitMsg hostc p c]).count (waitMsg hostc q d) +
      if upd s.main p (.spinning c) q = .sending d then 1 else 0
    rw [hnet, hi.called]
    by_cases hq : q = p
    · rw [hq, upd_same, hmain, if_neg (show ¬ Main.spinning c = .sending d from nofun)]
      simp only [true_and, Main.sending.injEq, eq_comm, Nat.add_zero]
      omega
    · have hnot : ¬ (q = p ∧ d = c) := fun hand => hq hand.1
      rw [upd_of_ne _ _ hq, if_neg hnot]
      rfl
  · exact hi.arrived
  · exact hi.granted
  · intro q d
    show h.granted q d = h.received q d + (s.net ++ [waitMsg hostc p c]).count (grantMsg hostc q d)
    rw [hgrants]
    exact hi.received q d
  · intro q d
    show h.called q d = h.returned q d + inside d (upd s.main p (.spinning c) q)
    rw [hi.returned]
    by_cases hq : q = p
    · rw [hq, upd_same, hmain]
      unfold inside
      simp only [Main.sending.injEq, Main.spinning.injEq, reduceCtorEq, or_false, false_or]
    · rw [upd_of_ne _ _ hq]

theorem CvInv.ret (hi : CvInv hostc s h) {p c : Nat} (hmain : s.main p = .spinning c)
    (hwait : s.cvwait p = false) :
    CvInv hostc { s with main := upd s.main p .idle } { h with returned := inc h.returned p c } := by
  constructor
  · exact hi.msgs
  · exact hi.quiet
  · exact hi.lt
  · intro q d
    show s.waitsOf hostc q d + s.queued hostc q d + s.grantsOf hostc q d =
      if upd s.main p .idle q = .spinning d ∧ s.cvwait q = true then 1 else 0
    rw [hi.token]
    by_cases hq : q = p
    · rw [hq, upd_same, hwait]
      simp only [Bool.false_eq_true, and_false]
    · rw [upd_of_ne _ _ hq]
  · intro q d
    show h.called q d = h.arrived q d + s.waitsOf hostc q d +
      if upd s.main p .idle q = .sending d then 1 else 0
    rw [hi.called]
    by_cases hq : q = p
    · rw [hq, upd_same, hmain, if_neg (show ¬ Main.spinning c = .sending d from nofun),
        if_neg (show ¬ Main.idle = .sending d from nofun)]
    · rw [upd_of_ne _ _ hq]
  · exact hi.arrived
  · exact hi.granted
  · exact hi.received
  · intro q d
    show h.called q d = inc h.returned p c q d + inside d (upd s.main p .idle q)
    rw [inc_apply, hi.returned]
    by_cases hq : q = p
    · rw [hq, upd_same, hmain]
      unfold inside
      by_cases hd : d = c
      · simp [hd]
      · simp [hd, Ne.symm hd]
    · rw [upd_of_ne _ _ hq, if_neg (fun hand => hq hand.1), Nat.add_zero]

/-- A host that has called and not sent yet has set `cvwait`. -/
def Flagged (s : CvState) : Prop := ∀ p c, s.main p = .sending c → s.cvwait p = true

/-- The numbers of the hosts that call. -/
def Placed (hostc : Nat) (s : CvState) : Prop := ∀ p, s.main p ≠ .idle → p < hostc

theorem CvState.deliver_main {m : CvMsg} {s' : CvState} (hstep : s.deliver hostc m = .ok s') :
    s'.main = s.main ∧ (s'.cvwait = s.cvwait ∨
      (m.op = .cvgrant ∧ s'.cvwait = upd s.cvwait m.topid false)) := by
  unfold CvState.deliver at hstep
  cases hop : m.op with
  | setcv =>
      simp only [hop, bind_eq_ok] at hstep
      obtain ⟨r, -, hs⟩ := hstep
      obtain rfl := Except.ok.inj hs
      exact ⟨rfl, .inl rfl⟩
  | resetcv =>
      simp only [hop] at hstep
      obtain rfl := Except.ok.inj hstep
      exact ⟨rfl, .inl rfl⟩
  | waitcv =>
      simp only [hop, bind_eq_ok] at hstep
      obtain ⟨r, -, hs⟩ := hstep
      obtain rfl := Except.ok.inj hs
      exact ⟨rfl, .inl rfl⟩
  | cvgrant =>
      simp only [hop] at hstep
      obtain rfl := Except.ok.inj hstep
      exact ⟨rfl, .inr ⟨rfl, rfl⟩⟩

/-- What carries over a run. -/
structure CvRun (hostc : Nat) (s : CvState) (h : CvCounts) : Prop where
  inv : CvInv hostc s h
  flagged : Flagged s
  placed : Placed hostc s

theorem CvRun.step (hone : hostc ≠ 1) (hr : CvRun hostc s h) {e : CvEvent} {s' : CvState}
    (hstep : cvStep hostc s e = .ok s') :
    CvRun hostc s' ((cvHistory hostc).obs h s e s') := by
  have hi := hr.inv
  cases e with
  | set p c =>
      rw [cvStep, System.guard_eq_ok, if_neg hone, Except.ok.injEq] at hstep
      obtain ⟨-, rfl⟩ := hstep
      exact ⟨hi.post ⟨fun _ => rfl, nofun, nofun⟩ nofun nofun, hr.flagged, hr.placed⟩
  | reset p c =>
      rw [cvStep, System.guard_eq_ok, if_neg hone, Except.ok.injEq] at hstep
      obtain ⟨-, rfl⟩ := hstep
      exact ⟨hi.post ⟨fun _ => rfl, nofun, nofun⟩ nofun nofun, hr.flagged, hr.placed⟩
  | wait p c =>
      rw [cvStep, System.guard_eq_ok, if_neg hone, Except.ok.injEq] at hstep
      obtain ⟨hok, rfl⟩ := hstep
      have hmain : ¬ upd s.main p (.sending c) p = .idle := by
        rw [upd_same]
        exact nofun
      refine ⟨?_, ?_, ?_⟩
      · show CvInv hostc _ { h with
          called := inc h.called p c
          returned := if upd s.main p (.sending c) p = .idle then inc h.returned p c
            else h.returned }
        rw [if_neg hmain]
        exact hi.wait hok.2.2
      · intro q d hq
        show upd s.cvwait p true q = true
        by_cases hqp : q = p
        · rw [hqp, upd_same]
        · rw [upd_of_ne _ _ hqp]
          exact hr.flagged q d ((upd_of_ne s.main _ hqp).symm.trans hq)
      · intro q hq
        by_cases hqp : q = p
        · rw [hqp]
          exact hok.1
        · exact hr.placed q fun hidle => hq ((upd_of_ne s.main _ hqp).trans hidle)
  | send p =>
      rw [cvStep, sendWait] at hstep
      cases hmain : s.main p with
      | idle =>
          rw [hmain] at hstep
          cases hstep
      | spinning c =>
          rw [hmain] at hstep
          cases hstep
      | sending c =>
          have hlt := hr.placed p (by rw [hmain]; exact nofun)
          simp only [hmain, Except.ok.injEq] at hstep
          subst hstep
          refine ⟨hi.send hlt hmain (hr.flagged p c hmain), ?_, ?_⟩
          · intro q d hq
            have hqp : q ≠ p := by
              intro hqp
              have hsame : upd s.main p (.spinning c) q = .sending d := hq
              rw [hqp, upd_same] at hsame
              cases hsame
            exact hr.flagged q d ((upd_of_ne s.main _ hqp).symm.trans hq)
          · intro q hq
            by_cases hqp : q = p
            · rw [hqp]
              exact hlt
            · exact hr.placed q fun hidle => hq ((upd_of_ne s.main _ hqp).trans hidle)
  | ret p =>
      rw [cvStep, leaveWait] at hstep
      cases hmain : s.main p with
      | idle =>
          rw [hmain] at hstep
          cases hstep
      | sending c =>
          rw [hmain] at hstep
          cases hstep
      | spinning c =>
          cases hwait : s.cvwait p with
          | true =>
              rw [hmain, hwait] at hstep
              cases hstep
          | false =>
              simp only [hmain, hwait, Except.ok.injEq] at hstep
              subst hstep
              have hother : ∀ q, q ≠ p → upd s.main p .idle q = s.main q :=
                fun q hq => upd_of_ne _ _ hq
              refine ⟨?_, ?_, ?_⟩
              · simp only [cvHistory, hmain]
                exact hi.ret hmain hwait
              · intro q d hq
                have hqp : q ≠ p := by
                  intro hqp
                  have hsame : upd s.main p .idle q = .sending d := hq
                  rw [hqp, upd_same] at hsame
                  cases hsame
                exact hr.flagged q d ((hother q hqp).symm.trans hq)
              · intro q hq
                have hqp : q ≠ p := by
                  intro hqp
                  have hsame : upd s.main p .idle q ≠ .idle := hq
                  rw [hqp, upd_same] at hsame
                  exact hsame rfl
                exact hr.placed q fun hidle => hq ((hother q hqp).trans hidle)
  | deliver m =>
      rw [cvStep, System.guard_eq_ok] at hstep
      obtain ⟨hmem, hstep⟩ := hstep
      obtain ⟨hmain, hwait⟩ := CvState.deliver_main hstep
      refine ⟨hi.deliver hmem hstep, ?_, ?_⟩
      · intro q d hq
        rw [hmain] at hq
        have hflag := hr.flagged q d hq
        cases hwait with
        | inl hsame => rw [hsame, hflag]
        | inr hgrant =>
            -- a host that gets a CVGRANT has sent its WAITCV
            have hgrantor := (hi.msgs m hmem).grantor hgrant.1
            have hmsg := (grantMsg_iff hgrant.1 hgrantor m.topid m.condv).mpr ⟨rfl, rfl⟩
            have hpos : 0 < s.grantsOf hostc m.topid m.condv :=
              List.count_pos_iff.mpr (hmsg ▸ hmem)
            have hne : q ≠ m.topid := by
              intro heq
              have htoken := hi.token m.topid m.condv
              rw [← heq, hq, if_neg (fun hand => by cases hand.1), heq] at htoken
              omega
            rw [hgrant.2, upd_of_ne _ _ hne, hflag]
      · unfold Placed
        rw [hmain]
        exact hr.placed

theorem cvRun (hone : hostc ≠ 1) {x : CvState × CvCounts}
    (hx : ((cvSystem hostc).withHist (cvHistory hostc)).Reach x) : CvRun hostc x.1 x.2 := by
  apply hx.invariant (I := fun x => CvRun hostc x.1 x.2)
  · exact ⟨.start, nofun, fun _ hmain => absurd rfl hmain⟩
  · intro x e x' _ hr hstep
    rw [hstep.2]
    exact hr.step hone hstep.1

/-! ## The result -/

theorem CvInv.nodup (hi : CvInv hostc s h) (c : Nat) : (s.cv hostc c).waits.Nodup := by
  rw [List.nodup_iff_count_le_one]
  intro p
  have htoken := hi.token p c
  have hqueued : s.queued hostc p c = (s.cv hostc c).waits.count p := rfl
  split_ifs at htoken <;> omega

theorem length_le_of_nodup {n : Nat} {l : List Nat} (hnodup : l.Nodup) (hlt : ∀ p ∈ l, p < n) :
    l.length ≤ n := by
  have hsub : l ⊆ List.range n := fun p hp => List.mem_range.mpr (hlt p hp)
  have hle := (hnodup.subperm hsub).length_le
  rwa [List.length_range] at hle

theorem CvInv.room (hi : CvInv hostc s h) {m : CvMsg} (hmem : m ∈ s.net) (hop : m.op = .waitcv) :
    (s.cv hostc m.condv).waits.length < hostc := by
  have hok := hi.msgs m hmem
  have hmsg := (waitMsg_iff hop (hok.manager (by rw [hop]; decide)) m.frompid m.condv).mpr
    ⟨rfl, rfl⟩
  have hpos : 0 < s.waitsOf hostc m.frompid m.condv := List.count_pos_iff.mpr (hmsg ▸ hmem)
  have hnot : m.frompid ∉ (s.cv hostc m.condv).waits := by
    rw [← List.count_eq_zero]
    have htoken := hi.token m.frompid m.condv
    have hqueued : s.queued hostc m.frompid m.condv =
      (s.cv hostc m.condv).waits.count m.frompid := rfl
    split_ifs at htoken <;> omega
  have hle := @length_le_of_nodup hostc (m.frompid :: (s.cv hostc m.condv).waits)
    (List.nodup_cons.mpr ⟨hnot, hi.nodup m.condv⟩) (by
      intro p hp
      cases List.mem_cons.mp hp with
      | inl heq => exact heq ▸ hok.sender hop
      | inr htail => exact hi.lt _ p htail)
  exact hle

theorem CvRun.ok (hr : CvRun hostc s h) : CvOk hostc s h := by
  have hi := hr.inv
  constructor
  · exact hi.granted
  · intro p c
    have harrived := hi.arrived p c
    have htoken := hi.token p c
    split_ifs at htoken <;> omega
  · exact hi.quiet
  · exact fun c => length_le_of_nodup (hi.nodup c) (hi.lt c)
  · intro hmax m hmem
    have hok := hi.msgs m hmem
    cases hop : m.op with
    | setcv => exact ⟨_, deliver_setcv hop (hok.manager (by rw [hop]; decide))⟩
    | resetcv => exact ⟨_, deliver_resetcv hop (hok.manager (by rw [hop]; decide))⟩
    | waitcv =>
        exact ⟨_, deliver_waitcv hop (hok.manager (by rw [hop]; decide))
          ((hi.room hmem hop).trans_le hmax)⟩
    | cvgrant =>
        unfold CvState.deliver
        simp only [hop]
        exact ⟨_, rfl⟩
  · intro p c hmain hwait
    have htoken := hi.token p c
    have hcalled := hi.called p c
    have harrived := hi.arrived p c
    have hgranted := hi.granted p c
    have hreceived := hi.received p c
    rw [hwait, if_neg (fun hand => by cases hand.2)] at htoken
    rw [hmain, if_neg (show ¬ Main.spinning c = .sending c from nofun)] at hcalled
    omega
  · intro p c
    have htoken := hi.token p c
    have hcalled := hi.called p c
    have harrived := hi.arrived p c
    have hgranted := hi.granted p c
    have hreceived := hi.received p c
    have hreturned := hi.returned p c
    unfold inside at hreturned
    cases hmain : s.main p with
    | idle =>
        rw [hmain] at htoken hcalled
        simp at htoken hcalled
        omega
    | sending d =>
        rw [hmain] at htoken hcalled hreturned
        simp only [Main.sending.injEq, reduceCtorEq, false_and, or_false, if_false] at *
        split_ifs at * <;> omega
    | spinning d =>
        rw [hmain] at htoken hcalled hreturned
        simp only [Main.spinning.injEq, reduceCtorEq, false_or, if_false] at *
        split_ifs at htoken hreturned <;> omega

/-- With two or more hosts, over every run. -/
theorem condvars_exact (hmany : 1 < hostc) {x : CvState × CvCounts}
    (hx : ((cvSystem hostc).withHist (cvHistory hostc)).Reach x) : CvOk hostc x.1 x.2 :=
  (cvRun (Nat.ne_of_gt hmany) hx).ok

end Inv

/-- With one host `jia_waitcv` returns without a grant. -/
theorem wait_alone : ¬ ∀ hostc (x : CvState × CvCounts),
    ((cvSystem hostc).withHist (cvHistory hostc)).Reach x → CvOk hostc x.1 x.2 := by
  intro hall
  have hstep : (cvSystem 1).next initsyn (.wait 0 0) initsyn := by
    show cvStep 1 initsyn (.wait 0 0) = .ok initsyn
    rw [cvStep, if_pos ⟨by decide, by decide, rfl⟩, if_pos rfl]
  have hreach := System.Reach.hist (o := cvHistory 1) .start hstep
  have hle := (hall 1 _ hreach).returned_le 0 0
  exact absurd hle (by decide)

/-- Host 1 waits, host 0 sets the variable, and the grant arrives. -/
def oneWakeUp : List CvEvent :=
  [.wait 1 0, .send 1, .deliver ⟨.waitcv, 1, 0, 0⟩, .set 0 0, .deliver ⟨.setcv, 0, 0, 0⟩,
    .deliver ⟨.cvgrant, 0, 1, 0⟩]

theorem condvars_exact_oneWakeUp : ∃ x : CvState × CvCounts,
    (x.1.main 1 = .spinning 0 ∧ x.1.cvwait 1 = false) ∧ CvOk 2 x.1 x.2 := by
  obtain ⟨s, hs, hwoken⟩ := System.exists_execBy (S := cvSystem 2) (f := cvStep 2)
    (fun _ _ _ hstep => hstep) oneWakeUp
    (fun s => s.main 1 = .spinning 0 ∧ s.cvwait 1 = false) (by decide)
  obtain ⟨h, hh⟩ := hs.exists_hist (cvHistory 2)
  exact ⟨(s, h), of_decide_eq_true hwoken, condvars_exact (by decide) hh⟩

end Jiajia.CondVar
