import Jiajia.Wtnt
import Jiajia.Lib.Bytes

/-!
# The notice stream on the wire

`sendwtnts` writes a chain of notices into the bytes of WTNT messages and a
last REL or BARR message; `recordwtnts` reads them back at the manager.  Both
are modelled on the data array of `jia_msg_t`.
-/

namespace Jiajia.Wire

open Bytes

/-- The operations of messages that carry notices to a manager. -/
inductive MsgOp
  | wtnt
  | rel
  | barr
deriving DecidableEq, Repr

/-- `jia_msg_t`.  Bytes of `data` from `size` on are left over from earlier use. -/
structure JiaMsg where
  op : MsgOp
  frompid : Nat
  topid : Nat
  scope : BitVec 32
  size : Nat
  data : Buffer

/-- The two uses of `sendwtnts`: REL for the lock on top of the stack, or BARR. -/
inductive Operation
  | rel (lock : Fin Maxlocks)
  | barr

namespace Operation

/-- `top.lockid` when the operation is issued. -/
def lockid : Operation → Nat
  | rel lock => lock
  | barr => hidelock

def op : Operation → MsgOp
  | rel _ => .rel
  | barr => .barr

theorem lockid_lt (o : Operation) : o.lockid < 2 ^ 32 := by
  cases o with
  | rel lock =>
      have h := lock.isLt
      simp only [lockid, Maxlocks] at *
      omega
  | barr => decide

end Operation

/-- `stol(data + off)`. -/
def stol (m : JiaMsg) (off : Nat) : BitVec 64 := BitVec.ofNat 64 (readLE m.data 8 off)

def appendmsg (m : JiaMsg) (str : List Byte) : Result JiaMsg := do
  jiaAssert (m.size + str.length ≤ Maxmsgsize) "Message too large"
  return { m with data := write m.data m.size str, size := m.size + str.length }

/-! ## Sending -/

/-- One turn of the inner loop of `appendstackwtnts`. -/
def appendNotice (m : JiaMsg) (e : WtntEntry) : Result JiaMsg := do
  let m' ← appendmsg m (toLE Addrbytes e.addr.toNat)
  appendmsg m' (toLE Intbytes e.mig.toNat)

def appendNotices : JiaMsg → List WtntEntry → Result JiaMsg
  | m, [] => .ok m
  | m, e :: es => do
      let m' ← appendNotice m e
      appendNotices m' es

def appendstackwtnts : JiaMsg → List WtntNode → Result (JiaMsg × List WtntNode)
  | m, [] => .ok (m, [])
  | m, n :: ns =>
      if m.size + n.entries.length * (Intbytes + Addrbytes) < Maxmsgsize then do
        let m' ← appendNotices m n.entries
        appendstackwtnts m' ns
      else .ok (m, n :: ns)

/-- The `while (wnptr != WNULL)` loop of `sendwtnts` and the message after it.
The messages come out in the order they enter the outqueue. -/
def sendLoop (operation : MsgOp) : Nat → JiaMsg → List WtntNode → Result (List JiaMsg)
  | _, m, [] => .ok [{ m with op := operation }]
  | 0, _, _ :: _ => .error (.undefined "endless message stream")
  | fuel + 1, m, n :: ns => do
      let sent := { m with op := MsgOp.wtnt }
      let (m', left) ← appendstackwtnts { sent with size := Intbytes } (n :: ns)
      let rest ← sendLoop operation fuel m' left
      return sent :: rest

/-- `sendwtnts(operation)` of host `pid`, with the notices of the stack top and
whatever the message slot held before. -/
def sendwtnts (hostc pid : Nat) (operation : Operation) (scope : BitVec 32) (slot : Buffer)
    (wtntp : List WtntNode) : Result (List JiaMsg) := do
  let req : JiaMsg :=
    { op := operation.op, frompid := pid, topid := operation.lockid % hostc, scope := scope,
      size := 0, data := slot }
  let req ← appendmsg req (toLE Intbytes operation.lockid)
  let (req, left) ← appendstackwtnts req wtntp
  sendLoop operation.op wtntp.length req left

/-! ## Receiving -/

/-- One call of `savewtnt`. -/
structure SaveCall where
  lock : Nat
  addr : Addr
  mig : BitVec 32
  frompid : Nat
  scope : BitVec 32
deriving DecidableEq, Repr

/-- The loop of `recordwtnts` from offset `datai` on.  Address and tag are both
read at `datai`; the tag is the address cut to an `int`. -/
def recordLoop (m : JiaMsg) (lock : Nat) (scope : BitVec 32) (datai : Nat) : List SaveCall :=
  if datai < m.size then
    ⟨lock, stol m datai, (stol m datai).setWidth 32, m.frompid, scope⟩ ::
      recordLoop m lock scope (datai + (Addrbytes + Intbytes))
  else []
termination_by m.size - datai
decreasing_by
  simp only [Addrbytes, Intbytes]
  omega

/-- `recordwtnts(req)`: the calls of `savewtnt` it makes, in order. -/
def recordwtnts (scope : Nat → BitVec 32) (m : JiaMsg) : List SaveCall :=
  let lock := ((stol m 0).setWidth 32).toNat
  recordLoop m lock (scope lock) Intbytes

/-- `wtntserver`, `relserver` and `barrserver` up to the end of `recordwtnts`. -/
def noticeServer (hostc jiaPid : Nat) (scope : Nat → BitVec 32) (m : JiaMsg) :
    Result (List SaveCall) := do
  let lock := ((stol m 0).setWidth 32).toNat
  jiaAssert (lock % hostc = jiaPid) "Incorrect home of lock!"
  jiaAssert (m.op = .barr → lock = hidelock) "This should not have happened! 8"
  return recordwtnts scope m

/-- A manager handles messages in the order they were sent. -/
def noticeServerAll (hostc jiaPid : Nat) (scope : Nat → BitVec 32) :
    List JiaMsg → Result (List SaveCall)
  | [] => .ok []
  | m :: ms => do
      let calls ← noticeServer hostc jiaPid scope m
      let rest ← noticeServerAll hostc jiaPid scope ms
      return calls ++ rest

/-! ## What a message holds -/

/-- `m` holds the lock and the notices `es`, back to back. -/
structure Holds (m : JiaMsg) (lock : Nat) (es : List WtntEntry) : Prop where
  size_eq : m.size = Intbytes + (Addrbytes + Intbytes) * es.length
  lock_eq : readLE m.data Intbytes 0 = lock
  addr_eq : ∀ i (hi : i < es.length),
    readLE m.data Addrbytes (Intbytes + (Addrbytes + Intbytes) * i) =
      (es.get ⟨i, hi⟩).addr.toNat

theorem appendmsg_eq_ok {m m' : JiaMsg} {str : List Byte} :
    appendmsg m str = .ok m' ↔ m.size + str.length ≤ Maxmsgsize ∧
      m' = { m with data := write m.data m.size str, size := m.size + str.length } := by
  simp only [appendmsg, bind_eq_ok, jiaAssert_eq_ok, pure, Except.pure, Except.ok.injEq]
  constructor
  · rintro ⟨-, hle, rfl⟩
    exact ⟨hle, rfl⟩
  · rintro ⟨hle, rfl⟩
    exact ⟨(), hle, rfl⟩

/-- What `appendNotice` leaves in the message. -/
def withNotice (m : JiaMsg) (e : WtntEntry) : JiaMsg :=
  { m with
    data := write (write m.data m.size (toLE Addrbytes e.addr.toNat)) (m.size + Addrbytes)
      (toLE Intbytes e.mig.toNat)
    size := m.size + Addrbytes + Intbytes }

theorem appendNotice_ok {m : JiaMsg} {e : WtntEntry}
    (h : m.size + (Addrbytes + Intbytes) ≤ Maxmsgsize) :
    appendNotice m e = .ok (withNotice m e) := by
  simp only [appendNotice, bind_eq_ok, appendmsg_eq_ok, length_toLE]
  exact ⟨_, ⟨by omega, rfl⟩, by simpa [Nat.add_assoc] using h, by simp [withNotice]⟩

theorem holds_withNotice {m : JiaMsg} {lock : Nat} {es : List WtntEntry} {e : WtntEntry}
    (h : Holds m lock es) : Holds (withNotice m e) lock (es ++ [e]) := by
  have hsize := h.size_eq
  refine ⟨?_, ?_, ?_⟩
  · simp only [withNotice, hsize, List.length_append, List.length_singleton]
    ring
  · have hle : 0 + Intbytes ≤ m.size := by omega
    rw [withNotice, readLE_write_of_le _ _ (by omega), readLE_write_of_le _ _ hle]
    exact h.lock_eq
  · intro i hi
    simp only [List.length_append, List.length_singleton] at hi
    by_cases hlt : i < es.length
    · have hoff : Intbytes + (Addrbytes + Intbytes) * i + Addrbytes ≤ m.size := by
        simp only [hsize, Addrbytes, Intbytes]
        omega
      rw [withNotice, readLE_write_of_le _ _ (by omega), readLE_write_of_le _ _ hoff,
        h.addr_eq i hlt]
      simp [List.getElem_append_left hlt]
    · obtain rfl : i = es.length := by omega
      rw [withNotice, ← hsize, readLE_write_of_le _ _ (by omega), readLE_write_toLE]
      simp only [List.get_eq_getElem, List.getElem_concat_length]
      exact Nat.mod_eq_of_lt e.addr.isLt

/-- Header fields of a message, which appending keeps. -/
def SameHeader (m m' : JiaMsg) : Prop :=
  m'.op = m.op ∧ m'.frompid = m.frompid ∧ m'.topid = m.topid ∧ m'.scope = m.scope

theorem appendNotices_ok {m : JiaMsg} {lock : Nat} {es₀ : List WtntEntry} (es : List WtntEntry)
    (h : Holds m lock es₀) (hfit : m.size + (Addrbytes + Intbytes) * es.length ≤ Maxmsgsize) :
    ∃ m', appendNotices m es = .ok m' ∧ Holds m' lock (es₀ ++ es) ∧ SameHeader m m' := by
  induction es generalizing m es₀ with
  | nil => exact ⟨m, rfl, by simpa using h, rfl, rfl, rfl, rfl⟩
  | cons e es ih =>
      simp only [List.length_cons, Nat.mul_add, Nat.mul_one] at hfit
      have hone : m.size + (Addrbytes + Intbytes) ≤ Maxmsgsize := by omega
      have hrest : (withNotice m e).size + (Addrbytes + Intbytes) * es.length ≤ Maxmsgsize := by
        simp only [withNotice]
        omega
      obtain ⟨m', happ, hholds, hhead⟩ := ih (holds_withNotice h) hrest
      refine ⟨m', ?_, by simpa using hholds, hhead⟩
      simp only [appendNotices, bind_eq_ok]
      exact ⟨_, appendNotice_ok hone, happ⟩

/-- `appendstackwtnts` never trips the assert and appends whole nodes. -/
theorem appendstackwtnts_ok {m : JiaMsg} {lock : Nat} {es₀ : List WtntEntry}
    (ns : List WtntNode) (h : Holds m lock es₀) (hsize : m.size ≤ Maxmsgsize) :
    ∃ m' left taken, appendstackwtnts m ns = .ok (m', left) ∧ ns = taken ++ left ∧
      Holds m' lock (es₀ ++ chainEntries taken) ∧ SameHeader m m' ∧ m'.size ≤ Maxmsgsize := by
  induction ns generalizing m es₀ with
  | nil => exact ⟨m, [], [], rfl, rfl, by simpa using h, ⟨rfl, rfl, rfl, rfl⟩, hsize⟩
  | cons n ns ih =>
      by_cases hfit : m.size + n.entries.length * (Intbytes + Addrbytes) < Maxmsgsize
      · have hroom : m.size + (Addrbytes + Intbytes) * n.entries.length ≤ Maxmsgsize := by
          rw [Nat.mul_comm, Nat.add_comm Addrbytes]
          exact hfit.le
        obtain ⟨m₁, happ, hholds, hhead⟩ := appendNotices_ok n.entries h hroom
        have hsize₁ : m₁.size ≤ Maxmsgsize := by
          rw [h.size_eq] at hroom
          rw [hholds.size_eq, List.length_append, Nat.mul_add]
          omega
        obtain ⟨m', left, taken, happ', hsplit, hholds', hhead', hsize'⟩ := ih hholds hsize₁
        refine ⟨m', left, n :: taken, ?_, by simp [hsplit], by simpa using hholds', ?_, hsize'⟩
        · simp only [appendstackwtnts, if_pos hfit, bind_eq_ok]
          exact ⟨m₁, happ, happ'⟩
        · obtain ⟨h1, h2, h3, h4⟩ := hhead
          obtain ⟨h1', h2', h3', h4'⟩ := hhead'
          exact ⟨h1'.trans h1, h2'.trans h2, h3'.trans h3, h4'.trans h4⟩
      · refine ⟨m, n :: ns, [], ?_, rfl, by simpa using h, ⟨rfl, rfl, rfl, rfl⟩, hsize⟩
        simp only [appendstackwtnts, if_neg hfit]

/-- A message cut back to the lock always has room for one more node. -/
theorem appendstackwtnts_progress {m m' : JiaMsg} {n : WtntNode} {ns left : List WtntNode}
    (hsize : m.size = Intbytes) (h : appendstackwtnts m (n :: ns) = .ok (m', left)) :
    left.length ≤ ns.length := by
  have hle := n.wtntc_le
  have hfit : m.size + n.entries.length * (Intbytes + Addrbytes) < Maxmsgsize := by
    simp only [hsize, Intbytes, Addrbytes, Maxmsgsize, Maxwtnts, Maxsize, Msgheadsize] at *
    omega
  simp only [appendstackwtnts, if_pos hfit, bind_eq_ok] at h
  obtain ⟨m₁, -, h⟩ := h
  clear hfit hle hsize
  induction ns generalizing m₁ with
  | nil =>
      simp only [appendstackwtnts, Except.ok.injEq, Prod.mk.injEq] at h
      simp [← h.2]
  | cons n' ns ih =>
      simp only [appendstackwtnts] at h
      split at h
      · simp only [bind_eq_ok] at h
        obtain ⟨m₂, -, h⟩ := h
        exact (ih _ h).trans (by simp)
      · simp only [Except.ok.injEq, Prod.mk.injEq] at h
        simp [← h.2]

/-! ## The whole stream -/

/-- The stream for `es`: consecutive pieces of `es`, one message each. -/
inductive Stream (pid topid lock : Nat) (scope : BitVec 32) (operation : MsgOp) :
    List JiaMsg → List WtntEntry → Prop
  | last {m : JiaMsg} {es : List WtntEntry} (hholds : Holds m lock es)
      (hsize : m.size ≤ Maxmsgsize) (hpid : m.frompid = pid) (htop : m.topid = topid)
      (hscope : m.scope = scope) (hop : m.op = operation) :
      Stream pid topid lock scope operation [m] es
  | more {m : JiaMsg} {ms : List JiaMsg} {es rest : List WtntEntry} (hholds : Holds m lock es)
      (hsize : m.size ≤ Maxmsgsize) (hpid : m.frompid = pid) (htop : m.topid = topid)
      (hscope : m.scope = scope) (hop : m.op = .wtnt)
      (htail : Stream pid topid lock scope operation ms rest) :
      Stream pid topid lock scope operation (m :: ms) (es ++ rest)

theorem sendLoop_stream (operation : MsgOp) {lock fuel : Nat} {m : JiaMsg}
    {es₀ : List WtntEntry} {ns : List WtntNode} (h : Holds m lock es₀)
    (hsize : m.size ≤ Maxmsgsize) (hfuel : ns.length ≤ fuel) :
    ∃ ms, sendLoop operation fuel m ns = .ok ms ∧
      Stream m.frompid m.topid lock m.scope operation ms (es₀ ++ chainEntries ns) := by
  induction fuel generalizing m es₀ ns with
  | zero =>
      obtain rfl : ns = [] := List.length_eq_zero_iff.mp (by omega)
      refine ⟨[{ m with op := operation }], by simp [sendLoop], ?_⟩
      simp only [chainEntries_nil, List.append_nil]
      exact .last ⟨h.size_eq, h.lock_eq, h.addr_eq⟩ hsize rfl rfl rfl rfl
  | succ fuel ih =>
      cases ns with
      | nil =>
          refine ⟨[{ m with op := operation }], by simp [sendLoop], ?_⟩
          simp only [chainEntries_nil, List.append_nil]
          exact .last ⟨h.size_eq, h.lock_eq, h.addr_eq⟩ hsize rfl rfl rfl rfl
      | cons n ns =>
          -- the slot is reused: cut back to the lock, it holds no notices
          have hcut : Holds { m with op := .wtnt, size := Intbytes } lock [] :=
            ⟨rfl, h.lock_eq, fun i hi => absurd hi (by simp)⟩
          obtain ⟨m', left, taken, happ, hsplit, hholds, ⟨-, hpid, htop, hscope⟩, hsize'⟩ :=
            appendstackwtnts_ok (n :: ns) hcut (show Intbytes ≤ Maxmsgsize by decide)
          have hlen : left.length ≤ fuel := by
            have hprog := appendstackwtnts_progress rfl happ
            simp only [List.length_cons] at hfuel
            omega
          obtain ⟨ms, hms, hstream⟩ := ih hholds hsize' hlen
          simp only at hpid htop hscope
          rw [hpid, htop, hscope] at hstream
          refine ⟨{ m with op := .wtnt } :: ms, ?_, ?_⟩
          · simp only [sendLoop, bind_eq_ok, Prod.exists]
            exact ⟨m', left, happ, ms, hms, rfl⟩
          · rw [hsplit]
            have hentries : chainEntries (taken ++ left) =
                ([] ++ chainEntries taken) ++ chainEntries left := by
              simp [chainEntries]
            rw [hentries]
            exact .more ⟨h.size_eq, h.lock_eq, h.addr_eq⟩ hsize rfl rfl rfl rfl hstream

/-- `sendwtnts` ends, trips no assert, and sends the notices of the chain in order. -/
theorem sendwtnts_stream (hostc pid : Nat) (operation : Operation) (scope : BitVec 32)
    (slot : Buffer) (wtntp : List WtntNode) :
    ∃ ms, sendwtnts hostc pid operation scope slot wtntp = .ok ms ∧
      Stream pid (operation.lockid % hostc) operation.lockid scope operation.op ms
        (chainEntries wtntp) := by
  have hlock : readLE (write slot 0 (toLE Intbytes operation.lockid)) Intbytes 0 =
      operation.lockid := by
    rw [readLE_write_toLE]
    exact Nat.mod_eq_of_lt operation.lockid_lt
  have hstart : Holds
      { op := operation.op, frompid := pid, topid := operation.lockid % hostc, scope := scope,
        size := Intbytes, data := write slot 0 (toLE Intbytes operation.lockid) }
      operation.lockid [] :=
    ⟨rfl, hlock, fun i hi => absurd hi (by simp)⟩
  obtain ⟨m', left, taken, happ, hsplit, hholds, ⟨-, hpid, htop, hscope⟩, hsize⟩ :=
    appendstackwtnts_ok wtntp hstart (show Intbytes ≤ Maxmsgsize by decide)
  have hlen : left.length ≤ wtntp.length := by simp [hsplit]
  obtain ⟨ms, hms, hstream⟩ := sendLoop_stream operation.op hholds hsize hlen
  refine ⟨ms, ?_, ?_⟩
  · simp only [sendwtnts, bind_eq_ok, appendmsg_eq_ok, Prod.exists, length_toLE, Nat.zero_add]
    exact ⟨_, ⟨by decide, rfl⟩, m', left, happ, hms⟩
  · simp only at hpid htop hscope
    rw [hpid, htop, hscope] at hstream
    simpa [hsplit, chainEntries] using hstream

/-! ## Decoding -/

theorem stol_addr {m : JiaMsg} {lock : Nat} {es : List WtntEntry} (h : Holds m lock es)
    {i : Nat} (hi : i < es.length) :
    stol m (Intbytes + (Addrbytes + Intbytes) * i) = (es.get ⟨i, hi⟩).addr := by
  rw [stol, h.addr_eq i hi, BitVec.ofNat_toNat, BitVec.setWidth_eq]

theorem stol_lock {m : JiaMsg} {lock : Nat} {es : List WtntEntry} (h : Holds m lock es) :
    ((stol m 0).setWidth 32).toNat = lock := by
  have hlow : readLE m.data 8 0 % 256 ^ 4 = readLE m.data 4 0 := readLE_mod m.data 4 4 0
  have hlock : readLE m.data 4 0 = lock := h.lock_eq
  have hpow : (256 : Nat) ^ 4 = 2 ^ 32 := by norm_num
  rw [hlock, hpow] at hlow
  rw [stol, BitVec.toNat_setWidth, BitVec.toNat_ofNat, Nat.mod_mod_of_dvd _ (by norm_num)]
  exact hlow

/-- The call `recordwtnts` makes for a notice. -/
def savedCall (lock pid : Nat) (scope : BitVec 32) (e : WtntEntry) : SaveCall :=
  ⟨lock, e.addr, e.addr.setWidth 32, pid, scope⟩

theorem recordLoop_eq {m : JiaMsg} {lock : Nat} {es : List WtntEntry} (h : Holds m lock es)
    (l : Nat) (scope : BitVec 32) {i : Nat} (hi : i ≤ es.length) :
    recordLoop m l scope (Intbytes + (Addrbytes + Intbytes) * i) =
      (es.drop i).map (savedCall l m.frompid scope) := by
  obtain ⟨k, hk⟩ : ∃ k, es.length - i = k := ⟨_, rfl⟩
  induction k generalizing i with
  | zero =>
      have hend : ¬ Intbytes + (Addrbytes + Intbytes) * i < m.size := by
        simp only [h.size_eq, Addrbytes, Intbytes]
        omega
      rw [recordLoop.eq_def, if_neg hend, List.drop_eq_nil_of_le (by omega)]
      rfl
  | succ k ih =>
      have hlt : i < es.length := by omega
      have hin : Intbytes + (Addrbytes + Intbytes) * i < m.size := by
        simp only [h.size_eq, Addrbytes, Intbytes]
        omega
      have hnext : Intbytes + (Addrbytes + Intbytes) * i + (Addrbytes + Intbytes) =
          Intbytes + (Addrbytes + Intbytes) * (i + 1) := by ring
      rw [recordLoop.eq_def, if_pos hin, hnext, ih (by omega) (by omega), stol_addr h hlt,
        List.drop_eq_getElem_cons hlt]
      rfl

theorem recordwtnts_eq {m : JiaMsg} {lock : Nat} {es : List WtntEntry} (h : Holds m lock es)
    (scope : Nat → BitVec 32) :
    recordwtnts scope m = es.map (savedCall lock m.frompid (scope lock)) := by
  have hloop := recordLoop_eq h lock (scope lock) (Nat.zero_le es.length)
  simpa [recordwtnts, stol_lock h] using hloop

/-- The calls a manager makes for a whole stream. -/
theorem noticeServerAll_stream {hostc pid lock : Nat} {scope : BitVec 32} {operation : MsgOp}
    {ms : List JiaMsg} {es : List WtntEntry} (locks : Nat → BitVec 32)
    (hbarr : operation = .barr → lock = hidelock)
    (h : Stream pid (lock % hostc) lock scope operation ms es) :
    noticeServerAll hostc (lock % hostc) locks ms =
      .ok (es.map (savedCall lock pid (locks lock))) := by
  induction h with
  | last hholds hsize hpid htop hscope hop =>
      simp only [noticeServerAll, noticeServer, bind_eq_ok, jiaAssert_eq_ok, pure, Except.pure,
        Except.ok.injEq, stol_lock hholds, recordwtnts_eq hholds, hpid, hop]
      exact ⟨_, ⟨(), trivial, (), hbarr, rfl⟩, [], rfl, by simp⟩
  | more hholds hsize hpid htop hscope hop htail ih =>
      simp only [noticeServerAll, noticeServer, bind_eq_ok, jiaAssert_eq_ok, pure, Except.pure,
        Except.ok.injEq, stol_lock hholds, recordwtnts_eq hholds, hpid, hop]
      exact ⟨_, ⟨(), trivial, (), by simp, rfl⟩, _, ih, by simp⟩

theorem Stream.size_le {pid topid lock : Nat} {scope : BitVec 32} {operation : MsgOp}
    {ms : List JiaMsg} {es : List WtntEntry} (h : Stream pid topid lock scope operation ms es) :
    ∀ m ∈ ms, m.size ≤ Maxmsgsize := by
  induction h with
  | last hholds hsize hpid htop hscope hop => simpa using hsize
  | more hholds hsize hpid htop hscope hop htail ih =>
      intro m hm
      rcases List.mem_cons.mp hm with rfl | hm
      · exact hsize
      · exact ih m hm

/-- The stream of `operation` decodes to its notices: `sendwtnts` ends without
an assert, no message is too large, and the manager saves every notice once, in
order, with its address, its mig tag and the sender. -/
def DecodesFaithfully (hostc pid : Nat) (operation : Operation) (scope : BitVec 32)
    (slot : Buffer) (wtntp : List WtntNode) (locks : Nat → BitVec 32) : Prop :=
  ∃ ms, sendwtnts hostc pid operation scope slot wtntp = .ok ms ∧
    (∀ m ∈ ms, m.size ≤ Maxmsgsize) ∧
    noticeServerAll hostc (operation.lockid % hostc) locks ms =
      .ok ((chainEntries wtntp).map fun e =>
        ⟨operation.lockid, e.addr, e.mig, pid, locks operation.lockid⟩)

theorem decodesFaithfully_iff_calls (hostc pid : Nat) (operation : Operation)
    (scope : BitVec 32) (slot : Buffer) (wtntp : List WtntNode) (locks : Nat → BitVec 32) :
    DecodesFaithfully hostc pid operation scope slot wtntp locks ↔
      (chainEntries wtntp).map (savedCall operation.lockid pid (locks operation.lockid)) =
        (chainEntries wtntp).map fun e =>
          ⟨operation.lockid, e.addr, e.mig, pid, locks operation.lockid⟩ := by
  obtain ⟨ms, hsend, hstream⟩ := sendwtnts_stream hostc pid operation scope slot wtntp
  have hbarr : operation.op = .barr → operation.lockid = hidelock := by
    cases operation with
    | rel lock => simp [Operation.op]
    | barr => simp [Operation.lockid]
  have hserve := noticeServerAll_stream locks hbarr hstream
  constructor
  · rintro ⟨ms', hsend', -, hserve'⟩
    obtain rfl : ms = ms' := Except.ok.inj (hsend.symm.trans hsend')
    exact Except.ok.inj (hserve.symm.trans hserve')
  · intro hcalls
    exact ⟨ms, hsend, hstream.size_le, hserve.trans (congrArg Except.ok hcalls)⟩

/-- The mig tag arrives only where it equals the low half of the address. -/
theorem notice_stream_decodes_iff (hostc pid : Nat) (operation : Operation)
    (scope : BitVec 32) (slot : Buffer) (wtntp : List WtntNode) (locks : Nat → BitVec 32) :
    DecodesFaithfully hostc pid operation scope slot wtntp locks ↔
      ∀ e ∈ chainEntries wtntp, e.mig = e.addr.setWidth 32 := by
  rw [decodesFaithfully_iff_calls, List.map_inj_left]
  constructor
  · intro h e he
    exact (SaveCall.mk.inj (h e he)).2.2.1.symm
  · intro h e he
    simp [savedCall, h e he]

/-- One clean notice of a page at `0x400000001000`: the manager is told to
migrate it. -/
theorem notice_stream_loses_mig :
    ¬ DecodesFaithfully 2 1 .barr 0 (fun _ => 0)
      [⟨[⟨0x400000001000, 1, 0, 0⟩], by decide⟩] (fun _ => 0) := by
  rw [decodesFaithfully_iff_calls]
  decide

end Jiajia.Wire
