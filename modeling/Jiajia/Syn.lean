import Jiajia.Mig

/-!
# Synchronisation state and intervals

Locks, the lock stack and the interval functions of `syn.c`, on the state of
one host.
-/

namespace Jiajia

/-- `jialock_t` -/
structure Lock where
  acqs : Nat → Nat
  acqscope : Nat → BitVec 32
  acqc : Nat
  scope : BitVec 32
  myscope : BitVec 32
  wtntp : WtntList

/-- `jiastack_t` -/
structure StackEntry where
  lockid : Nat
  wtntp : WtntList

/-- The synchronisation side of a host.  The lock stack is `top` and what lies
below it; entries above `stackptr` hold no notices. -/
structure SynState where
  locks : Nat → Lock
  top : StackEntry
  below : List StackEntry
  acqwait : Bool
  barrwait : Bool
  waitwait : Bool
  noclearlocks : Bool
  waitcounter : Nat

/-- Synchronisation operation an interval ends or starts with. -/
inductive SynOp
  | acq (lock : Nat)
  | rel (lock : Nat)
  | barr
deriving DecidableEq, Repr

/-- Where the main thread of a host stands. -/
inductive Pc
  /-- In the application. -/
  | app
  /-- In the fault handler, at `while (getpwait)`. -/
  | fault (w : MemState.FaultWait)
  /-- In the home loop of `endinterval`, before entry `i` of `hpages`. -/
  | scan (op : SynOp) (i hpages : Nat)
  /-- At the end of `endinterval`, at `while (diffwait)`. -/
  | drain (op : SynOp)
  /-- In `acquire`, at `while (acqwait)`. -/
  | acqwait (lock : Nat)
  /-- In `jia_barrier`, at `while (barrwait)`. -/
  | barrwait
  /-- In the `jia_wait` that `jia_barrier` calls. -/
  | barrsync
  /-- In `jia_wait`, at `while (waitwait)`. -/
  | waitwait
deriving DecidableEq, Repr

/-- One host: its memory, its synchronisation state, its main thread. -/
structure Host where
  m : MemState
  y : SynState
  pc : Pc

def initLock : Lock where
  acqs _ := 2 ^ 32 - 1
  acqscope _ := BitVec.allOnes 32
  acqc := 0
  scope := 0
  myscope := BitVec.allOnes 32
  wtntp := .empty

/-- `initsyn` -/
def initsyn : SynState where
  locks _ := initLock
  top := ⟨hidelock, .empty⟩
  below := []
  acqwait := false
  barrwait := false
  waitwait := false
  noclearlocks := false
  waitcounter := 0

def initHost (cfg : Config) (pid : Nat) : Host := ⟨initmem cfg pid, initsyn, .app⟩

namespace SynState

variable (y : SynState)

def setLock (l : Nat) (lk : Lock) : SynState := { y with locks := upd y.locks l lk }

/-- `savewtnt(top.wtntp, ...)` with the values every local notice has. -/
def saveTop (addr : Addr) (pid : Nat) : SynState :=
  { y with top := { y.top with wtntp := y.top.wtntp.save addr 0 pid (BitVec.ofNat 32 Maxhosts) } }

/-- `clearlocks()` on host `pid`. -/
def clearlocks (cfg : Config) (pid : Nat) : SynState :=
  { y with
    locks := fun l =>
      if l < Maxlocks ∧ l % cfg.hostc = pid then { y.locks l with wtntp := .empty }
      else y.locks l }

/-- What a BARRGRANT does to the lock notices. -/
def endBarrier (cfg : Config) (pid : Nat) : SynState :=
  if y.noclearlocks then y else y.clearlocks cfg pid

theorem endBarrier_eq (cfg : Config) (pid : Nat) :
    y.endBarrier cfg pid = { y with locks := (y.endBarrier cfg pid).locks } := by
  unfold endBarrier
  split <;> rfl

/-- `pushstack(lock)` -/
def pushstack (lock : Nat) : Result SynState := do
  jiaAssert (y.below.length + 1 < Maxstacksize) "Too many continuous ACQUIRES!"
  return { y with top := ⟨lock, .empty⟩, below := y.top :: y.below }

/-- Merge the notices of a popped stack entry into the new top. -/
def mergeNotices (es : List WtntEntry) (l : WtntList) : WtntList :=
  es.foldl (fun l e => l.save e.addr e.mig e.fromPid e.scope) l

/-- `popstack()` -/
def popstack : Result SynState :=
  match y.below with
  | [] => .error (.undefined "lockstack[-1]")
  | top :: below =>
      .ok { y with
        top := { top with wtntp := mergeNotices y.top.wtntp.entries top.wtntp }
        below := below }

/-- `recordwtnts(req)`: the tag is read at the offset of the address. -/
def recordwtnts (lock src : Nat) (notices : List StackNotice) : SynState :=
  let lk := y.locks lock
  y.setLock lock
    { lk with
      wtntp := notices.foldl (fun l n => l.save n.addr (n.addr.setWidth 32) src lk.scope) lk.wtntp }

end SynState

namespace Host

variable (cfg : Config) (pid : Nat) (h : Host)

/-! ## `endinterval` -/

/-- Bytes of a DIFF message. -/
def diffmsgSize (ds : List PageDiff) : Nat := (ds.map PageDiff.size).sum

/-- `savediff(cachei)`: add the diff of a cached page to the pending message of
its home.  When the message is full it is flushed through the local `slot`,
which only a call that starts a message sets. -/
def savediff (m : MemState) (diffmsg : Nat → List PageDiff) (cachei : Nat) :
    Result (Nat → List PageDiff) := do
  let c := m.cache cachei
  let p := cfg.pagei c.addr
  let hosti := m.homehost cfg c.addr
  defined (m.Readable p) "diff of a page that is not readable"
  match c.twin with
  | none => .error (.undefined "diff against a null twin")
  | some twin =>
      let d := encodediff c.addr (m.mem p) twin
      defined (diffmsgSize (diffmsg hosti) + d.size ≤ Maxmsgsize) "uninitialised slot"
      return upd diffmsg hosti (diffmsg hosti ++ [d])

/-- Step 1 of `endinterval`: `savepage` for the written pages among `cs`. -/
def savepages (m : MemState) : SynState → (Nat → List PageDiff) → List Nat →
    Result (SynState × (Nat → List PageDiff))
  | y, diffmsg, [] => .ok (y, diffmsg)
  | y, diffmsg, c :: cs =>
      if (m.cache c).wtnt then do
        let diffmsg ← savediff cfg m diffmsg c
        savepages m (y.saveTop (m.cache c).addr pid) diffmsg cs
      else savepages m y diffmsg cs

/-- The DIFF messages `senddiffs` sends, by host. -/
def senddiffs (diffmsg : Nat → List PageDiff) : Out :=
  ((List.range cfg.hostc).filter fun hosti => !(diffmsg hosti).isEmpty).map fun hosti =>
    (hosti, .diff (diffmsg hosti))

/-- Steps 1 and 2 of `endinterval`. -/
def endinterval (op : SynOp) : Result (Host × Out) := do
  let (y, diffmsg) ← savepages cfg pid h.m h.y (fun _ => []) (List.range cfg.cachepages)
  let out := senddiffs cfg diffmsg
  let m := { h.m with diffwait := h.m.diffwait + out.length }
  return (⟨m, y, .scan op 0 m.hpages⟩, out)

/-- The blocks of a home page that differ from its twin. -/
def changedBlocks (pg twin : Page) : BitVec Wvbits :=
  (List.range Wvbits).foldl (fun wv b =>
    if ∃ k < Blockunits, pg.unit (b * Blockunits + k) ≠ twin.unit (b * Blockunits + k) then
      wv ||| ((1 : BitVec Wvbits) <<< b)
    else wv) 0

/-- The notice of a written home page that may have copies elsewhere. -/
def saveHome (op : SynOp) (i : Nat) : Host :=
  if (h.m.home i).rdnt then
    { h with
      m := if op = .barr then h.m.setHome i { h.m.home i with rdnt := false } else h.m
      y := h.y.saveTop (h.m.home i).addr pid }
  else h

/-- The write vectors of a written home page. -/
def vectorHome (m : MemState) (i : Nat) : Result MemState :=
  let e := m.home i
  if cfg.wVec ∧ ¬ e.wvfull then
    match e.twin with
    | none => .error (.undefined "compare with a null twin")
    | some twin => .ok (m.addwtvect cfg i (changedBlocks (m.mem (cfg.pagei e.addr)) twin) pid)
  else .ok m

/-- One turn of step 3 of `endinterval`. -/
def scanHome (op : SynOp) (i : Nat) : Result Host :=
  if (h.m.home i).wtnt &&& 1 ≠ 0 then do
    let h' := h.saveHome pid op i
    let m ← vectorHome cfg pid h'.m i
    return { h' with m := m }
  else .ok h

/-! ## `startinterval` -/

/-- Step 1 of `startinterval`. -/
def startCache (m : MemState) : Result MemState := do
  jiaAssert (∀ c < cfg.cachepages, (m.cache c).wtnt →
    m.prot (cfg.pagei (m.cache c).addr) ≠ .unmapped) "mprotect failed!"
  return { m with
    cache := fun c =>
      if c < cfg.cachepages ∧ (m.cache c).wtnt then
        { m.cache c with state := .ro, wtnt := false }
      else m.cache c
    prot := fun p =>
      if ∃ c < cfg.cachepages, (m.cache c).wtnt ∧ cfg.pagei (m.cache c).addr = p then .read
      else m.prot p }

/-- Step 2 of `startinterval` without adaptive write detection. -/
def startHome (m : MemState) : Result MemState := do
  jiaAssert (∀ i < m.hpages, (m.home i).wtnt &&& 1 ≠ 0 →
    m.prot (cfg.pagei (m.home i).addr) ≠ .unmapped) "mprotect failed!"
  return { m with
    home := fun i =>
      if i < m.hpages ∧ (m.home i).wtnt &&& 1 ≠ 0 then
        { m.home i with wtnt := (m.home i).wtnt &&& 0xfe }
      else m.home i
    prot := fun p =>
      if ∃ i < m.hpages, (m.home i).wtnt &&& 1 ≠ 0 ∧ cfg.pagei (m.home i).addr = p then .read
      else m.prot p }

/-- A fresh copy of a home page as its twin, for write vectors. -/
def twinHome (m : MemState) (i : Nat) : MemState :=
  let e := m.home i
  if cfg.wVec ∧ ¬ e.wvfull then
    m.setHome i { e with twin := some (m.mem (cfg.pagei e.addr)) }
  else m

/-- One turn of step 2 of `startinterval` with adaptive write detection. -/
def startHomeAdwd (m : MemState) (i : Nat) : Result MemState := do
  let e := m.home i
  let p := cfg.pagei e.addr
  let swcnt := ((e.wtnt >>> 4) &&& 0xf) + 1
  match (e.wtnt &&& 7).toNat with
  | 0 => return m
  | 1 | 5 => .error (.assert "This should not have happened! WTDT")
  | 2 =>
      if SWvalve ≤ swcnt.toNat then do
        let m ← m.memprotect p .readWrite
        return twinHome cfg (m.setHome i { e with wtnt := e.wtnt ||| 3 }) i
      else return m.setHome i { e with wtnt := (swcnt <<< 4) &&& 0xf0 }
  | 3 =>
      if SWvalve ≤ swcnt.toNat then return twinHome cfg m i
      else (m.setHome i { e with wtnt := (swcnt <<< 4) &&& 0xf0 }).memprotect p .read
  | 7 => (m.setHome i { e with wtnt := 0 }).memprotect p .read
  | _ => return m.setHome i { e with wtnt := 0 }

def startHomesAdwd : MemState → List Nat → Result MemState
  | m, [] => .ok m
  | m, i :: is => do
      let m ← startHomeAdwd cfg m i
      startHomesAdwd m is

/-- Step 2 of `startinterval`; `barr` tells whether the operation is BARR. -/
def startHomes (barr : Bool) (m : MemState) : Result MemState :=
  if barr ∧ cfg.adWd then startHomesAdwd cfg m (List.range m.hpages) else startHome cfg m

/-- `startinterval(synop)` -/
def startinterval (barr : Bool) : Result Host := do
  let m ← startCache cfg h.m
  let m ← startHomes cfg barr m
  return { h with m := m }

/-! ## Grants -/

/-- One message for each chunk of a stream: `more` for all but the last. -/
def chunkMsgs (more last : List WtntEntry → Msg) : List (List WtntEntry) → List Msg
  | [] => []
  | [c] => [last c]
  | c :: cs => more c :: chunkMsgs more last cs

/-- INVLD messages, and `last` for the last chunk. -/
def grantMsgs (lock : Nat) (last : List GrantNotice → Msg) : List (List WtntEntry) → List Msg :=
  chunkMsgs (fun c => .invld lock (c.map WtntEntry.toGrant)) (fun c => last (c.map WtntEntry.toGrant))

/-- `grantlock(lock, toproc, acqscope)` -/
def grantlock (lock toproc : Nat) (acqscope : BitVec 32) : Result Out := do
  let lk := h.y.locks lock
  let cs ← (appendLockWtnts (h.m.homehost cfg) toproc acqscope).stream lk.wtntp
  return (grantMsgs lock (.acqgrant lock lk.scope) cs).map fun msg => (toproc, msg)

/-- `bcastserver(msg)`, for a message that arrives at `level`. -/
def bcastserver (root level : Nat) (msg : Msg) : Out :=
  let level := level - 1
  let mypid := if root ≤ pid then pid - root else pid + cfg.hostc - root
  let child2 := mypid + 2 ^ level
  let msg := if level = 0 then msg else .bcast root level msg
  (if child2 < cfg.hostc then [((child2 + root) % cfg.hostc, msg)] else []) ++
    [((mypid + root) % cfg.hostc, msg)]

/-- The level `bsendmsg` starts with. -/
def bcastLevel : Nat :=
  if cfg.hostc = 1 then 1
  else firstIdx (fun level => decide (cfg.hostc ≤ 2 ^ level)) cfg.hostc 0

/-- `broadcast(slot)` -/
def broadcast (msg : Msg) : Out :=
  if cfg.bCast then bcastserver cfg pid pid (bcastLevel cfg) msg
  else (List.range cfg.hostc).map fun hosti => (hosti, msg)

/-- `grantbarr(lock)` -/
def grantbarr (lock : Nat) : Result Out := do
  let lk := h.y.locks lock
  let cs ← appendBarrWtnts.stream lk.wtntp
  return (grantMsgs lock (.barrgrant lock lk.scope) cs).flatMap (broadcast cfg pid)

/-! ## `sendwtnts` -/

/-- WTNT messages, and `last` for the last chunk. -/
def wtntMsgs (lock : Nat) (last : List StackNotice → Msg) : List (List WtntEntry) → List Msg :=
  chunkMsgs (fun c => .wtnt lock (c.map WtntEntry.toStack)) (fun c => last (c.map WtntEntry.toStack))

/-- `sendwtnts(REL)` and `sendwtnts(BARR)`. -/
def sendwtnts (barr : Bool) : Result Out := do
  let lock := h.y.top.lockid
  let scope := if barr then (h.y.locks hidelock).myscope else (h.y.locks lock).myscope
  let cs ← appendStackWtnts.stream h.y.top.wtntp
  let last := if barr then Msg.barr lock scope else Msg.rel lock scope
  return (wtntMsgs lock last cs).map fun msg => (lock % cfg.hostc, msg)

end Host

end Jiajia
