import Jiajia.Syn

/-!
# Message servers

The handlers of `synserver.c` and the dispatch of `msg_handle`, on the state of
the host that handles the message.
-/

namespace Jiajia.Host

variable (cfg : Config) (pid : Nat) (h : Host)

/-! ## Invalidation -/

/-- The first branch of `invalidate`: drop a cached copy. -/
def invalidateCopy (m : MemState) (n : GrantNotice) : Result MemState := do
  let cachei := m.cachepage cfg n.addr
  if n.fromPid ≠ pid ∧ m.homehost cfg n.addr ≠ pid ∧ cachei < cfg.cachepages ∧
      (m.cache cachei).state ≠ .inv then do
    let c := m.cache cachei
    (m.setCache cachei { c with state := .inv, wtnt := false }).memprotect (cfg.pagei c.addr) .none
  else return m

/-- The second branch of `invalidate`: home migration. -/
def migrateNotice (lock : Nat) (m : MemState) (n : GrantNotice) : Result MemState :=
  if cfg.hMig ∧ lock = hidelock ∧ n.fromPid ≠ Maxhosts ∧ n.mig ≠ 0 then
    m.migpage cfg pid n.addr (m.homehost cfg n.addr) n.fromPid
  else .ok m

/-- The third branch of `invalidate`: adaptive write detection.  `homepid` was
read before the other branches, the home index is read after them. -/
def markRemote (lock homepid : Nat) (m : MemState) (n : GrantNotice) : Result MemState :=
  if cfg.adWd ∧ lock = hidelock ∧ homepid = pid ∧ n.fromPid ≠ pid then do
    let homei := m.homepage cfg n.addr
    defined (homei < Homepages) "home[Homepages]"
    return m.setHome homei { m.home homei with wtnt := (m.home homei).wtnt ||| 4 }
  else .ok m

/-- One turn of the loop of `invalidate`. -/
def invalidateNotice (lock : Nat) (m : MemState) (n : GrantNotice) : Result MemState := do
  let m₁ ← invalidateCopy cfg pid m n
  let m₂ ← migrateNotice cfg pid lock m₁ n
  markRemote cfg pid lock (m.homehost cfg n.addr) m₂ n

/-- `invalidate(req)` -/
def invalidate (lock : Nat) : MemState → List GrantNotice → Result MemState
  | m, [] => .ok m
  | m, n :: ns => do
      let m ← invalidateNotice cfg pid lock m n
      invalidate lock m ns

def invserver (lock : Nat) (notices : List GrantNotice) : Result Host := do
  let m ← invalidate cfg pid lock h.m notices
  return { h with m := m }

/-! ## Locks -/

/-- Append a request to `acqs` and `acqscope`. -/
def pushAcq (lk : Lock) (src : Nat) (scope : BitVec 32) : Lock :=
  { lk with
    acqs := upd lk.acqs lk.acqc src, acqscope := upd lk.acqscope lk.acqc scope
    acqc := lk.acqc + 1 }

/-- Shift an array of `acqc` entries down by one. -/
def shift {α : Type} (acqc : Nat) (a : Nat → α) : Nat → α :=
  fun i => if i + 1 < acqc then a (i + 1) else a i

/-- The release of a lock: a new scope, and the first request leaves. -/
def popAcq (lk : Lock) : Lock :=
  { lk with
    scope := lk.scope + 1
    acqs := shift lk.acqc lk.acqs, acqscope := shift lk.acqc lk.acqscope
    acqc := lk.acqc - 1 }

/-- `grantlock` for the first request. -/
def grantFirst (lock : Nat) : Result Out :=
  h.grantlock cfg lock ((h.y.locks lock).acqs 0) ((h.y.locks lock).acqscope 0)

def acqserver (src lock : Nat) (scope : BitVec 32) : Result (Host × Out) := do
  jiaAssert (lock % cfg.hostc = pid) "Incorrect home of lock!"
  defined ((h.y.locks lock).acqc < Maxhosts) "acqs[] out of range"
  let h' := { h with y := h.y.setLock lock (pushAcq (h.y.locks lock) src scope) }
  if (h'.y.locks lock).acqc = 1 then do
    let out ← h'.grantFirst cfg lock
    return (h', out)
  else return (h', [])

/-- A release with a later scope than the barrier of this host keeps the lock
notices over the next barrier. -/
def noteScope (y : SynState) (scope : BitVec 32) : SynState :=
  if (y.locks hidelock).myscope < scope then { y with noclearlocks := true } else y

/-- `relserver` up to the next grant. -/
def recordRelease (y : SynState) (src lock : Nat) (scope : BitVec 32)
    (notices : List StackNotice) : SynState :=
  let y := (noteScope y scope).recordwtnts lock src notices
  y.setLock lock (popAcq (y.locks lock))

def relserver (src lock : Nat) (scope : BitVec 32) (notices : List StackNotice) :
    Result (Host × Out) := do
  jiaAssert (lock % cfg.hostc = pid) "Incorrect home of lock!"
  jiaAssert (src = (h.y.locks lock).acqs 0) "This should not have happened!"
  let h' := { h with y := recordRelease h.y src lock scope notices }
  if 0 < (h'.y.locks lock).acqc then do
    let out ← h'.grantFirst cfg lock
    return (h', out)
  else return (h', [])

def acqgrantserver (lock : Nat) (scope : BitVec 32) (notices : List GrantNotice) :
    Result Host := do
  let m ← invalidate cfg pid lock h.m notices
  let y := h.y.setLock lock { h.y.locks lock with myscope := scope }
  return { h with m := m, y := { y with acqwait := false } }

def wtntserver (src lock : Nat) (notices : List StackNotice) : Result Host := do
  jiaAssert (lock % cfg.hostc = pid) "Incorrect home of lock!"
  return { h with y := h.y.recordwtnts lock src notices }

/-! ## Barriers -/

/-- One more host has arrived. -/
def countBarr (lk : Lock) : Lock := { lk with acqc := lk.acqc + 1 }

/-- The barrier lock while `grantbarr` runs, and after it. -/
def nextBarr (lk : Lock) : Lock := { lk with scope := lk.scope + 1 }

def resetBarr (lk : Lock) : Lock := { lk with acqc := 0, wtntp := .empty }

def barrserver (src lock : Nat) (notices : List StackNotice) : Result (Host × Out) := do
  jiaAssert (lock % cfg.hostc = pid) "Incorrect home of lock!"
  jiaAssert (lock = hidelock) "This should not have happened! 8"
  let y := h.y.recordwtnts lock src notices
  let lk := countBarr (y.locks lock)
  if lk.acqc = cfg.hostc then do
    let out ← ({ h with y := y.setLock lock (nextBarr lk) }).grantbarr cfg pid lock
    return ({ h with y := y.setLock lock (resetBarr (nextBarr lk)) }, out)
  else return ({ h with y := y.setLock lock lk }, [])

def barrgrantserver (lock : Nat) (scope : BitVec 32) (notices : List GrantNotice) :
    Result Host := do
  let y := h.y.endBarrier cfg pid
  let m ← invalidate cfg pid lock h.m notices
  let m := if cfg.hMig then m.migarrangehome cfg else m
  let y := y.setLock lock { y.locks lock with myscope := scope }
  return { h with m := m, y := { y with barrwait := false, noclearlocks := false } }

/-! ## Waiting -/

def waitserver : Host × Out :=
  if h.y.waitcounter + 1 = cfg.hostc then
    ({ h with y := { h.y with waitcounter := 0 } }, broadcast cfg pid .waitgrant)
  else ({ h with y := { h.y with waitcounter := h.y.waitcounter + 1 } }, [])

def waitgrantserver : Host := { h with y := { h.y with waitwait := false } }

/-! ## Dispatch -/

/-- A handler that only changes the host. -/
def silent (r : Result Host) : Result (Host × Out) := do
  let h ← r
  return (h, [])

/-- A handler that only changes the memory side. -/
def onMem (r : Result (MemState × Out)) : Result (Host × Out) := do
  let (m, out) ← r
  return ({ h with m := m }, out)

/-- `msg_handle(msg)` on host `pid`, for a message that host `src` sent.  `rnd`
are the choices of `replacei`. -/
def msgHandle (src : Nat) (rnd : List Nat) : Msg → Result (Host × Out)
  | .diff ds => h.onMem (h.m.diffserver cfg src ds)
  | .diffgrant => .ok ({ h with m := h.m.diffgrantserver }, [])
  | .getp addr temp => h.onMem (h.m.getpserver cfg pid src addr temp)
  | .getpgrant addr wv data extra => silent do
      let m ← h.m.getpgrantserver cfg addr wv data extra rnd
      return { h with m := m }
  | .acq lock scope => h.acqserver cfg pid src lock scope
  | .acqgrant lock scope ns => silent (h.acqgrantserver cfg pid lock scope ns)
  | .invld lock ns => silent (h.invserver cfg pid lock ns)
  | .barr lock _ ns => h.barrserver cfg pid src lock ns
  | .barrgrant lock scope ns => silent (h.barrgrantserver cfg pid lock scope ns)
  | .rel lock scope ns => h.relserver cfg pid src lock scope ns
  | .wtnt lock ns => silent (h.wtntserver cfg pid src lock ns)
  | .wait => .ok (h.waitserver cfg pid)
  | .waitgrant => .ok (h.waitgrantserver, [])
  | .bcast root level msg => .ok (h, bcastserver cfg pid root level msg)

end Jiajia.Host
