import Jiajia.Server

/-!
# The main thread

The calls of `synuser.c` and the accesses of the application, cut where the
main thread waits: each action runs up to the next wait.
-/

namespace Jiajia

/-- What the main thread of a host does next. -/
inductive Act
  /-- Read a unit of a page that is mapped readable. -/
  | load (p : Nat) (u : Fin Pageunits)
  /-- Write a unit of a page that is mapped writable. -/
  | store (p : Nat) (u : Fin Pageunits) (v : Word)
  /-- An access that faults; `seti` is where `replacei` starts. -/
  | fault (p : Nat) (write : Bool) (seti : Nat)
  | lock (l : Nat)
  | unlock (l : Nat)
  | barrier
  | wait
  /-- Go on after a wait, or with the next turn of a loop. -/
  | go
deriving DecidableEq, Repr

namespace Host

variable (cfg : Config) (pid : Nat) (h : Host)

/-! ## Accesses -/

def load (p : Nat) : Result (Host × Out) := do
  await (p < cfg.npages ∧ h.m.Readable p)
  return (h, [])

def store (p : Nat) (u : Fin Pageunits) (v : Word) : Result (Host × Out) := do
  await (p < cfg.npages ∧ h.m.prot p = .readWrite)
  return ({ h with m := h.m.setMem p fun u' => if u' = u then v else h.m.mem p u' }, [])

/-- `sigsegv_handler` -/
def fault (p : Nat) (write : Bool) (seti : Nat) : Result (Host × Out) := do
  await (¬ h.m.Readable p ∨ (write ∧ h.m.prot p ≠ .readWrite))
  jiaAssert (p < cfg.npages) "Access shared memory out of range"
  if (h.m.page p).homepid = pid then do
    let m ← h.m.homeFault cfg p
    return ({ h with m := m }, [])
  else do
    let (m, w, out) ← h.m.cacheFault cfg p seti
    return ({ h with m := m, pc := .fault w }, out)

/-! ## Synchronisation calls -/

/-- `jia_lock`, up to the home loop of `endinterval`. -/
def jiaLock (l : Nat) : Result (Host × Out) :=
  if cfg.hostc = 1 then .ok (h, [])
  else do
    jiaAssert (l < Maxlocks) "lock should range from 0 to Maxlocks - 1"
    jiaAssert (∀ e ∈ h.y.top :: h.y.below, e.lockid ≠ l) "Embeding of the same lock is not allowed!"
    h.endinterval cfg pid (.acq l)

/-- `jia_unlock`, up to the home loop of `endinterval`. -/
def jiaUnlock (l : Nat) : Result (Host × Out) :=
  if cfg.hostc = 1 then .ok (h, [])
  else do
    jiaAssert (l < Maxlocks) "lock should range from 0 to Maxlocks - 1"
    jiaAssert (l = h.y.top.lockid) "lock and unlock should be used in pair!"
    h.endinterval cfg pid (.rel l)

/-- `jia_barrier`, up to the home loop of `endinterval`. -/
def jiaBarrier : Result (Host × Out) :=
  if cfg.hostc = 1 then .ok (h, [])
  else do
    jiaAssert (h.y.below = []) "barrier can not be used in CS!"
    h.endinterval cfg pid .barr

/-- `jia_wait`, up to `while (waitwait)`, with `pc` the wait it happens in. -/
def jiaWait (pc : Pc) : Host × Out :=
  if cfg.hostc = 1 then (h, [])
  else ({ h with y := { h.y with waitwait := true }, pc := pc }, [(0, .wait)])

/-! ## After the interval -/

/-- `jia_lock` after `endinterval`: `acquire`, up to `while (acqwait)`. -/
def acquire (l : Nat) : Host × Out :=
  ({ h with y := { h.y with acqwait := true }, pc := .acqwait l },
    [(l % cfg.hostc, .acq l (h.y.locks l).myscope)])

/-- `jia_lock` after `acquire`. -/
def acquired (l : Nat) : Result Host := do
  let h ← h.startinterval cfg false
  let y ← h.y.pushstack l
  return { h with y := y, pc := .app }

/-- `jia_unlock` after `endinterval`. -/
def release : Result (Host × Out) := do
  let out ← h.sendwtnts cfg false
  let h ← h.startinterval cfg false
  let y ← h.y.popstack
  return ({ h with y := y, pc := .app }, out)

/-- `jia_barrier` after `endinterval`, up to `while (barrwait)`. -/
def arrive : Result (Host × Out) := do
  let top := if cfg.hMig then { h.y.top with wtntp := h.m.migcheckcache cfg h.y.top.wtntp }
    else h.y.top
  let h := { h with y := { h.y with top := top, barrwait := true } }
  let out ← h.sendwtnts cfg true
  return ({ h with y := { h.y with top := { top with wtntp := .empty } }, pc := .barrwait }, out)

/-- The last part of `jia_barrier`. -/
def leaveBarrier : Result Host := do
  let h ← h.startinterval cfg true
  return { h with pc := .app }

/-- The main thread goes on from where it waits. -/
def go : Result (Host × Out) :=
  match h.pc with
  | .app => .error .blocked
  | .fault w => do
      await (h.m.getpwait = false)
      let m ← h.m.faultEnd w
      return ({ h with m := m, pc := .app }, [])
  | .scan op i hpages =>
      if i < hpages then do
        let h ← h.scanHome cfg pid op i
        return ({ h with pc := .scan op (i + 1) hpages }, [])
      else return ({ h with pc := .drain op }, [])
  | .drain op => do
      await (h.m.diffwait = 0)
      match op with
      | .acq l => return h.acquire cfg l
      | .rel _ => h.release cfg
      | .barr => h.arrive cfg
  | .acqwait l => do
      await (h.y.acqwait = false)
      silent (h.acquired cfg l)
  | .barrwait => do
      await (h.y.barrwait = false)
      if cfg.hMig ∧ cfg.wVec then return h.jiaWait cfg .barrsync
      else silent (h.leaveBarrier cfg)
  | .barrsync => do
      await (h.y.waitwait = false)
      silent (h.leaveBarrier cfg)
  | .waitwait => do
      await (h.y.waitwait = false)
      return ({ h with pc := .app }, [])

/-- A call of the application. -/
def inApp (r : Result (Host × Out)) : Result (Host × Out) := do
  await (h.pc = .app)
  r

/-- One action of the main thread. -/
def act : Act → Result (Host × Out)
  | .load p _ => h.inApp (h.load cfg p)
  | .store p u v => h.inApp (h.store cfg p u v)
  | .fault p write seti => h.inApp (h.fault cfg pid p write seti)
  | .lock l => h.inApp (h.jiaLock cfg pid l)
  | .unlock l => h.inApp (h.jiaUnlock cfg pid l)
  | .barrier => h.inApp (h.jiaBarrier cfg pid)
  | .wait => h.inApp (.ok (h.jiaWait cfg .waitwait))
  | .go => h.go cfg pid

end Host

end Jiajia
