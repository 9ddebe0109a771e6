import Jiajia.System

/-!
# What a step can do

One case for each thing a main thread does between two waits, and one lemma for
each server.  Everything about runs is derived from these.
-/

namespace Jiajia

namespace Host

variable {cfg : Config} {pid : Nat} {h h' : Host} {out : Out}

/-! ## Notices on the stack -/

/-- `y'` differs from `y` at most in the notices of the stack top. -/
def SameButTop (y y' : SynState) : Prop :=
  ∃ l, y' = { y with top := { y.top with wtntp := l } }

theorem SameButTop.refl (y : SynState) : SameButTop y y := ⟨y.top.wtntp, rfl⟩

theorem SameButTop.trans {y₁ y₂ y₃ : SynState} (h₁ : SameButTop y₁ y₂) (h₂ : SameButTop y₂ y₃) :
    SameButTop y₁ y₃ := by
  obtain ⟨l₁, rfl⟩ := h₁
  obtain ⟨l₂, rfl⟩ := h₂
  exact ⟨l₂, rfl⟩

theorem sameButTop_saveTop (y : SynState) (addr : Addr) (pid : Nat) :
    SameButTop y (y.saveTop addr pid) := ⟨_, rfl⟩

theorem savepages_sameButTop {m : MemState} {y y' : SynState} {dm dm' : Nat → List PageDiff}
    {cs : List Nat} (h : savepages cfg pid m y dm cs = .ok (y', dm')) : SameButTop y y' := by
  induction cs generalizing y dm with
  | nil =>
      simp only [savepages, Except.ok.injEq, Prod.mk.injEq] at h
      rw [← h.1]
      exact SameButTop.refl y
  | cons c cs ih =>
      simp only [savepages] at h
      split at h
      · rw [bind_eq_ok] at h
        obtain ⟨dm₁, -, h⟩ := h
        exact (sameButTop_saveTop y _ pid).trans (ih h)
      · exact ih h

theorem saveHome_pc (op : SynOp) (i : Nat) : (h.saveHome pid op i).pc = h.pc := by
  unfold saveHome
  split <;> rfl

theorem saveHome_sameButTop (op : SynOp) (i : Nat) :
    SameButTop h.y (h.saveHome pid op i).y := by
  unfold saveHome
  split
  · exact sameButTop_saveTop _ _ _
  · exact SameButTop.refl _

theorem scanHome_ok {op : SynOp} {i : Nat} (hs : h.scanHome cfg pid op i = .ok h') :
    h'.pc = h.pc ∧ SameButTop h.y h'.y := by
  unfold scanHome at hs
  split at hs
  · simp only [bind_eq_ok, pure, Except.pure, Except.ok.injEq] at hs
    obtain ⟨m, -, rfl⟩ := hs
    exact ⟨saveHome_pc op i, saveHome_sameButTop op i⟩
  · rw [← Except.ok.inj hs]
    exact ⟨rfl, SameButTop.refl _⟩

theorem startinterval_ok {barr : Bool} (hs : h.startinterval cfg barr = .ok h') :
    ∃ m₁ m₂, startCache cfg h.m = .ok m₁ ∧ startHomes cfg barr m₁ = .ok m₂ ∧
      h' = { h with m := m₂ } := by
  simp only [startinterval, bind_eq_ok, pure, Except.pure, Except.ok.injEq] at hs
  obtain ⟨m₁, h₁, m₂, h₂, rfl⟩ := hs
  exact ⟨m₁, m₂, h₁, h₂, rfl⟩

theorem endinterval_ok {op : SynOp} (hs : h.endinterval cfg pid op = .ok (h', out)) :
    ∃ y dm, savepages cfg pid h.m h.y (fun _ => []) (List.range cfg.cachepages) = .ok (y, dm) ∧
      out = senddiffs cfg dm ∧
      h' = ⟨{ h.m with diffwait := h.m.diffwait + out.length }, y, .scan op 0 h.m.hpages⟩ := by
  simp only [endinterval, bind_eq_ok, Prod.exists, pure, Except.pure, Except.ok.injEq,
    Prod.mk.injEq] at hs
  obtain ⟨y, dm, hsave, rfl, rfl⟩ := hs
  exact ⟨y, dm, hsave, rfl, rfl⟩

theorem mem_senddiffs {dm : Nat → List PageDiff} {x : Nat × Msg} :
    x ∈ senddiffs cfg dm ↔ ∃ k < cfg.hostc, dm k ≠ [] ∧ x = (k, .diff (dm k)) := by
  simp only [senddiffs, List.mem_map, List.mem_filter, List.mem_range, Bool.not_eq_eq_eq_not,
    Bool.not_true, List.isEmpty_eq_false_iff]
  constructor
  · rintro ⟨k, ⟨hk, hne⟩, rfl⟩
    exact ⟨k, hk, hne, rfl⟩
  · rintro ⟨k, hk, hne, rfl⟩
    exact ⟨k, ⟨hk, hne⟩, rfl⟩

theorem chunkMsgs_eq {more last : List WtntEntry → Msg} {cs : List (List WtntEntry)}
    (hne : cs ≠ []) :
    chunkMsgs more last cs = cs.dropLast.map more ++ [last (cs.getLast hne)] := by
  induction cs with
  | nil => exact absurd rfl hne
  | cons c cs ih =>
      cases cs with
      | nil => rfl
      | cons c' cs =>
          rw [chunkMsgs, ih (by simp)]
          · simp
          · simp

/-- The notices `arrive` sends. -/
def barrNotices (cfg : Config) (h : Host) : WtntList :=
  if cfg.hMig then h.m.migcheckcache cfg h.y.top.wtntp else h.y.top.wtntp

theorem arrive_ok (hs : h.arrive cfg = .ok (h', out)) :
    ∃ cs, appendStackWtnts.stream (barrNotices cfg h) = .ok cs ∧
      out = (wtntMsgs h.y.top.lockid
        (.barr h.y.top.lockid (h.y.locks hidelock).myscope) cs).map
          (fun msg => (h.y.top.lockid % cfg.hostc, msg)) ∧
      h' = { h with
        y := { h.y with top := { h.y.top with wtntp := .empty }, barrwait := true }
        pc := .barrwait } := by
  simp only [arrive, sendwtnts, bind_eq_ok, pure, Except.pure, Except.ok.injEq,
    Prod.mk.injEq] at hs
  by_cases hmig : cfg.hMig
  · simp only [hmig, if_true] at hs
    obtain ⟨out₁, ⟨cs, hcs, rfl⟩, rfl, rfl⟩ := hs
    exact ⟨cs, by simpa [barrNotices, hmig] using hcs, rfl, rfl⟩
  · simp only [hmig] at hs
    obtain ⟨out₁, ⟨cs, hcs, rfl⟩, rfl, rfl⟩ := hs
    exact ⟨cs, by simpa [barrNotices, hmig] using hcs, rfl, rfl⟩

theorem leaveBarrier_ok (hs : h.leaveBarrier cfg = .ok h') :
    ∃ m₁ m₂, startCache cfg h.m = .ok m₁ ∧ startHomes cfg true m₁ = .ok m₂ ∧
      h' = { h with m := m₂, pc := .app } := by
  simp only [leaveBarrier, bind_eq_ok, pure, Except.pure, Except.ok.injEq] at hs
  obtain ⟨h₁, hstart, rfl⟩ := hs
  obtain ⟨m₁, m₂, h₁, h₂, rfl⟩ := startinterval_ok hstart
  exact ⟨m₁, m₂, h₁, h₂, rfl⟩

theorem pushstack_ok {y y' : SynState} {l : Nat} (hs : y.pushstack l = .ok y') :
    y' = { y with top := ⟨l, .empty⟩, below := y.top :: y.below } := by
  simp only [SynState.pushstack, bind_eq_ok, pure, Except.pure, Except.ok.injEq] at hs
  obtain ⟨-, -, rfl⟩ := hs
  rfl

theorem popstack_ok {y y' : SynState} (hs : y.popstack = .ok y') :
    ∃ top below, y.below = top :: below ∧ y' = { y with
      top := { top with wtntp := SynState.mergeNotices y.top.wtntp.entries top.wtntp }
      below := below } := by
  unfold SynState.popstack at hs
  split at hs
  · cases hs
  · rename_i top below hbelow
    exact ⟨top, below, hbelow, (Except.ok.inj hs).symm⟩

theorem barrgrantserver_ok {l : Nat} {scope : BitVec 32} {ns : List GrantNotice}
    (hs : h.barrgrantserver cfg pid l scope ns = .ok h') :
    ∃ m, invalidate cfg pid l h.m ns = .ok m ∧
      h' = { h with
        m := if cfg.hMig then m.migarrangehome cfg else m
        y := { (h.y.endBarrier cfg pid).setLock l
          { (h.y.endBarrier cfg pid).locks l with myscope := scope } with
          barrwait := false, noclearlocks := false } } := by
  simp only [barrgrantserver, bind_eq_ok, pure, Except.pure, Except.ok.injEq] at hs
  obtain ⟨m, hm, rfl⟩ := hs
  exact ⟨m, hm, rfl⟩

/-! ## Steps of the main thread -/

/-- The check each operation makes before it ends the interval. -/
def Allowed (y : SynState) : SynOp → Prop
  | .acq l => l < Maxlocks ∧ ∀ e ∈ y.top :: y.below, e.lockid ≠ l
  | .rel l => l < Maxlocks ∧ l = y.top.lockid
  | .barr => y.below = []

/-- The call that ends an interval with an operation. -/
def Act.starts : Act → Option SynOp
  | .lock l => some (.acq l)
  | .unlock l => some (.rel l)
  | .barrier => some .barr
  | _ => none

/-- What the main thread does in one step. -/
inductive Main (cfg : Config) (pid : Nat) (h : Host) : Act → Host → Out → Prop
  | load {p : Nat} {u : Fin Pageunits} (hpc : h.pc = .app) (hp : p < cfg.npages)
      (hread : h.m.Readable p) : Main cfg pid h (.load p u) h []
  | store {p : Nat} {u : Fin Pageunits} {v : Word} (hpc : h.pc = .app) (hp : p < cfg.npages)
      (hprot : h.m.prot p = .readWrite) :
      Main cfg pid h (.store p u v)
        { h with m := h.m.setMem p fun u' => if u' = u then v else h.m.mem p u' } []
  | homeFault {p seti : Nat} {write : Bool} {m : MemState} (hpc : h.pc = .app)
      (hp : p < cfg.npages) (hfault : ¬ h.m.Readable p ∨ (write ∧ h.m.prot p ≠ .readWrite))
      (hhome : (h.m.page p).homepid = pid) (hm : h.m.homeFault cfg p = .ok m) :
      Main cfg pid h (.fault p write seti) { h with m := m } []
  | cacheFault {p seti : Nat} {write : Bool} {m : MemState} {w : MemState.FaultWait} {out : Out}
      (hpc : h.pc = .app) (hp : p < cfg.npages)
      (hfault : ¬ h.m.Readable p ∨ (write ∧ h.m.prot p ≠ .readWrite))
      (hhome : (h.m.page p).homepid ≠ pid) (hm : h.m.cacheFault cfg p seti = .ok (m, w, out)) :
      Main cfg pid h (.fault p write seti) { h with m := m, pc := .fault w } out
  | faultEnd {w : MemState.FaultWait} {m : MemState} (hpc : h.pc = .fault w)
      (hwait : h.m.getpwait = false) (hm : h.m.faultEnd w = .ok m) :
      Main cfg pid h .go { h with m := m, pc := .app } []
  | single {a : Act} (hpc : h.pc = .app) (hhost : cfg.hostc = 1)
      (ha : a = .wait ∨ (Act.starts a).isSome) : Main cfg pid h a h []
  | start {a : Act} {op : SynOp} {h' : Host} {out : Out} (hpc : h.pc = .app)
      (hhost : cfg.hostc ≠ 1) (ha : Act.starts a = some op) (hop : Allowed h.y op)
      (hm : h.endinterval cfg pid op = .ok (h', out)) : Main cfg pid h a h' out
  | scan {op : SynOp} {i n : Nat} {h' : Host} (hpc : h.pc = .scan op i n) (hi : i < n)
      (hm : h.scanHome cfg pid op i = .ok h') :
      Main cfg pid h .go { h' with pc := .scan op (i + 1) n } []
  | scanEnd {op : SynOp} {i n : Nat} (hpc : h.pc = .scan op i n) (hi : n ≤ i) :
      Main cfg pid h .go { h with pc := .drain op } []
  | acquire {l : Nat} (hpc : h.pc = .drain (.acq l)) (hwait : h.m.diffwait = 0) :
      Main cfg pid h .go { h with y := { h.y with acqwait := true }, pc := .acqwait l }
        [(l % cfg.hostc, .acq l (h.y.locks l).myscope)]
  | acquired {l : Nat} {h₁ : Host} {y : SynState} (hpc : h.pc = .acqwait l)
      (hwait : h.y.acqwait = false) (hm : h.startinterval cfg false = .ok h₁)
      (hy : h.y.pushstack l = .ok y) :
      Main cfg pid h .go { h₁ with y := y, pc := .app } []
  | release {l : Nat} {h₁ : Host} {y : SynState} {out : Out} (hpc : h.pc = .drain (.rel l))
      (hwait : h.m.diffwait = 0) (hout : h.sendwtnts cfg false = .ok out)
      (hm : h.startinterval cfg false = .ok h₁) (hy : h.y.popstack = .ok y) :
      Main cfg pid h .go { h₁ with y := y, pc := .app } out
  | arrive {h' : Host} {out : Out} (hpc : h.pc = .drain .barr) (hwait : h.m.diffwait = 0)
      (hm : h.arrive cfg = .ok (h', out)) : Main cfg pid h .go h' out
  | barrsync (hpc : h.pc = .barrwait) (hwait : h.y.barrwait = false) (hhost : cfg.hostc ≠ 1)
      (hflags : cfg.hMig ∧ cfg.wVec) :
      Main cfg pid h .go { h with y := { h.y with waitwait := true }, pc := .barrsync }
        [(0, .wait)]
  | leave {h' : Host} (hpc : (h.pc = .barrwait ∧ h.y.barrwait = false ∧ ¬ (cfg.hMig ∧ cfg.wVec)) ∨
      (h.pc = .barrsync ∧ h.y.waitwait = false)) (hm : h.leaveBarrier cfg = .ok h') :
      Main cfg pid h .go h' []
  | wait (hpc : h.pc = .app) (hhost : cfg.hostc ≠ 1) :
      Main cfg pid h .wait { h with y := { h.y with waitwait := true }, pc := .waitwait }
        [(0, .wait)]
  | waited (hpc : h.pc = .waitwait) (hwait : h.y.waitwait = false) :
      Main cfg pid h .go { h with pc := .app } []
  /-- `jia_wait` of a single host returns at once, inside a barrier too. -/
  | stay (hpc : h.pc = .barrwait) (hwait : h.y.barrwait = false) (hhost : cfg.hostc = 1) :
      Main cfg pid h .go h []

theorem silent_eq_ok {r : Result Host} :
    silent r = .ok (h', out) ↔ r = .ok h' ∧ out = [] := by
  simp only [silent, bind_eq_ok, pure, Except.pure, Except.ok.injEq, Prod.mk.injEq]
  constructor
  · rintro ⟨h, hr, rfl, rfl⟩
    exact ⟨hr, rfl⟩
  · rintro ⟨hr, rfl⟩
    exact ⟨h', hr, rfl, rfl⟩

theorem go_main (hgo : h.go cfg pid = .ok (h', out)) : Main cfg pid h .go h' out := by
  unfold go at hgo
  split at hgo
  · cases hgo
  · rename_i w hpc
    simp only [bind_eq_ok, await_eq_ok, pure, Except.pure, Except.ok.injEq, Prod.mk.injEq] at hgo
    obtain ⟨-, hwait, m, hm, rfl, rfl⟩ := hgo
    exact .faultEnd hpc hwait hm
  · rename_i op i n hpc
    split at hgo
    · rename_i hi
      simp only [bind_eq_ok, pure, Except.pure, Except.ok.injEq, Prod.mk.injEq] at hgo
      obtain ⟨h₁, hm, rfl, rfl⟩ := hgo
      exact .scan hpc hi hm
    · rename_i hi
      simp only [pure, Except.pure, Except.ok.injEq, Prod.mk.injEq] at hgo
      obtain ⟨rfl, rfl⟩ := hgo
      exact .scanEnd hpc (by omega)
  · rename_i op hpc
    rw [bind_eq_ok] at hgo
    obtain ⟨u, hwait, hgo⟩ := hgo
    rw [await_eq_ok] at hwait
    cases op with
    | acq l =>
        simp only [Host.acquire, pure, Except.pure, Except.ok.injEq, Prod.mk.injEq] at hgo
        obtain ⟨rfl, rfl⟩ := hgo
        exact .acquire hpc hwait
    | rel l =>
        simp only [Host.release, bind_eq_ok, pure, Except.pure, Except.ok.injEq,
          Prod.mk.injEq] at hgo
        obtain ⟨out₁, hout, h₁, hm, y, hy, rfl, rfl⟩ := hgo
        obtain ⟨m₁, m₂, hm₁, hm₂, rfl⟩ := startinterval_ok hm
        exact .release hpc hwait hout hm hy
    | barr => exact .arrive hpc hwait hgo
  · rename_i l hpc
    simp only [bind_eq_ok, await_eq_ok, silent_eq_ok, Host.acquired, pure, Except.pure,
      Except.ok.injEq] at hgo
    obtain ⟨-, hwait, ⟨h₁, hm, y, hy, rfl⟩, rfl⟩ := hgo
    obtain ⟨m₁, m₂, hm₁, hm₂, rfl⟩ := startinterval_ok hm
    exact .acquired hpc hwait hm hy
  · rename_i hpc
    rw [bind_eq_ok] at hgo
    obtain ⟨u, hwait, hgo⟩ := hgo
    rw [await_eq_ok] at hwait
    split at hgo
    · rename_i hflags
      unfold jiaWait at hgo
      split at hgo
      · rename_i hhost
        simp only [pure, Except.pure, Except.ok.injEq, Prod.mk.injEq] at hgo
        obtain ⟨rfl, rfl⟩ := hgo
        exact .stay hpc hwait hhost
      · rename_i hhost
        simp only [pure, Except.pure, Except.ok.injEq, Prod.mk.injEq] at hgo
        obtain ⟨rfl, rfl⟩ := hgo
        exact .barrsync hpc hwait hhost hflags
    · rename_i hflags
      obtain ⟨hm, rfl⟩ := silent_eq_ok.mp hgo
      exact .leave (Or.inl ⟨hpc, hwait, hflags⟩) hm
  · rename_i hpc
    rw [bind_eq_ok] at hgo
    obtain ⟨u, hwait, hgo⟩ := hgo
    rw [await_eq_ok] at hwait
    obtain ⟨hm, rfl⟩ := silent_eq_ok.mp hgo
    exact .leave (Or.inr ⟨hpc, hwait⟩) hm
  · rename_i hpc
    simp only [bind_eq_ok, await_eq_ok, pure, Except.pure, Except.ok.injEq, Prod.mk.injEq] at hgo
    obtain ⟨-, hwait, rfl, rfl⟩ := hgo
    exact .waited hpc hwait

theorem fault_main {p seti : Nat} {write : Bool} (hpc : h.pc = .app)
    (hf : h.fault cfg pid p write seti = .ok (h', out)) :
    Main cfg pid h (.fault p write seti) h' out := by
  simp only [Host.fault, bind_eq_ok, await_eq_ok, jiaAssert_eq_ok] at hf
  obtain ⟨-, hfault, -, hp, hf⟩ := hf
  split at hf
  · rename_i hhome
    simp only [bind_eq_ok, pure, Except.pure, Except.ok.injEq, Prod.mk.injEq] at hf
    obtain ⟨m, hm, rfl, rfl⟩ := hf
    exact .homeFault hpc hp hfault hhome hm
  · rename_i hhome
    simp only [bind_eq_ok, pure, Except.pure, Except.ok.injEq, Prod.mk.injEq, Prod.exists] at hf
    obtain ⟨m, w, out₁, hm, rfl, rfl⟩ := hf
    exact .cacheFault hpc hp hfault hhome hm

theorem act_main {a : Act} (ha : h.act cfg pid a = .ok (h', out)) : Main cfg pid h a h' out := by
  cases a with
  | go => exact go_main ha
  | load p u =>
      simp only [act, inApp, Host.load, bind_eq_ok, await_eq_ok, pure, Except.pure, Except.ok.injEq,
        Prod.mk.injEq] at ha
      obtain ⟨-, hpc, -, ⟨hp, hread⟩, rfl, rfl⟩ := ha
      exact .load hpc hp hread
  | store p u v =>
      simp only [act, inApp, Host.store, bind_eq_ok, await_eq_ok, pure, Except.pure, Except.ok.injEq,
        Prod.mk.injEq] at ha
      obtain ⟨-, hpc, -, ⟨hp, hprot⟩, rfl, rfl⟩ := ha
      exact .store hpc hp hprot
  | fault p write seti =>
      simp only [act, inApp, bind_eq_ok, await_eq_ok] at ha
      obtain ⟨-, hpc, hf⟩ := ha
      exact fault_main hpc hf
  | lock l =>
      simp only [act, inApp, bind_eq_ok, await_eq_ok, jiaLock] at ha
      obtain ⟨-, hpc, ha⟩ := ha
      split at ha
      · rename_i hhost
        simp only [Except.ok.injEq, Prod.mk.injEq] at ha
        obtain ⟨rfl, rfl⟩ := ha
        exact .single hpc hhost (Or.inr rfl)
      · rename_i hhost
        simp only [bind_eq_ok, jiaAssert_eq_ok] at ha
        obtain ⟨-, hl, -, hnew, hm⟩ := ha
        exact .start hpc hhost rfl ⟨hl, hnew⟩ hm
  | unlock l =>
      simp only [act, inApp, bind_eq_ok, await_eq_ok, jiaUnlock] at ha
      obtain ⟨-, hpc, ha⟩ := ha
      split at ha
      · rename_i hhost
        simp only [Except.ok.injEq, Prod.mk.injEq] at ha
        obtain ⟨rfl, rfl⟩ := ha
        exact .single hpc hhost (Or.inr rfl)
      · rename_i hhost
        simp only [bind_eq_ok, jiaAssert_eq_ok] at ha
        obtain ⟨-, hl, -, htop, hm⟩ := ha
        exact .start hpc hhost rfl ⟨hl, htop⟩ hm
  | barrier =>
      simp only [act, inApp, bind_eq_ok, await_eq_ok, jiaBarrier] at ha
      obtain ⟨-, hpc, ha⟩ := ha
      split at ha
      · rename_i hhost
        simp only [Except.ok.injEq, Prod.mk.injEq] at ha
        obtain ⟨rfl, rfl⟩ := ha
        exact .single hpc hhost (Or.inr rfl)
      · rename_i hhost
        simp only [bind_eq_ok, jiaAssert_eq_ok] at ha
        obtain ⟨-, hbelow, hm⟩ := ha
        exact .start hpc hhost rfl hbelow hm
  | wait =>
      simp only [act, inApp, bind_eq_ok, await_eq_ok, Except.ok.injEq] at ha
      obtain ⟨-, hpc, ha⟩ := ha
      unfold jiaWait at ha
      split at ha
      · rename_i hhost
        obtain ⟨rfl, rfl⟩ := Prod.mk.inj ha
        exact .single hpc hhost (Or.inl rfl)
      · rename_i hhost
        obtain ⟨rfl, rfl⟩ := Prod.mk.inj ha
        exact .wait hpc hhost

/-! ## Steps of the server thread -/

/-- What a host does with a message. -/
inductive Served (cfg : Config) (pid : Nat) (h : Host) (src : Nat) (rnd : List Nat) :
    Msg → Host → Out → Prop
  | diff {ds : List PageDiff} {m : MemState} (hm : MemState.applyDiffs cfg src h.m ds = .ok m) :
      Served cfg pid h src rnd (.diff ds) { h with m := m } [(src, .diffgrant)]
  | diffgrant : Served cfg pid h src rnd .diffgrant { h with m := h.m.diffgrantserver } []
  | getp {addr : Addr} {temp : Bool} {m : MemState} {out : Out}
      (hm : h.m.getpserver cfg pid src addr temp = .ok (m, out)) :
      Served cfg pid h src rnd (.getp addr temp) { h with m := m } out
  | getpgrant {addr : Addr} {wv : BitVec Wvbits} {data : Page} {extra : List ExtraPage}
      {m : MemState} (hm : h.m.getpgrantserver cfg addr wv data extra rnd = .ok m) :
      Served cfg pid h src rnd (.getpgrant addr wv data extra) { h with m := m } []
  | acqFirst {l : Nat} {scope : BitVec 32} {out : Out} (hl : l % cfg.hostc = pid)
      (hc : (h.y.locks l).acqc = 0)
      (hout : ({ h with y := h.y.setLock l (pushAcq (h.y.locks l) src scope) }).grantFirst cfg l =
        .ok out) :
      Served cfg pid h src rnd (.acq l scope)
        { h with y := h.y.setLock l (pushAcq (h.y.locks l) src scope) } out
  | acqQueue {l : Nat} {scope : BitVec 32} (hl : l % cfg.hostc = pid)
      (hc : (h.y.locks l).acqc ≠ 0) :
      Served cfg pid h src rnd (.acq l scope)
        { h with y := h.y.setLock l (pushAcq (h.y.locks l) src scope) } []
  | relNext {l : Nat} {scope : BitVec 32} {ns : List StackNotice} {out : Out}
      (hl : l % cfg.hostc = pid) (hsrc : src = (h.y.locks l).acqs 0)
      (hc : 1 < (h.y.locks l).acqc)
      (hout : ({ h with y := recordRelease h.y src l scope ns }).grantFirst cfg l = .ok out) :
      Served cfg pid h src rnd (.rel l scope ns)
        { h with y := recordRelease h.y src l scope ns } out
  | relLast {l : Nat} {scope : BitVec 32} {ns : List StackNotice} (hl : l % cfg.hostc = pid)
      (hsrc : src = (h.y.locks l).acqs 0) (hc : (h.y.locks l).acqc ≤ 1) :
      Served cfg pid h src rnd (.rel l scope ns)
        { h with y := recordRelease h.y src l scope ns } []
  | acqgrant {l : Nat} {scope : BitVec 32} {ns : List GrantNotice} {m : MemState}
      (hm : invalidate cfg pid l h.m ns = .ok m) :
      Served cfg pid h src rnd (.acqgrant l scope ns)
        { h with
          m := m
          y := { h.y.setLock l { h.y.locks l with myscope := scope } with acqwait := false } } []
  | invld {l : Nat} {ns : List GrantNotice} {m : MemState}
      (hm : invalidate cfg pid l h.m ns = .ok m) :
      Served cfg pid h src rnd (.invld l ns) { h with m := m } []
  | wtnt {l : Nat} {ns : List StackNotice} (hl : l % cfg.hostc = pid) :
      Served cfg pid h src rnd (.wtnt l ns) { h with y := h.y.recordwtnts l src ns } []
  | barrCount {scope : BitVec 32} {ns : List StackNotice} (hl : hidelock % cfg.hostc = pid)
      (hc : (h.y.locks hidelock).acqc + 1 ≠ cfg.hostc) :
      Served cfg pid h src rnd (.barr hidelock scope ns)
        { h with
          y := (h.y.recordwtnts hidelock src ns).setLock hidelock
            (countBarr ((h.y.recordwtnts hidelock src ns).locks hidelock)) } []
  | barrLast {scope : BitVec 32} {ns : List StackNotice} {out : Out}
      (hl : hidelock % cfg.hostc = pid) (hc : (h.y.locks hidelock).acqc + 1 = cfg.hostc)
      (hout : ({ h with
        y := (h.y.recordwtnts hidelock src ns).setLock hidelock (nextBarr (countBarr
          ((h.y.recordwtnts hidelock src ns).locks hidelock))) }).grantbarr cfg pid hidelock =
          .ok out) :
      Served cfg pid h src rnd (.barr hidelock scope ns)
        { h with
          y := (h.y.recordwtnts hidelock src ns).setLock hidelock (resetBarr (nextBarr
            (countBarr ((h.y.recordwtnts hidelock src ns).locks hidelock)))) } out
  | barrgrant {l : Nat} {scope : BitVec 32} {ns : List GrantNotice} {h' : Host}
      (hm : h.barrgrantserver cfg pid l scope ns = .ok h') :
      Served cfg pid h src rnd (.barrgrant l scope ns) h' []
  | waitCount (hc : h.y.waitcounter + 1 ≠ cfg.hostc) :
      Served cfg pid h src rnd .wait
        { h with y := { h.y with waitcounter := h.y.waitcounter + 1 } } []
  | waitLast (hc : h.y.waitcounter + 1 = cfg.hostc) :
      Served cfg pid h src rnd .wait { h with y := { h.y with waitcounter := 0 } }
        (broadcast cfg pid .waitgrant)
  | waitgrant : Served cfg pid h src rnd .waitgrant h.waitgrantserver []
  | bcast {root level : Nat} {msg : Msg} :
      Served cfg pid h src rnd (.bcast root level msg) h (bcastserver cfg pid root level msg)

theorem onMem_eq_ok {r : Result (MemState × Out)} :
    h.onMem r = .ok (h', out) ↔ ∃ m, r = .ok (m, out) ∧ h' = { h with m := m } := by
  simp only [onMem, bind_eq_ok, Prod.exists, pure, Except.pure, Except.ok.injEq, Prod.mk.injEq]
  constructor
  · rintro ⟨m, out₁, hr, rfl, rfl⟩
    exact ⟨m, hr, rfl⟩
  · rintro ⟨m, hr, rfl⟩
    exact ⟨m, out, hr, rfl, rfl⟩

section Served

variable {src : Nat} {rnd : List Nat}

@[simp] theorem acqc_recordwtnts (y : SynState) (l l' : Nat) (ns : List StackNotice) :
    ((y.recordwtnts l src ns).locks l').acqc = (y.locks l').acqc := by
  by_cases hl : l' = l
  · simp [SynState.recordwtnts, SynState.setLock, hl]
  · simp [SynState.recordwtnts, SynState.setLock, hl]

theorem noteScope_eq (y : SynState) (scope : BitVec 32) :
    noteScope y scope = { y with
      noclearlocks := y.noclearlocks || decide ((y.locks hidelock).myscope < scope) } := by
  unfold noteScope
  by_cases hlt : (y.locks hidelock).myscope < scope
  · simp [hlt]
  · simp [hlt]

@[simp] theorem locks_noteScope (y : SynState) (scope : BitVec 32) :
    (noteScope y scope).locks = y.locks := by
  rw [noteScope_eq]

theorem acqc_recordRelease (y : SynState) (src l : Nat) (scope : BitVec 32) (ns : List StackNotice) :
    ((recordRelease y src l scope ns).locks l).acqc = (y.locks l).acqc - 1 := by
  simp [recordRelease, SynState.setLock, popAcq]

theorem acqserver_served {l : Nat} {scope : BitVec 32}
    (hs : h.acqserver cfg pid src l scope = .ok (h', out)) :
    Served cfg pid h src rnd (.acq l scope) h' out := by
  simp only [acqserver, bind_eq_ok, jiaAssert_eq_ok, defined_eq_ok] at hs
  obtain ⟨-, hl, -, -, hs⟩ := hs
  have hacqc : ((h.y.setLock l (pushAcq (h.y.locks l) src scope)).locks l).acqc =
      (h.y.locks l).acqc + 1 := by
    simp [SynState.setLock, pushAcq]
  split at hs
  · rename_i hc
    simp only [bind_eq_ok, pure, Except.pure, Except.ok.injEq, Prod.mk.injEq] at hs
    obtain ⟨out₁, hout, rfl, rfl⟩ := hs
    exact .acqFirst hl (by omega) hout
  · rename_i hc
    simp only [pure, Except.pure, Except.ok.injEq, Prod.mk.injEq] at hs
    obtain ⟨rfl, rfl⟩ := hs
    exact .acqQueue hl (by omega)

theorem relserver_served {l : Nat} {scope : BitVec 32} {ns : List StackNotice}
    (hs : h.relserver cfg pid src l scope ns = .ok (h', out)) :
    Served cfg pid h src rnd (.rel l scope ns) h' out := by
  simp only [relserver, bind_eq_ok, jiaAssert_eq_ok] at hs
  obtain ⟨-, hl, -, hsrc, hs⟩ := hs
  have hacqc := acqc_recordRelease h.y src l scope ns
  split at hs
  · rename_i hc
    simp only [bind_eq_ok, pure, Except.pure, Except.ok.injEq, Prod.mk.injEq] at hs
    obtain ⟨out₁, hout, rfl, rfl⟩ := hs
    exact .relNext hl hsrc (by omega) hout
  · rename_i hc
    simp only [pure, Except.pure, Except.ok.injEq, Prod.mk.injEq] at hs
    obtain ⟨rfl, rfl⟩ := hs
    exact .relLast hl hsrc (by omega)

theorem barrserver_served {l : Nat} {scope : BitVec 32} {ns : List StackNotice}
    (hs : h.barrserver cfg pid src l ns = .ok (h', out)) :
    Served cfg pid h src rnd (.barr l scope ns) h' out := by
  simp only [barrserver, bind_eq_ok, jiaAssert_eq_ok] at hs
  obtain ⟨-, hl, -, rfl, hs⟩ := hs
  have hacqc : (countBarr ((h.y.recordwtnts hidelock src ns).locks hidelock)).acqc =
      (h.y.locks hidelock).acqc + 1 := by
    simp [countBarr]
  split at hs
  · rename_i hc
    simp only [bind_eq_ok, pure, Except.pure, Except.ok.injEq, Prod.mk.injEq] at hs
    obtain ⟨out₁, hout, rfl, rfl⟩ := hs
    exact .barrLast hl (by omega) hout
  · rename_i hc
    simp only [pure, Except.pure, Except.ok.injEq, Prod.mk.injEq] at hs
    obtain ⟨rfl, rfl⟩ := hs
    exact .barrCount hl (by omega)

theorem msgHandle_served {msg : Msg} (hs : h.msgHandle cfg pid src rnd msg = .ok (h', out)) :
    Served cfg pid h src rnd msg h' out := by
  cases msg with
  | diff ds =>
      obtain ⟨m, hm, rfl⟩ := onMem_eq_ok.mp hs
      simp only [MemState.diffserver, bind_eq_ok, pure, Except.pure, Except.ok.injEq,
        Prod.mk.injEq] at hm
      obtain ⟨m₁, hm, rfl, rfl⟩ := hm
      exact .diff hm
  | diffgrant =>
      simp only [msgHandle, Except.ok.injEq, Prod.mk.injEq] at hs
      obtain ⟨rfl, rfl⟩ := hs
      exact .diffgrant
  | getp addr temp =>
      obtain ⟨m, hm, rfl⟩ := onMem_eq_ok.mp hs
      exact .getp hm
  | getpgrant addr wv data extra =>
      obtain ⟨hr, rfl⟩ := silent_eq_ok.mp hs
      simp only [bind_eq_ok, pure, Except.pure, Except.ok.injEq] at hr
      obtain ⟨m, hm, rfl⟩ := hr
      exact .getpgrant hm
  | acq l scope => exact acqserver_served hs
  | acqgrant l scope ns =>
      obtain ⟨hr, rfl⟩ := silent_eq_ok.mp hs
      simp only [acqgrantserver, bind_eq_ok, pure, Except.pure, Except.ok.injEq] at hr
      obtain ⟨m, hm, rfl⟩ := hr
      exact .acqgrant hm
  | invld l ns =>
      obtain ⟨hr, rfl⟩ := silent_eq_ok.mp hs
      simp only [invserver, bind_eq_ok, pure, Except.pure, Except.ok.injEq] at hr
      obtain ⟨m, hm, rfl⟩ := hr
      exact .invld hm
  | barr l scope ns => exact barrserver_served hs
  | barrgrant l scope ns =>
      obtain ⟨hr, rfl⟩ := silent_eq_ok.mp hs
      exact .barrgrant hr
  | rel l scope ns => exact relserver_served hs
  | wtnt l ns =>
      obtain ⟨hr, rfl⟩ := silent_eq_ok.mp hs
      simp only [wtntserver, bind_eq_ok, jiaAssert_eq_ok, pure, Except.pure,
        Except.ok.injEq] at hr
      obtain ⟨-, hl, rfl⟩ := hr
      exact .wtnt hl
  | wait =>
      simp only [msgHandle, waitserver, Except.ok.injEq] at hs
      split at hs
      · rename_i hc
        obtain ⟨rfl, rfl⟩ := Prod.mk.inj hs
        exact .waitLast hc
      · rename_i hc
        obtain ⟨rfl, rfl⟩ := Prod.mk.inj hs
        exact .waitCount hc
  | waitgrant =>
      simp only [msgHandle, Except.ok.injEq, Prod.mk.injEq] at hs
      obtain ⟨rfl, rfl⟩ := hs
      exact .waitgrant
  | bcast root level msg =>
      simp only [msgHandle, Except.ok.injEq, Prod.mk.injEq] at hs
      obtain ⟨rfl, rfl⟩ := hs
      exact .bcast

end Served

end Host

/-- A step of the system, by what the host does in it. -/
theorem step_view {cfg : Config} {s s' : State} {e : Event} (h : step cfg s e = .ok s') :
    (∃ i a hst out, e = .main i a ∧ i < cfg.hostc ∧ Host.Main cfg i (s.host i) a hst out ∧
      sent cfg s e = out ∧ s' = s.put i hst out) ∨
    (∃ src dst rnd msg rest hst out, e = .deliver src dst rnd ∧ s.net src dst = msg :: rest ∧
      Host.Served cfg dst (s.host dst) src rnd msg hst out ∧ sent cfg s e = out ∧
      s' = { s with net := Fifo.drop s.net src dst }.put dst hst out) := by
  rcases step_cases h with ⟨i, a, hst, out, he, hi, ha, hs⟩ |
    ⟨src, dst, rnd, msg, rest, hst, out, he, hnet, hm, hs⟩
  · exact Or.inl ⟨i, a, hst, out, he, hi, Host.act_main ha, hs⟩
  · exact Or.inr ⟨src, dst, rnd, msg, rest, hst, out, he, hnet, Host.msgHandle_served hm, hs⟩

/-- A message on its way after a step was on its way before, or its sender has just sent it. -/
theorem mem_net_step {cfg : Config} {s s' : State} {e : Event} {a b : Nat} {msg : Msg}
    (h : step cfg s e = .ok s') (hmem : msg ∈ s'.net a b) :
    msg ∈ s.net a b ∨
    (∃ act hst out, Host.Main cfg a (s.host a) act hst out ∧ (b, msg) ∈ out) ∨
    ∃ src rnd msg₀ rest hst out, s.net src a = msg₀ :: rest ∧
      Host.Served cfg a (s.host a) src rnd msg₀ hst out ∧ (b, msg) ∈ out := by
  rcases step_view h with ⟨i, act, hst, out, -, -, hm, -, rfl⟩ |
    ⟨src, dst, rnd, msg₀, rest, hst, out, -, hnet, hm, -, rfl⟩
  · rw [State.put_net] at hmem
    rcases Fifo.mem_send.mp hmem with hold | ⟨rfl, hout⟩
    · exact .inl hold
    · exact .inr (.inl ⟨act, hst, out, hm, hout⟩)
  · rw [State.put_net] at hmem
    rcases Fifo.mem_send.mp hmem with hold | ⟨rfl, hout⟩
    · exact .inl (Fifo.mem_of_mem_drop hold)
    · exact .inr (.inr ⟨src, rnd, msg₀, rest, hst, out, hnet, hm, hout⟩)

/-- What holds of each host at the start and is kept by both threads holds in
every run. -/
theorem reach_host {cfg : Config} {P : Nat → Host → Prop} (hinit : ∀ i, P i (initHost cfg i))
    (hmain : ∀ i h a h' out, i < cfg.hostc → P i h → Host.Main cfg i h a h' out → P i h')
    (hserved : ∀ i h src rnd msg h' out, P i h → Host.Served cfg i h src rnd msg h' out → P i h')
    {s : State} (hs : (system cfg).Reach s) (i : Nat) : P i (s.host i) := by
  revert i
  refine hs.invariant (I := fun s => ∀ i, P i (s.host i)) hinit ?_
  intro s e s' _ hP hnext j
  rcases step_view hnext with ⟨i, a, hst, out, -, hi, hm, -, rfl⟩ |
    ⟨src, dst, rnd, msg, rest, hst, out, -, -, hm, -, rfl⟩
  · by_cases hj : j = i
    · subst hj
      rw [State.put_host_same]
      exact hmain j _ _ _ _ hi (hP j) hm
    · rw [State.put_host_of_ne _ _ _ hj]
      exact hP j
  · by_cases hj : j = dst
    · subst hj
      rw [State.put_host_same]
      exact hserved j _ _ _ _ _ _ (hP j) hm
    · rw [State.put_host_of_ne _ _ _ hj]
      exact hP j

end Jiajia
