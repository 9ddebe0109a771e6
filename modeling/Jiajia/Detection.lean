import Jiajia.StackNotices

/-!
# Writes between two synchronisations

The home loop of `endinterval` goes over the first `hpages` entries of the home table.
They are all the entries in use unless `migarrangehome` finds the table full: it counts
one entry less then.
-/

namespace Jiajia

open Fifo Transition Host

variable {cfg : Config} {pid : Nat}

namespace MemState

variable {m m' : MemState}

/-- The home entries in use are below `hpages`. -/
def Filled (m : MemState) : Prop := ∀ i < Homepages, (m.home i).addr ≠ 0 → i < m.hpages

/-- The home table has a free entry. -/
def RoomLeft (m : MemState) : Prop := ∃ i < Homepages, (m.home i).addr = 0

theorem Filled.congr (h : m.Filled) (haddr : ∀ i, (m'.home i).addr = (m.home i).addr)
    (hsize : m'.homesize = m.homesize) : m'.Filled := by
  intro i hi hne
  have hpages : m'.hpages = m.hpages := by
    unfold MemState.hpages
    rw [hsize]
  rw [haddr] at hne
  rw [hpages]
  exact h i hi hne

/-- The loop leaves no entry in use beyond the last one it counts, or it found all
entries in use. -/
theorem arrangeLoop_filled {k i : Nat} (ht : m.HomeTables cfg pid) (hk : i + k = Homepages)
    (hused : ∀ j < i, (m.home j).addr ≠ 0) :
    (∀ j < Homepages, ((arrangeLoop cfg k i m).1.home j).addr ≠ 0 →
      j < (arrangeLoop cfg k i m).2 - 1) ∨ ¬ m.RoomLeft := by
  revert ht hused
  refine arrangeLoop_induct (Q := fun i m r => m.HomeTables cfg pid →
    (∀ j < i, (m.home j).addr ≠ 0) →
      (∀ j < Homepages, (r.1.home j).addr ≠ 0 → j < r.2 - 1) ∨ ¬ m.RoomLeft) ?_ ?_ ?_ ?_ hk
  · intro m _ hused
    right
    rintro ⟨j, hj, hfree⟩
    exact hused j hj hfree
  · intro i j m r hij hj hfree hnext ih ht hused
    obtain ⟨hmove, haddr⟩ := moveHome_ok ht (hij.trans hj) hj hfree hnext
    -- the entry that moved away is free now
    have hroom : (m.moveHome cfg i j).RoomLeft := by
      refine ⟨j, hj, ?_⟩
      simp [moveHome]
    left
    exact (ih hmove.home (moveHome_used hij hnext haddr hused)).resolve_right
      fun hno => hno hroom
  · intro i m hi hnone _ _
    left
    intro j hj hne
    by_contra hlt
    exact hne (hnone j (by simp only at hlt; omega) hj)
  · intro i m r _ hi ih ht hused
    exact ih ht (used_succ hi hused)

theorem migarrangehome_filled (ht : m.HomeTables cfg pid) (hroom : m.RoomLeft) :
    (m.migarrangehome cfg).Filled := by
  have hloop := (arrangeLoop_filled (k := Homepages) (i := 0) ht (by omega) (by omega)).resolve_right
    fun hno => hno hroom
  have hpages : (m.migarrangehome cfg).hpages = (arrangeLoop cfg Homepages 0 m).2 - 1 := by
    simp [MemState.hpages, migarrangehome]
  intro i hi hne
  rw [hpages]
  exact hloop i hi hne

end MemState

open MemState

/-! ## The stores of an interval -/

/-- The pages the application has stored to since the interval started. -/
def stores (d : List Nat) : HostEvent → List Nat
  | .main _ (.store p _ _) => p :: d
  | .main _ a => if (Act.starts a).isSome then [] else d
  | .serve _ _ _ _ => d

def storeHistory : System.Observer Host HostEvent (List Nat) where
  start := []
  obs d _ e _ := stores d e

/-- `migarrangehome` does not find the home table full. -/
def NotFull (cfg : Config) (pid : Nat) (h : Host) : HostEvent → Prop
  | .serve b _ _ (.barrgrant l _ ns) => cfg.hMig = true → ∀ m,
      invalidate (cfg.withAdWd b) pid l h.m ns = .ok m → m.RoomLeft
  | _ => True

section Step

variable {h h' : Host} {out : Out}

theorem main_filled {a : Act} (hok : PagesOk cfg pid h) (hst : StackOk h)
    (hfilled : cfg.hMig = false ∨ h.y.barrwait = false → h.m.Filled)
    (hm : Main cfg pid h a h' out) :
    cfg.hMig = false ∨ h'.y.barrwait = false → h'.m.Filled := by
  intro hdown
  have hk := main_kept hok.tables hm
  refine Filled.congr (hfilled ?_) hk.addr hk.homesize
  rcases hdown with hoff | hdown
  · exact Or.inl hoff
  · cases Barrier.main_flag hst hm with
    | quiet hout hflag => exact Or.inr (hflag ▸ hdown)
    | enter hflag => exact Or.inr hflag

theorem served_filled {src : Nat} {rnd : List Nat} {msg : Msg} (hok : PagesOk cfg pid h)
    (hexp : Expected cfg pid src h msg)
    (hroom : ∀ l scope ns, msg = .barrgrant l scope ns → cfg.hMig = true → ∀ m,
      invalidate cfg pid l h.m ns = .ok m → m.RoomLeft)
    (hfilled : cfg.hMig = false ∨ h.y.barrwait = false → h.m.Filled)
    (hs : Served cfg pid h src rnd msg h' out) :
    cfg.hMig = false ∨ h'.y.barrwait = false → h'.m.Filled := by
  have hflag : Barrier.down msg = false → h'.y.barrwait = h.y.barrwait :=
    fun hd => served_barrwait hexp.routed hd hs
  intro hdown
  have hsame : Barrier.down msg = false → (∀ i, (h'.m.home i).addr = (h.m.home i).addr) →
      h'.m.homesize = h.m.homesize → h'.m.Filled := by
    intro hd haddr hsize
    rw [hflag hd] at hdown
    exact (hfilled hdown).congr haddr hsize
  cases served_mem hok.tables hexp.pages hexp.routed hs with
  | still hstill hout hmsg hgetp hd => exact hsame hd hstill.home.addr hstill.home.homesize
  | serve addr temp hmsg hserve =>
      subst hmsg
      exact hsame rfl hserve.flagged.addr hserve.flagged.homesize
  | install addr wv data xs hmsg hout hre hwait =>
      subst hmsg
      exact hsame rfl hre.home.addr hre.home.homesize
  | drop hre hwait hout hmsg hgetp hd => exact hsame hd hre.home.addr hre.home.homesize
  | invld ns hmsg hout hns =>
      subst hmsg
      -- the flag is up until the last message of the barrier
      have hup := hexp.barrier rfl
      have hup' : h'.y.barrwait = true := by
        cases hs
        exact hup
      rcases hdown with hoff | hd
      · have hhome := hns.still hoff
        exact (hfilled (Or.inl hoff)).congr hhome.addr hhome.homesize
      · rw [hup'] at hd
        cases hd
  | barrgrant scope ns hmsg hout hns hcompact =>
      by_cases hmig : cfg.hMig = true
      · subst hmsg
        cases hs with
        | barrgrant hm =>
            obtain ⟨m, hinv, rfl⟩ := barrgrantserver_ok hm
            have ht := (guarded_invalidate hok.tables hexp.pages.1 hinv).2
            simp only [hmig, if_true]
            exact migarrangehome_filled ht.home (hroom _ _ _ rfl hmig m hinv)
      · have hoff : cfg.hMig = false := by simpa using hmig
        have hhome := hns.still hoff
        exact (hfilled (Or.inl hoff)).congr hhome.addr hhome.homesize

/-- What is known of a host in a run whose home table is never full. -/
structure StoresOk (cfg : Config) (pid : Nat) (x : Host × List Nat) : Prop where
  run : RunOk cfg pid x.1
  rw : Running x.1 → WrittenRw cfg x.1.m
  reading : ∀ w, x.1.pc = .fault w → (x.1.m.page w.page).homepid ≠ pid
  filled : cfg.hMig = false ∨ x.1.y.barrwait = false → x.1.m.Filled
  stored : Running x.1 → ∀ p ∈ x.2, p < cfg.npages ∧ Recorded cfg pid x.1.m p
  idle : ¬ Running x.1 → x.2 = []

theorem store_recorded {d : List Nat} (hx : StoresOk cfg pid (h, d)) {p : Nat}
    (hp : p < cfg.npages) (hpc : h.pc = .app) (hprot : h.m.prot p = .readWrite) :
    Recorded cfg pid h.m p := by
  have hmark := hx.run.detects.marked p hp hprot (not_reading (by simp [hpc]))
  constructor
  · intro hhome
    obtain ⟨hlt, ha⟩ := hx.run.pages.tables.home.home p hp hhome
    have hdown := (hx.run.stack.flags_down (by simp [hpc]) (by simp [hpc]) (by simp [hpc])).2.1
    refine ⟨hmark.1 hhome, hx.filled (Or.inr hdown) _ hlt ?_⟩
    rw [ha]
    exact cfg.pageAddr_ne_zero hp
  · intro haway
    exact store_written hx.run (hx.rw (Or.inl hpc)) hp hpc hprot haway

theorem main_stores {a : Act} {b : Bool} {d : List Nat} (hhost : cfg.hostc ≠ 1)
    (hx : StoresOk cfg pid (h, d)) (hm : Main cfg pid h a h' out) :
    (Running h' → ∀ p ∈ stores d (.main b a), p < cfg.npages ∧ Recorded cfg pid h'.m p) ∧
      (¬ Running h' → stores d (.main b a) = []) := by
  have hkeep : Running h → Running h' → Keeps cfg pid h.m h'.m :=
    fun hrun hrun' => main_keeps hx.run.pages.tables hm hrun hrun'
  -- a step that neither stores nor ends the interval
  have hstay : stores d (.main b a) = d → Act.starts a = none →
      (Running h' → ∀ p ∈ stores d (.main b a), p < cfg.npages ∧ Recorded cfg pid h'.m p) ∧
        (¬ Running h' → stores d (.main b a) = []) := by
    intro hd hstarts
    rw [hd]
    constructor
    · intro hrun' p hp
      by_cases hr : Running h
      · obtain ⟨hlt, hrec⟩ := hx.stored hr p hp
        exact ⟨hlt, (hkeep hr hrun').recorded p hlt hrec⟩
      · have hnil : d = [] := hx.idle hr
        rw [hnil] at hp
        cases hp
    · exact fun hno => hx.idle fun hr => hno (main_stays hm hstarts hr)
  cases hm with
  | @store p u v hpc hp hprot =>
      have hrun : Running h := Or.inl hpc
      have hrec := store_recorded hx hp hpc hprot
      refine ⟨?_, fun hno => absurd (Or.inl hpc) hno⟩
      intro hrun' q hq
      rcases List.mem_cons.mp hq with rfl | hq
      · exact ⟨hp, (hkeep hrun hrun').recorded q hp hrec⟩
      · obtain ⟨hlt, hrec⟩ := hx.stored hrun q hq
        exact ⟨hlt, (hkeep hrun hrun').recorded q hlt hrec⟩
  | single hpc hone => exact absurd hone hhost
  | @start a op h' out hpc hne ha hop hm =>
      have hd : stores d (.main b a) = [] := by
        cases a <;> simp [stores, Act.starts] at ha ⊢
      rw [hd]
      refine ⟨?_, fun _ => rfl⟩
      intro _ p hp
      cases hp
  | stay hpc _ hone => exact absurd hone hhost
  | _ => exact hstay rfl rfl

theorem main_reading {a : Act} (ht : h.m.Tables cfg pid) (hm : Main cfg pid h a h' out) :
    ∀ w, h'.pc = .fault w → (h'.m.page w.page).homepid ≠ pid := by
  intro w hw
  cases hm with
  | cacheFault hpc hp hfault hhome hm =>
      cases hw
      have hfo := cacheFault_ok ht.cache hp hm
      rw [hfo.page, hfo.home.homepid]
      exact hhome
  | load hpc => rw [hpc] at hw; cases hw
  | store hpc => rw [hpc] at hw; cases hw
  | homeFault hpc => rw [hpc] at hw; cases hw
  | single hpc => rw [hpc] at hw; cases hw
  | stay hpc => rw [hpc] at hw; cases hw
  | start hpc hhost ha hop hm =>
      obtain ⟨y, dm, -, -, rfl⟩ := endinterval_ok hm
      cases hw
  | arrive hpc hwait hm =>
      obtain ⟨cs, -, -, rfl⟩ := arrive_ok hm
      cases hw
  | leave hpc hm =>
      obtain ⟨m₁, m₂, -, -, rfl⟩ := leaveBarrier_ok hm
      cases hw
  | _ => cases hw

theorem storesOk_withAdWd {b : Bool} {x : Host × List Nat} :
    StoresOk (cfg.withAdWd b) pid x ↔ StoresOk cfg pid x :=
  ⟨fun hx => ⟨runOk_withAdWd.mp hx.run, hx.rw, hx.reading, hx.filled, hx.stored, hx.idle⟩,
    fun hx => ⟨runOk_withAdWd.mpr hx.run, hx.rw, hx.reading, hx.filled, hx.stored, hx.idle⟩⟩

theorem StoresOk.step {e : HostEvent} {d : List Nat} (hhost : cfg.hostc ≠ 1)
    (hx : StoresOk cfg pid (h, d)) (hcomes : Comes cfg pid h e) (hroom : NotFull cfg pid h e)
    (hs : hostStep cfg pid h e = .ok (h', out)) : StoresOk cfg pid (h', stores d e) := by
  have hrun := hx.run.step hcomes hs
  have hrw := step_writtenRw hx.run hcomes hs hx.rw
  rcases hostStep_view hs with ⟨b, a, rfl, hm⟩ | ⟨b, src, rnd, msg, rfl, hm⟩
  · have hx' := (storesOk_withAdWd (b := b)).mpr hx
    obtain ⟨hstored, hidle⟩ := @main_stores (cfg.withAdWd b) pid h h' out a b d hhost hx' hm
    exact ⟨hrun, hrw, main_reading hx'.run.pages.tables hm,
      @main_filled (cfg.withAdWd b) pid h h' out a hx'.run.pages hx'.run.stack hx'.filled hm,
      hstored, hidle⟩
  · have hx' := (storesOk_withAdWd (b := b)).mpr hx
    have hpc := (served_stack hm).1
    have hsame : Running h' ↔ Running h := by
      unfold Running
      rw [hpc]
    refine ⟨hrun, hrw, ?_, ?_, ?_, ?_⟩
    · intro w hw
      have hw' : h.pc = .fault w := hpc.symm.trans hw
      have hin : Running h := Or.inr (Or.inl ⟨w, hw'⟩)
      rw [(step_keeps hx.run hcomes hs hin (hsame.mpr hin)).homepid]
      exact hx.reading w hw'
    · refine @served_filled (cfg.withAdWd b) pid h h' out src rnd msg hx'.run.pages
        (Expected.withAdWd hcomes b) ?_ hx'.filled hm
      rintro l scope ns rfl hmig m hinv
      exact hroom hmig m hinv
    · intro hin p hp
      have hin₀ := hsame.mp hin
      obtain ⟨hlt, hrec⟩ := hx.stored hin₀ p hp
      exact ⟨hlt, (step_keeps hx.run hcomes hs hin₀ hin).recorded p hlt hrec⟩
    · intro hno
      exact hx.idle fun hin => hno (hsame.mpr hin)

theorem reach_stores (hhost : cfg.hostc ≠ 1) {x : Host × List Nat}
    (hx : (((hostSystem cfg pid).restrict (NotFull cfg pid)).withHist storeHistory).Reach x) :
    StoresOk cfg pid x := by
  induction hx with
  | start =>
      refine ⟨runOk_init hhost, ?_, ?_, ?_, ?_, fun _ => rfl⟩
      · intro _ c _ hw
        cases hw
      · intro w hw
        cases hw
      · intro _ i _ hne
        have hpages : (initmem cfg pid).hpages = cfg.layout.count pid := by
          simp [MemState.hpages, initmem]
        change i < (initmem cfg pid).hpages
        rw [hpages]
        by_contra hge
        exact hne (if_neg hge)
      · intro _ p hp
        cases hp
  | @step x x' e _ hnext ih =>
      obtain ⟨⟨hroom, hcomes, out, hs⟩, hd⟩ := hnext
      obtain ⟨h, d⟩ := x
      obtain ⟨h', d'⟩ := x'
      obtain rfl : d' = stores d e := hd
      exact ih.step hhost hcomes hroom hs

/-! ## The next `endinterval` -/

/-- What `endinterval` makes of a page that was stored to: the page of a copy is named on
the stack, and the entry of a home page is among those the home loop goes over, with its
bit set. -/
def Dealt (cfg : Config) (pid : Nat) (h : Host) (op : SynOp) (h' : Host) (p : Nat) : Prop :=
  ((h.m.page p).homepid ≠ pid → h'.y.top.wtntp.Names cfg p) ∧
    ((h.m.page p).homepid = pid → ∃ n, h'.pc = .scan op 0 n ∧ (h'.m.page p).homei < n ∧
      (h'.m.home (h'.m.page p).homei).wtnt &&& 1 = 1)

/-- The detection of writes on host `pid`, which has stored to the pages `d` since the
last synchronisation. -/
structure WritesSeen (cfg : Config) (pid : Nat) (h : Host) (d : List Nat) : Prop where
  home : ∀ q < cfg.npages, (h.m.page q).homepid = pid → h.m.prot q = .readWrite →
    (h.m.home (h.m.page q).homei).wtnt &&& 1 = 1
  bits : ∀ i, (h.m.home i).wtnt &&& 1 = 1 → (h.m.home i).wtnt &&& 2 = 2
  asserts : ∀ i, ((h.m.home i).wtnt &&& 7).toNat ≠ 1 ∧ ((h.m.home i).wtnt &&& 7).toNat ≠ 5
  /-- The page of a read that the handler still waits for is mapped writable. -/
  cached : ∀ q < cfg.npages, (h.m.page q).homepid ≠ pid → h.m.prot q = .readWrite →
    ¬ Reading h q → (h.m.page q).cachei < cfg.cachepages ∧
      (h.m.cache (h.m.page q).cachei).wtnt = true
  ended : ∀ b a op h' out, Act.starts a = some op →
    hostStep cfg pid h (.main b a) = .ok (h', out) → ∀ p ∈ d, Dealt cfg pid h op h' p

theorem seenBits_cases : ∀ w : BitVec 8, SeenBits w → (w &&& 7).toNat ≠ 1 ∧ (w &&& 7).toNat ≠ 5 := by
  unfold SeenBits
  decide

theorem StoresOk.seen {d : List Nat} (hhost : cfg.hostc ≠ 1) (hx : StoresOk cfg pid (h, d)) :
    WritesSeen cfg pid h d where
  home q hq hhome hprot := by
    refine (hx.run.detects.marked q hq hprot ?_).1 hhome
    rintro ⟨w, hw, -, rfl⟩
    exact hx.reading w hw hhome
  bits := hx.run.detects.bits
  asserts i := seenBits_cases _ (hx.run.detects.bits i)
  cached q hq haway hprot hno := (hx.run.detects.marked q hq hprot hno).2 haway
  ended b a op h' out ha hs p hp := by
    have hm := act_main hs
    cases hm with
    | single _ hone => exact absurd hone hhost
    | start hpc hne ha' hop hm =>
        obtain rfl : op = _ := Option.some.inj (ha.symm.trans ha')
        obtain ⟨hlt, hhome, hcache⟩ := hx.stored (Or.inl hpc) p hp
        obtain ⟨y, dm, hsave, -, rfl⟩ := endinterval_ok hm
        constructor
        · intro haway
          obtain ⟨c, hc, hw, -, haddr⟩ := hcache haway
          exact savepages_names hsave (Or.inr ⟨c, List.mem_range.mpr hc, hw, haddr⟩)
        · intro hown
          obtain ⟨hbit, hn⟩ := hhome hown
          exact ⟨_, rfl, hn, hbit⟩
    | _ => cases ha

end Step

/-- As long as `migarrangehome` finds a free home entry, every page that is mapped
writable is marked and no store escapes the next `endinterval`, whatever `AD_WD` is set
to at each step. -/
theorem writes_seen (hhost : 2 ≤ cfg.hostc) {x : Host × List Nat}
    (hx : (((hostSystem cfg pid).restrict (NotFull cfg pid)).withHist storeHistory).Reach x) :
    WritesSeen cfg pid x.1 x.2 :=
  (reach_stores (by omega) hx).seen (by omega)

/-! ## A full home table -/

namespace FullHome

theorem fourSlots : 0 < 4 ∧ 4 < 2 ^ 16 := by decide

/-- Host 0 is the home of all pages but the last one. -/
def shared (n : Nat) (hMig : Bool) (hn : n < Homepages) : Config :=
  Config.twoHosts 4 n 1 hMig fourSlots ⟨hn, by decide⟩

variable (cfg : Config)

/-- The address of the last page, which is on host 1. -/
def lastAddr : Addr := cfg.pageAddr (cfg.npages - 1)

/-- The notice that moves the home of the last page to host 0. -/
def toZero : GrantNotice := ⟨lastAddr cfg, 0, (lastAddr cfg).setWidth 32⟩

/-- The messages of the runs below, when they are expected. -/
def timely (h : Host) : HostEvent → Bool
  | .main _ _ => true
  | .serve _ _ _ .diffgrant => true
  | .serve _ _ _ (.getpgrant a _ _ xs) => a == lastAddr cfg && xs.isEmpty
  | .serve _ _ _ (.barr l _ ns) =>
      l == hidelock && hidelock % cfg.hostc == 0 && ns.all fun n => n.addr == lastAddr cfg
  | .serve _ _ _ (.barrgrant l _ ns) =>
      l == hidelock && decide (ns = [toZero cfg]) && decide (h.pc = .barrwait) && h.y.barrwait
  | _ => false

variable {cfg}

theorem comes_of_timely (hpos : 0 < cfg.npages) {h : Host} {e : HostEvent}
    (he : timely cfg h e = true) : Comes cfg 0 h e := by
  have hlast : cfg.IsPage (lastAddr cfg) := ⟨_, by omega, rfl⟩
  cases e with
  | main b a => trivial
  | serve b src rnd msg =>
      cases msg with
      | diffgrant =>
          exact ⟨trivial, trivial, by simp [Barrier.down],
            Or.inr (by simp [Msg.invalidates, Msg.grantNotices])⟩
      | barr l scope ns =>
          simp only [timely, Bool.and_eq_true, beq_iff_eq, List.all_eq_true] at he
          obtain ⟨⟨rfl, hmaster⟩, hns⟩ := he
          have hpages : ∀ n ∈ ns, cfg.IsPage n.addr := by
            intro n hn
            rw [hns n hn]
            exact hlast
          exact ⟨hpages, ⟨rfl, hmaster.symm⟩, by simp [Barrier.down],
            Or.inr (by simp [Msg.invalidates, Msg.grantNotices])⟩
      | getpgrant a wv data xs =>
          simp only [timely, Bool.and_eq_true, beq_iff_eq] at he
          obtain ⟨rfl, hxs⟩ := he
          rw [List.isEmpty_iff] at hxs
          subst hxs
          exact ⟨⟨hlast, by simp⟩, trivial, by simp [Barrier.down],
            Or.inr (by simp [Msg.invalidates, Msg.grantNotices])⟩
      | barrgrant l scope ns =>
          simp only [timely, Bool.and_eq_true, beq_iff_eq, decide_eq_true_eq] at he
          obtain ⟨⟨⟨rfl, rfl⟩, hpc⟩, hup⟩ := he
          exact ⟨⟨by simpa [toZero] using hlast, by simp⟩, rfl, fun _ => hup, Or.inl (Or.inr hpc)⟩
      | _ => cases he

/-- One step of a run. -/
def turn (cfg : Config) (x : Host × List Nat) (e : HostEvent) : Result (Host × List Nat) := do
  await (timely cfg x.1 e = true)
  let (h, _) ← hostStep cfg 0 x.1 e
  return (h, stores x.2 e)

theorem turn_next (hpos : 0 < cfg.npages) {x x' : Host × List Nat} {e : HostEvent}
    (h : turn cfg x e = .ok x') : ((hostSystem cfg 0).withHist storeHistory).next x e x' := by
  simp only [turn, bind_eq_ok, await_eq_ok, Prod.exists, pure, Except.pure, Except.ok.injEq] at h
  obtain ⟨-, he, h', out, hs, rfl⟩ := h
  exact ⟨⟨comes_of_timely hpos he, out, hs⟩, rfl⟩

/-- Read the last page of another host. -/
def readLast (cfg : Config) : List HostEvent :=
  [.main false (.fault (cfg.npages - 1) false 0),
    .serve false 1 [] (.getpgrant (lastAddr cfg) WVFULL zeroPage []),
    .main false .go]

/-- Write the last page, whose copy is there. -/
def writeLast (cfg : Config) (b : Bool) : List HostEvent :=
  [.main b (.fault (cfg.npages - 1) true 0), .main b .go,
    .main b (.store (cfg.npages - 1) Config.unit0 7)]

/-- The home loop goes over entries that were not written. -/
theorem reach_scan {x : Host × List Nat} {op : SynOp} {i n : Nat}
    (hx : ((hostSystem cfg pid).withHist storeHistory).Reach x) (hpc : x.1.pc = .scan op i n)
    (hclean : ∀ j < n, ¬ ((x.1.m.home j).wtnt &&& 1 ≠ 0)) :
    ((hostSystem cfg pid).withHist storeHistory).Reach ({ x.1 with pc := .drain op }, x.2) := by
  induction hk : n - i generalizing x i with
  | zero =>
      refine hx.step (e := .main false .go) ⟨⟨trivial, [], ?_⟩, rfl⟩
      have hle : ¬ i < n := by omega
      simp [hostStep, act, go, hpc, hle, pure, Except.pure]
  | succ k ih =>
      have hlt : i < n := by omega
      have hnext : ((hostSystem cfg pid).withHist storeHistory).Reach
          ({ x.1 with pc := .scan op (i + 1) n }, x.2) := by
        refine hx.step (e := .main false .go) ⟨⟨trivial, [], ?_⟩, rfl⟩
        simp only [hostStep, act, go, hpc, if_pos hlt, scanHome, if_neg (hclean i hlt)]
        rfl
      exact ih (x := ({ x.1 with pc := .scan op (i + 1) n }, x.2)) (i := i + 1) hnext rfl hclean
        (by omega)

end FullHome

open FullHome in
theorem writes_seen_both : ∃ x : Host × List Nat,
    (((hostSystem (shared 1 false (by decide)) 0).restrict
      (NotFull (shared 1 false (by decide)) 0)).withHist storeHistory).Reach x ∧
      x.1.pc = .app ∧ x.2 = [1, 0] ∧ WritesSeen (shared 1 false (by decide)) 0 x.1 x.2 := by
  have hnext : ∀ x e x', turn (shared 1 false (by decide)) x e = .ok x' →
      (((hostSystem (shared 1 false (by decide)) 0).restrict
        (NotFull (shared 1 false (by decide)) 0)).withHist storeHistory).next x e x' := by
    intro x e x' hturn
    obtain ⟨hstep, hobs⟩ := turn_next (by decide) hturn
    refine ⟨⟨?_, hstep⟩, hobs⟩
    unfold NotFull
    split
    · intro hmig
      cases hmig
    · trivial
  obtain ⟨x, hx, hcheck⟩ := System.exists_execBy hnext
    ([.main false (.fault 0 true 0), .main false (.store 0 Config.unit0 7)] ++
      readLast (shared 1 false (by decide)) ++ writeLast (shared 1 false (by decide)) true)
    (fun x => decide (x.1.pc = .app) && (x.2 == [1, 0])) (by decide +kernel)
  rw [Bool.and_eq_true, decide_eq_true_eq, beq_iff_eq] at hcheck
  exact ⟨x, hx, hcheck.1, hcheck.2, writes_seen (by decide) hx⟩

/-! ## Operations with nothing to do -/

section Idle

variable {m : MemState}

theorem startCache_idle (h : ∀ c < cfg.cachepages, (m.cache c).wtnt = false) :
    startCache cfg m = .ok m := by
  have hno : ∀ c, ¬ (c < cfg.cachepages ∧ (m.cache c).wtnt = true) := by
    rintro c ⟨hc, hw⟩
    rw [h c hc] at hw
    cases hw
  have hassert : ∀ c < cfg.cachepages, (m.cache c).wtnt →
      m.prot (cfg.pagei (m.cache c).addr) ≠ .unmapped := fun c hc hw => absurd ⟨hc, hw⟩ (hno c)
  have hprot : ∀ p, ¬ ∃ c < cfg.cachepages, (m.cache c).wtnt ∧ cfg.pagei (m.cache c).addr = p := by
    rintro p ⟨c, hc, hw, -⟩
    exact hno c ⟨hc, hw⟩
  unfold startCache
  rw [jiaAssert, if_pos hassert]
  simp only [hno, hprot, if_false]
  rfl

theorem startHome_idle (h : ∀ i < m.hpages, (m.home i).wtnt &&& 1 = 0) :
    startHome cfg m = .ok m := by
  have hno : ∀ i, ¬ (i < m.hpages ∧ (m.home i).wtnt &&& 1 ≠ 0) := fun i hi => hi.2 (h i hi.1)
  have hassert : ∀ i < m.hpages, (m.home i).wtnt &&& 1 ≠ 0 →
      m.prot (cfg.pagei (m.home i).addr) ≠ .unmapped := fun i hi hw => absurd ⟨hi, hw⟩ (hno i)
  have hprot : ∀ p, ¬ ∃ i < m.hpages, (m.home i).wtnt &&& 1 ≠ 0 ∧
      cfg.pagei (m.home i).addr = p := by
    rintro p ⟨i, hi, hw, -⟩
    exact hno i ⟨hi, hw⟩
  unfold startHome
  rw [jiaAssert, if_pos hassert]
  simp only [hno, hprot, if_false]
  rfl

theorem savepages_idle {y : SynState} {dm : Nat → List PageDiff} {cs : List Nat}
    (h : ∀ c ∈ cs, (m.cache c).wtnt = false) : savepages cfg pid m y dm cs = .ok (y, dm) := by
  induction cs with
  | nil => rfl
  | cons c cs ih =>
      have hc := h c List.mem_cons_self
      rw [savepages, hc]
      exact ih fun x hx => h x (List.mem_cons_of_mem _ hx)

/-- On a full table the loop runs to its end. -/
theorem arrangeLoop_full (h : ∀ j < Homepages, (m.home j).addr ≠ 0) :
    arrangeLoop cfg Homepages 0 m = (m, Homepages) := by
  revert h
  refine arrangeLoop_induct (Q := fun _ m r =>
    (∀ j < Homepages, (m.home j).addr ≠ 0) → r = (m, Homepages)) ?_ ?_ ?_ ?_ (Nat.zero_add _)
  · exact fun _ _ => rfl
  · intro i j m r hij hj hfree _ _ h
    exact absurd hfree (h i (by omega))
  · intro i m hi hnone h
    exact absurd (hnone i (le_refl i) hi) (h i hi)
  · exact fun _ _ _ _ _ ih h => ih h

end Idle

namespace FullHome

/-- Host 0 is the home of all pages but one, and migrates homes. -/
def nearlyAll : Config := shared 16383 true (by decide)

/-- Up to the home loop of the barrier. -/
def arriving : List HostEvent :=
  readLast nearlyAll ++ writeLast nearlyAll false ++ [.main false .barrier]

/-- The host after the home loop. -/
def scanned (x : Host × List Nat) : Host × List Nat := ({ x.1 with pc := .drain .barr }, x.2)

/-- Host 0 is the master of the barrier: it answers once both hosts have arrived. -/
def meeting : List HostEvent :=
  [.serve false 1 [] .diffgrant, .main false .go,
    .serve false 0 [] (.barr hidelock 0xffffffff [⟨lastAddr nearlyAll, 1⟩]),
    .serve false 1 [] (.barr hidelock 0xffffffff [])]

/-- The answer of the barrier. -/
def answer : Msg := .barrgrant hidelock 1 [toZero nearlyAll]

/-- The host waits in the barrier with a written copy of the last page in slot 0. -/
def waiting (x : Host × List Nat) : Bool :=
  decide (x.1.pc = .barrwait) && x.1.y.barrwait && x.2.isEmpty &&
    decide (x.1.y.top.lockid = hidelock) && x.1.y.below.isEmpty &&
    decide ((x.1.m.page 16383).homepid = 1) && decide ((x.1.m.page 16383).cachei = 0) &&
    decide ((x.1.m.cache 0).addr = nearlyAll.pageAddr 16383) &&
    ((List.range 4).all fun c => c == 0 || !(x.1.m.cache c).wtnt) &&
    decide (x.1.m.prot 16383 = .readWrite) && decide ((x.1.m.home 16383).addr = 0) &&
    ((List.range 16383).all fun j =>
      decide ((x.1.m.home j).addr ≠ 0) && decide ((x.1.m.home j).wtnt &&& 1 = 0))

/-- All entries but the last are in use and not written. -/
theorem homes_used : ((List.range 16383).all fun j =>
    decide (((initmem nearlyAll 0).home j).addr ≠ 0) &&
      decide (((initmem nearlyAll 0).home j).wtnt &&& 1 = 0)) = true := by
  rw [List.all_eq_true]
  intro j hj
  have hcount : j < nearlyAll.layout.count 0 := List.mem_range.mp hj
  have hpage := (nearlyAll.layout.pageAt_spec 0 j hcount).1
  have haddr : ((initmem nearlyAll 0).home j).addr ≠ 0 := by
    simp only [initmem, if_pos hcount]
    exact nearlyAll.pageAddr_ne_zero hpage
  have hwtnt : ((initmem nearlyAll 0).home j).wtnt &&& 1 = 0 := by simp [initmem]
  rw [Bool.and_eq_true, decide_eq_true_eq, decide_eq_true_eq]
  exact ⟨haddr, hwtnt⟩

set_option maxRecDepth 100000 in
/-- No step of the run touches a home entry, so they are those of `initmem`. -/
theorem run_waits : ∃ x, System.execBy (turn nearlyAll) arriving
      ((hostSystem nearlyAll 0).withHist storeHistory).start = .ok x ∧
    x.1.pc = .scan .barr 0 16383 ∧ (∀ j, (x.1.m.home j).wtnt = 0) ∧
      ∃ y, System.execBy (turn nearlyAll) meeting (scanned x) = .ok y ∧ waiting y = true := by
  refine ⟨_, rfl, rfl, fun _ => rfl, _, rfl, ?_⟩
  unfold waiting
  rw [Bool.and_eq_true]
  exact ⟨rfl, homes_used⟩

theorem npages_nearlyAll : nearlyAll.npages = 16384 := by decide +kernel

/-- The copy of the last page in slot 0 becomes the last home entry. -/
theorem migNewHome_last {m : MemState} (hslot : (m.page 16383).cachei = 0)
    (haddr : (m.cache 0).addr = nearlyAll.pageAddr 16383) (hlast : (m.home 16383).addr = 0)
    (hfull : ∀ j < 16383, (m.home j).addr ≠ 0) :
    ∃ m', m.migNewHome nearlyAll (nearlyAll.pageAddr 16383) = .ok m' ∧
      (m'.page 16383).homei = 16383 ∧ m'.prot = m.prot ∧
      (∀ i, (m'.home i).addr = if i = 16383 then nearlyAll.pageAddr 16383 else (m.home i).addr) ∧
      (∀ i < 16383, (m'.home i).wtnt = (m.home i).wtnt) ∧
      (∀ c, c = 0 ∨ (m.cache c).wtnt = false → (m'.cache c).wtnt = false) := by
  have hp : 16383 < nearlyAll.npages := by
    rw [npages_nearlyAll]
    omega
  have hpi := nearlyAll.pagei_pageAddr hp
  have hfree : firstIdx (fun i => (m.home i).addr == 0) Homepages 0 < Homepages := by
    by_contra hge
    have hno := firstIdx_before (P := fun i => (m.home i).addr == 0) (k := Homepages) (i := 0)
      (j := 16383) (by omega) (lt_of_lt_of_le (by decide) (not_lt.mp hge))
    simp [hlast] at hno
  have hok : ∃ m', m.migNewHome nearlyAll (nearlyAll.pageAddr 16383) = .ok m' := by
    have hc : 0 < nearlyAll.cachepages := by decide
    simp only [MemState.migNewHome, hpi, hslot, haddr, jiaAssert, hc, and_self, hfree, if_true]
    exact ⟨_, rfl⟩
  obtain ⟨m', hm⟩ := hok
  obtain ⟨idx, hidx, hzero, -, hpage, ha, -, hcache, -, -⟩ := migNewHome_fields hp hm
  obtain ⟨hprot, hwtnt⟩ := migNewHome_bits hp hm
  have hidx' : idx = 16383 := by
    by_contra hne
    have hlt : idx < Homepages := hidx
    exact hfull idx (by unfold Homepages at hlt; omega) hzero
  subst hidx'
  have hhomei : (m'.page 16383).homei = 16383 := by rw [hpage, if_pos rfl]
  refine ⟨m', hm, hhomei, hprot, ha, ?_, ?_⟩
  · intro i hi
    rw [hwtnt, hhomei, if_neg (by omega)]
  · intro c hc
    rw [hcache, hslot]
    split
    · rfl
    · exact hc.resolve_left (by assumption)

/-- The home of the last page is here, in an entry that no home loop goes over. -/
structure Unseen (m : MemState) : Prop where
  homepid : (m.page 16383).homepid = 0
  homei : (m.page 16383).homei = 16383
  hpages : m.hpages = 16383
  prot : m.prot 16383 = .readWrite
  copies : ∀ c < 4, (m.cache c).wtnt = false
  owned : ∀ i < 16383, (m.home i).wtnt &&& 1 = 0

/-- The grant that moves the home of the last page to a host with one free entry. -/
theorem invalidate_last {m : MemState} (haway : (m.page 16383).homepid = 1)
    (hslot : (m.page 16383).cachei = 0) (haddr : (m.cache 0).addr = nearlyAll.pageAddr 16383)
    (hprot : m.prot 16383 = .readWrite) (hcopies : ∀ c < 4, c = 0 ∨ (m.cache c).wtnt = false)
    (hlast : (m.home 16383).addr = 0)
    (hfull : ∀ j < 16383, (m.home j).addr ≠ 0 ∧ (m.home j).wtnt &&& 1 = 0) :
    ∃ m', invalidate nearlyAll 0 hidelock m [toZero nearlyAll] = .ok m' ∧
      Unseen (m'.migarrangehome nearlyAll) := by
  obtain ⟨m₁, hm₁, hhomei, hprot₁, haddr₁, hwtnt, hcopies₁⟩ :=
    migNewHome_last hslot haddr hlast fun j hj => (hfull j hj).1
  have hp : 16383 < nearlyAll.npages := by
    rw [npages_nearlyAll]
    omega
  have hpi := nearlyAll.pagei_pageAddr hp
  have hlastAddr : lastAddr nearlyAll = nearlyAll.pageAddr 16383 := by
    rw [lastAddr, npages_nearlyAll]
  obtain ⟨tag, htag, hto⟩ : ∃ tag : BitVec 32, tag ≠ 0#32 ∧
      toZero nearlyAll = ⟨nearlyAll.pageAddr 16383, 0, tag⟩ := by
    refine ⟨(nearlyAll.pageAddr 16383).setWidth 32, by decide, ?_⟩
    rw [toZero, hlastAddr]
  have hhost : m.homehost nearlyAll (nearlyAll.pageAddr 16383) = 1 := by
    rw [homehost, hpi, haway]
  have hmig : nearlyAll.hMig = true := rfl
  have had : nearlyAll.adWd = false := rfl
  refine ⟨m₁.setPage 16383 { m₁.page 16383 with homepid := 0 }, ?_, ?_⟩
  · have hcopy : invalidateCopy nearlyAll 0 m (toZero nearlyAll) = .ok m := by
      rw [hto]
      simp [invalidateCopy, pure, Except.pure]
    have hmove : migrateNotice nearlyAll 0 hidelock m (toZero nearlyAll) =
        .ok (m₁.setPage 16383 { m₁.page 16383 with homepid := 0 }) := by
      rw [hto]
      simp [migrateNotice, hmig, migpage, migRole, hhost, hm₁, hpi, htag, Maxhosts, bind,
        Except.bind, pure, Except.pure]
    simp only [invalidate, invalidateNotice, hcopy, hmove, markRemote, had, bind, Except.bind,
      Bool.false_eq_true, false_and, if_false]
  · generalize hm₂ : m₁.setPage 16383 { m₁.page 16383 with homepid := 0 } = m₂
    have hhome : m₂.home = m₁.home := by rw [← hm₂, setPage_home]
    have htable : ∀ j < Homepages, (m₂.home j).addr ≠ 0 := by
      intro j hj
      rw [show Homepages = 16384 from rfl] at hj
      rw [hhome, haddr₁]
      split
      · exact nearlyAll.pageAddr_ne_zero hp
      · exact (hfull j (by omega)).1
    -- the loop ends at `Homepages`, which leaves out the last entry
    have harr : m₂.migarrangehome nearlyAll = { m₂ with homesize := 16383 * Pagesize } := by
      unfold migarrangehome
      rw [arrangeLoop_full htable]
      rfl
    rw [harr]
    subst hm₂
    refine ⟨?_, ?_, ?_, ?_, ?_, ?_⟩
    · simp
    · simpa using hhomei
    · simp [MemState.hpages]
    · exact (congrFun hprot₁ 16383).trans hprot
    · intro c hc
      exact hcopies₁ c (hcopies c hc)
    · intro i hi
      change (m₁.home i).wtnt &&& 1 = 0
      rw [hwtnt i hi]
      exact (hfull i hi).2

/-- A host that leaves the barrier with the last page, whose stack holds no lock. -/
structure Leaving (h : Host) : Prop where
  pc : h.pc = .barrwait
  down : h.y.barrwait = false
  top : h.y.top.lockid = hidelock
  below : h.y.below = []
  unseen : Unseen h.m

/-- The memory after the store to the last page. -/
def stored (m : MemState) : MemState :=
  m.setMem 16383 fun u => if u = Config.unit0 then 7 else m.mem 16383 u

theorem go_leaving {h : Host} (hl : Leaving h) :
    hostStep nearlyAll 0 h (.main false .go) = .ok ({ h with pc := .app }, []) := by
  have hvec : (nearlyAll.withAdWd false).wVec = false := rfl
  have hcache : startCache (nearlyAll.withAdWd false) h.m = .ok h.m :=
    startCache_idle hl.unseen.copies
  have hhome : startHomes (nearlyAll.withAdWd false) true h.m = .ok h.m := by
    refine startHome_idle ?_
    intro i hi
    exact hl.unseen.owned i (hl.unseen.hpages ▸ hi)
  simp [hostStep, act, go, hl.pc, hl.down, hvec, leaveBarrier, startinterval, hcache, hhome,
    silent, await, bind, Except.bind, pure, Except.pure]

/-- The last page is still mapped writable, so the store raises no fault. -/
theorem store_unseen {h : Host} (hpc : h.pc = .app) (hm : Unseen h.m) :
    hostStep nearlyAll 0 h (.main false (.store 16383 Config.unit0 7)) =
      .ok ({ h with m := stored h.m }, []) := by
  have hn : (nearlyAll.withAdWd false).npages = 16384 := npages_nearlyAll
  simp [hostStep, act, inApp, store, stored, hpc, hn, hm.prot, await, bind, Except.bind, pure,
    Except.pure]

theorem lock_unseen {h : Host} (hpc : h.pc = .app) (htop : h.y.top.lockid = hidelock)
    (hbelow : h.y.below = []) (hm : Unseen h.m) :
    ∃ h', hostStep nearlyAll 0 { h with m := stored h.m } (.main false (.lock 0)) = .ok (h', []) ∧
      h'.pc = .scan (.acq 0) 0 16383 ∧ h'.m.page = h.m.page := by
  have hhost : (nearlyAll.withAdWd false).hostc ≠ 1 := by decide
  have hsave : savepages (nearlyAll.withAdWd false) 0 (stored h.m) h.y (fun _ => [])
      (List.range (nearlyAll.withAdWd false).cachepages) = .ok (h.y, fun _ => []) := by
    refine savepages_idle ?_
    intro c hc
    exact hm.copies c (List.mem_range.mp hc)
  have hpages : (stored h.m).hpages = 16383 := hm.hpages
  have hdiffs : senddiffs (nearlyAll.withAdWd false) (fun _ => []) = [] := by
    simp [senddiffs]
  have hlocks : ∀ e ∈ h.y.top :: h.y.below, e.lockid ≠ 0 := by
    rw [hbelow]
    intro e he
    rw [List.mem_singleton.mp he, htop]
    decide
  refine ⟨⟨stored h.m, h.y, .scan (.acq 0) 0 (stored h.m).hpages⟩, ?_, ?_, rfl⟩
  · simp only [hostStep, act, inApp, hpc, jiaLock, if_neg hhost, endinterval, hsave, hdiffs,
      await, jiaAssert, bind, Except.bind, pure, Except.pure, if_pos hlocks, if_true,
      show 0 < Maxlocks by decide, List.length_nil]
    rfl
  · rw [hpages]

/-- The host that has left the barrier stores to the last page, and the home loop of its
next `endinterval` does not come to the entry. -/
theorem leaving_escapes {h : Host}
    (hreach : ((hostSystem nearlyAll 0).withHist storeHistory).Reach (h, []))
    (hl : Leaving h) : ∃ x, ((hostSystem nearlyAll 0).withHist storeHistory).Reach x ∧
      ¬ WritesSeen nearlyAll 0 x.1 x.2 := by
  have hstore := store_unseen (h := { h with pc := .app }) rfl hl.unseen
  obtain ⟨h', hlock, hpc, hpage⟩ :=
    lock_unseen (h := { h with pc := .app }) rfl hl.top hl.below hl.unseen
  have hleft : ((hostSystem nearlyAll 0).withHist storeHistory).Reach ({ h with pc := .app }, []) :=
    hreach.step (e := .main false .go) ⟨⟨trivial, _, go_leaving hl⟩, rfl⟩
  have hstored : ((hostSystem nearlyAll 0).withHist storeHistory).Reach
      ({ h with m := stored h.m, pc := .app }, [16383]) :=
    hleft.step (e := .main false (.store 16383 Config.unit0 7)) ⟨⟨trivial, _, hstore⟩, rfl⟩
  refine ⟨_, hstored, ?_⟩
  intro hseen
  obtain ⟨n, hn, hlt, -⟩ := (hseen.ended false (.lock 0) (.acq 0) h' [] rfl hlock 16383
    List.mem_cons_self).2 hl.unseen.homepid
  rw [hpc] at hn
  cases hn
  have hhomei : (h'.m.page 16383).homei = 16383 := by
    rw [hpage]
    exact hl.unseen.homei
  omega

theorem serve_answer {h : Host} {d : List Nat} (hw : waiting (h, d) = true) :
    d = [] ∧ Comes nearlyAll 0 h (.serve false 0 [] answer) ∧
      ∃ h', hostStep nearlyAll 0 h (.serve false 0 [] answer) = .ok (h', []) ∧ Leaving h' := by
  have hpos : 0 < nearlyAll.npages := by
    rw [npages_nearlyAll]
    omega
  simp only [waiting, Bool.and_eq_true, Bool.or_eq_true, decide_eq_true_eq, beq_iff_eq,
    List.all_eq_true, List.mem_range, List.isEmpty_iff, Bool.not_eq_true'] at hw
  obtain ⟨⟨⟨⟨⟨⟨⟨⟨⟨⟨⟨hbarr, hup⟩, hd⟩, htop⟩, hbelow⟩, haway⟩, hslot⟩, haddr⟩, hcopies⟩,
    hprot⟩, hlast⟩, hfull⟩ := hw
  obtain ⟨m', hinv, hunseen⟩ := invalidate_last haway hslot haddr hprot hcopies hlast hfull
  have htimely : timely nearlyAll h (.serve false 0 [] answer) = true := by
    simp [timely, answer, hbarr, hup]
  refine ⟨hd, comes_of_timely hpos htimely, ?_⟩
  let y := h.y.endBarrier (nearlyAll.withAdWd false) 0
  let y' := { y.setLock hidelock { y.locks hidelock with myscope := 1 } with
    barrwait := false, noclearlocks := false }
  refine ⟨{ h with m := m'.migarrangehome nearlyAll, y := y' }, ?_, hbarr, rfl, ?_, ?_, hunseen⟩
  · have hinv' : invalidate (nearlyAll.withAdWd false) 0 hidelock h.m [toZero nearlyAll] =
        .ok m' := hinv
    have hmig : (nearlyAll.withAdWd false).hMig = true := rfl
    simp only [answer, hostStep, msgHandle, barrgrantserver, hinv', hmig, silent, bind,
      Except.bind, pure, Except.pure, if_true]
    rfl
  · change (h.y.endBarrier (nearlyAll.withAdWd false) 0).top.lockid = hidelock
    rw [h.y.endBarrier_eq]
    exact htop
  · change (h.y.endBarrier (nearlyAll.withAdWd false) 0).below = []
    rw [h.y.endBarrier_eq]
    exact hbelow

end FullHome

open FullHome in
/-- With the home table full, a store to the page of its last entry escapes. -/
theorem full_table_escapes : ¬ ∀ x : Host × List Nat,
    ((hostSystem nearlyAll 0).withHist storeHistory).Reach x → WritesSeen nearlyAll 0 x.1 x.2 := by
  intro hall
  have hpos : 0 < nearlyAll.npages := by
    rw [npages_nearlyAll]
    omega
  obtain ⟨x, hx, hpc, hclean, ⟨h, d⟩, hy, hwaiting⟩ := run_waits
  have hreach := System.Reach.start.execBy (fun _ _ _ => turn_next hpos) hx
  have hscanned := reach_scan hreach hpc fun j _ hwritten => hwritten (by rw [hclean j]; rfl)
  have hwait := hscanned.execBy (fun _ _ _ => turn_next hpos) hy
  obtain ⟨rfl, hcomes, h', hgrant, hl⟩ := serve_answer hwaiting
  have hgranted : ((hostSystem nearlyAll 0).withHist storeHistory).Reach (h', []) :=
    hwait.step (e := .serve false 0 [] answer) ⟨⟨hcomes, _, hgrant⟩, rfl⟩
  obtain ⟨x, hx, hno⟩ := leaving_escapes hgranted hl
  exact hno (hall x hx)

end Jiajia
