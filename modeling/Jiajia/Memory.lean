import Jiajia.Msg
import Mathlib.Tactic.Simps.Basic

/-!
# Shared memory on one host

The page table, the cache and home tables and the mapped memory of a host, the
fault handler and the servers of `memserver.c`.  Pages are indexed as in
`page[]`.
-/

namespace Jiajia

/-- `jiacache_t` -/
structure CacheEntry where
  state : PageState
  addr : Addr
  twin : Option Page
  wtnt : Bool

/-- `jiahome_t` -/
structure HomeEntry where
  wtnt : BitVec 8
  rdnt : Bool
  addr : Addr
  wtvect : Nat → BitVec Wvbits
  twin : Option Page
  wvfull : Bool

/-- `jiapage_t` -/
structure PageEntry where
  cachei : Nat
  homei : Nat
  homepid : Nat
deriving DecidableEq, Repr

/-- The memory side of a host. -/
structure MemState where
  page : Nat → PageEntry
  cache : Nat → CacheEntry
  home : Nat → HomeEntry
  homesize : Nat
  mem : Nat → Page
  prot : Nat → Prot
  getpwait : Bool
  diffwait : Nat

abbrev WVFULL : BitVec Wvbits := BitVec.allOnes Wvbits

/-- The memory side of host `pid` after allocation. -/
def initmem (cfg : Config) (pid : Nat) : MemState where
  page p :=
    { cachei := cfg.cachepages
      homei := if p < cfg.npages ∧ cfg.layout.owner p = pid then cfg.layout.homei p else Homepages
      homepid := if p < cfg.npages then cfg.layout.owner p else Maxhosts }
  cache _ := ⟨.unmap, 0, none, false⟩
  home i :=
    { wtnt := 0
      rdnt := false
      addr := if i < cfg.layout.count pid then cfg.pageAddr (cfg.layout.pageAt pid i) else 0
      wtvect := fun _ => WVFULL
      twin := none
      wvfull := cfg.wVec }
  homesize := cfg.layout.count pid * Pagesize
  mem _ := zeroPage
  prot p :=
    if p < cfg.npages ∧ cfg.layout.owner p = pid then
      if cfg.hostc = 1 then .readWrite else .read
    else .unmapped
  getpwait := false
  diffwait := 0

namespace MemState

variable (cfg : Config) (m : MemState)

/-! ## Table lookups -/

def homehost (a : Addr) : Nat := (m.page (cfg.pagei a)).homepid

def homepage (a : Addr) : Nat := (m.page (cfg.pagei a)).homei

def cachepage (a : Addr) : Nat := (m.page (cfg.pagei a)).cachei

/-- `hosts[jia_pid].homesize / Pagesize` -/
def hpages : Nat := m.homesize / Pagesize

/-- `home[i].wtnt`; the index may be one past the end of the table. -/
def homeWtnt (i : Nat) : BitVec 8 := if i < Homepages then (m.home i).wtnt else cfg.pastHome

/-- `cache[i].state`; the index may be one past the end of the table. -/
def cacheState (i : Nat) : PageState :=
  if i < cfg.cachepages then (m.cache i).state else cfg.pastCache

@[simps -fullyApplied] def setCache (i : Nat) (c : CacheEntry) : MemState := { m with cache := upd m.cache i c }

@[simps -fullyApplied] def setHome (i : Nat) (e : HomeEntry) : MemState := { m with home := upd m.home i e }

@[simps -fullyApplied] def setPage (p : Nat) (e : PageEntry) : MemState := { m with page := upd m.page p e }

@[simps -fullyApplied] def setProt (p : Nat) (pr : Prot) : MemState := { m with prot := upd m.prot p pr }

@[simps -fullyApplied] def setMem (p : Nat) (pg : Page) : MemState := { m with mem := upd m.mem p pg }

/-! ## Mappings -/

def memprotect (p : Nat) (pr : Prot) : Result MemState := do
  jiaAssert (m.prot p ≠ .unmapped) "mprotect failed!"
  return m.setProt p pr

variable {m} in
theorem memprotect_eq_ok {m' : MemState} {p : Nat} {pr : Prot} :
    m.memprotect p pr = .ok m' ↔ m.prot p ≠ .unmapped ∧ m' = m.setProt p pr := by
  simp only [memprotect, bind_eq_ok, jiaAssert_eq_ok, pure, Except.pure, Except.ok.injEq]
  constructor
  · rintro ⟨-, hp, rfl⟩
    exact ⟨hp, rfl⟩
  · rintro ⟨hp, rfl⟩
    exact ⟨(), hp, rfl⟩

/-- A fresh mapping of `/dev/zero`. -/
def memmap (p : Nat) (pr : Prot) : MemState := (m.setProt p pr).setMem p zeroPage

def memunmap (p : Nat) : MemState := m.setProt p .unmapped

/-- A page the host may copy from without a fault. -/
def Readable (p : Nat) : Prop := m.prot p = .read ∨ m.prot p = .readWrite

instance (p : Nat) : Decidable (m.Readable p) := inferInstanceAs (Decidable (_ ∨ _))

/-! ## The page cache -/

def flushpage (cachei : Nat) : MemState :=
  let c := m.cache cachei
  let p := cfg.pagei c.addr
  ((m.memunmap p).setPage p { m.page p with cachei := cfg.cachepages }).setCache cachei
    { c with state := .unmap, wtnt := false, addr := 0 }

/-- The search of `findposition`: `k` slots left to look at, from `seti` on. -/
def findLoop : Nat → Nat → Option Nat → Nat × Option Nat
  | 0, seti, invi => (seti, invi)
  | k + 1, seti, invi =>
      if (m.cache seti).state = .unmap then (seti, invi)
      else
        findLoop k ((seti + 1) % cfg.cachepages)
          (if invi = none ∧ (m.cache seti).state = .inv then some seti else invi)

/-- The slot `findposition` settles on when `replacei` starts it at `seti`. -/
def findSlot (seti : Nat) : Nat :=
  let r := m.findLoop cfg cfg.cachepages (seti % cfg.cachepages) none
  if (m.cache r.1).state ≠ .unmap then r.2.getD r.1 else r.1

/-- `findposition(addr)`; `none` is the result -1. -/
def findposition (p : Nat) (seti : Nat) : Option (Nat × MemState) :=
  let s := m.findSlot cfg seti
  match (m.cache s).state with
  | .rw => none
  | .unmap => some (s, m.setPage p { m.page p with cachei := s })
  | .inv | .ro =>
      let m' := m.flushpage cfg s
      some (s, m'.setPage p { m'.page p with cachei := s })

variable {cfg m} in
/-- The page gets the slot `findSlot` settles on, which is flushed unless it is unmapped. -/
theorem findposition_cases {m' : MemState} {p seti s : Nat}
    (h : m.findposition cfg p seti = some (s, m')) :
    s = m.findSlot cfg seti ∧ (m.cache s).state ≠ .rw ∧
      ∃ m₁, m' = m₁.setPage p { m₁.page p with cachei := s } ∧
        ((m₁ = m ∧ (m.cache s).state = .unmap) ∨ m₁ = m.flushpage cfg s) := by
  unfold findposition at h
  simp only at h
  split at h
  · cases h
  all_goals
    rename_i hst
    simp only [Option.some.injEq, Prod.mk.injEq] at h
    obtain ⟨rfl, rfl⟩ := h
    refine ⟨rfl, by simp [hst], _, rfl, ?_⟩
  · exact Or.inl ⟨rfl, hst⟩
  · exact Or.inr rfl
  · exact Or.inr rfl

/-! ## The fault handler -/

def newtwin (t : Option Page) : Option Page := some (t.getD zeroPage)

/-- The branch of `sigsegv_handler` for a page whose home is this host. -/
def homeFault (p : Nat) : Result MemState := do
  let m ← m.memprotect p .readWrite
  let homei := (m.page p).homei
  defined (homei < Homepages) "home[] out of range"
  let e := m.home homei
  let twin :=
    if cfg.wVec ∧ ¬ e.wvfull then some (m.mem (cfg.pagei e.addr)) else e.twin
  return m.setHome homei { e with wtnt := e.wtnt ||| 3, twin := twin }

/-- What the main thread waits for inside the fault handler. -/
structure FaultWait where
  page : Nat
  writefault : Bool
  cachei : Nat
deriving DecidableEq, Repr

/-- The kernel reports an access to an unmapped page as no write fault and every
other one as a write fault. -/
def writefault (p : Nat) : Bool := m.prot p ≠ .unmapped

/-- The cache slot for a page of another host, mapped writable, and the request
for the page unless it is there already. -/
def faultSlot (p seti : Nat) : Result (MemState × Nat × Out) :=
  let homeid := (m.page p).homepid
  let cachei := (m.page p).cachei
  if cachei < cfg.cachepages then do
    let m' ← m.memprotect p .readWrite
    if m.writefault p ∧ (m.cache cachei).state = .ro then return (m', cachei, [])
    else return ({ m' with getpwait := true }, cachei, [(homeid, .getp (cfg.pageAddr p) true)])
  else
    match m.findposition cfg p seti with
    | none => .error (.undefined "cache[-1]")
    | some (slot, m') =>
        .ok ({ m'.memmap p .readWrite with getpwait := true }, slot,
          [(homeid, .getp (cfg.pageAddr p) false)])

/-- What the handler writes into the cache slot. -/
def faultEntry (p : Nat) (c : CacheEntry) : CacheEntry :=
  if m.writefault p then
    { state := .rw, addr := cfg.pageAddr p, twin := newtwin c.twin, wtnt := true }
  else { c with state := .ro, addr := cfg.pageAddr p }

/-- The branch for a page of another host, up to the wait for `getpwait`. -/
def cacheFault (p seti : Nat) : Result (MemState × FaultWait × Out) := do
  let (m', cachei, out) ← m.faultSlot cfg p seti
  return (m'.setCache cachei (m.faultEntry cfg p (m'.cache cachei)),
    ⟨p, m.writefault p, cachei⟩, out)

/-- The page has a slot, which is opened, or it gets one from `findposition`. -/
theorem faultSlot_cases {p seti s : Nat} {m' : MemState} {out : Out}
    (h : m.faultSlot cfg p seti = .ok (m', s, out)) :
    ((m.page p).cachei < cfg.cachepages ∧ s = (m.page p).cachei ∧ m.prot p ≠ .unmapped ∧
      ∃ wait, m' = { m.setProt p .readWrite with getpwait := wait } ∧
        ((out = [] ∧ wait = m.getpwait ∧ m.writefault p ∧ (m.cache s).state = .ro) ∨
          (out = [((m.page p).homepid, .getp (cfg.pageAddr p) true)] ∧ wait = true))) ∨
    (cfg.cachepages ≤ (m.page p).cachei ∧ ∃ m₁, m.findposition cfg p seti = some (s, m₁) ∧
      m' = { m₁.memmap p .readWrite with getpwait := true } ∧
      out = [((m.page p).homepid, .getp (cfg.pageAddr p) false)]) := by
  unfold faultSlot at h
  simp only at h
  split at h
  · rename_i hslot
    left
    simp only [bind_eq_ok, memprotect_eq_ok] at h
    obtain ⟨m₁, ⟨hmap, rfl⟩, h⟩ := h
    split at h
    · rename_i hro
      simp only [pure, Except.pure, Except.ok.injEq, Prod.mk.injEq] at h
      obtain ⟨rfl, rfl, rfl⟩ := h
      exact ⟨hslot, rfl, hmap, _, rfl, .inl ⟨rfl, rfl, hro⟩⟩
    · simp only [pure, Except.pure, Except.ok.injEq, Prod.mk.injEq] at h
      obtain ⟨rfl, rfl, rfl⟩ := h
      exact ⟨hslot, rfl, hmap, _, rfl, .inr ⟨rfl, rfl⟩⟩
  · rename_i hslot
    right
    split at h
    · cases h
    · rename_i s₁ m₁ hfind
      simp only [Except.ok.injEq, Prod.mk.injEq] at h
      obtain ⟨rfl, rfl, rfl⟩ := h
      exact ⟨not_lt.mp hslot, m₁, hfind, rfl, rfl⟩

theorem cacheFault_eq_ok {p seti : Nat} {m' : MemState} {w : FaultWait} {out : Out} :
    m.cacheFault cfg p seti = .ok (m', w, out) ↔
      ∃ m₁ s, m.faultSlot cfg p seti = .ok (m₁, s, out) ∧
        m' = m₁.setCache s (m.faultEntry cfg p (m₁.cache s)) ∧ w = ⟨p, m.writefault p, s⟩ := by
  simp only [cacheFault, bind_eq_ok, Prod.exists, pure, Except.pure, Except.ok.injEq,
    Prod.mk.injEq]
  constructor
  · rintro ⟨m₁, s, out₁, hslot, rfl, rfl, rfl⟩
    exact ⟨m₁, s, hslot, rfl, rfl⟩
  · rintro ⟨m₁, s, hslot, rfl, rfl⟩
    exact ⟨m₁, s, out, hslot, rfl, rfl, rfl⟩

/-- The rest of the handler, after `while (getpwait)`. -/
def faultEnd (w : FaultWait) : Result MemState :=
  if w.writefault then
    let c := m.cache w.cachei
    return m.setCache w.cachei { c with twin := some (m.mem w.page) }
  else m.memprotect w.page .read

/-! ## Write vectors -/

/-- The blocks a run of a diff touches. -/
def runBits (r : DiffRun) : BitVec Wvbits :=
  (List.range Wvbits).foldl (fun wv b =>
    if r.units ≠ [] ∧ r.start / Blockunits ≤ b ∧ b * Blockunits < r.start + r.units.length then
      wv ||| ((1 : BitVec Wvbits) <<< b)
    else wv) 0

def addwtvect (homei : Nat) (wv : BitVec Wvbits) (fromPid : Nat) : MemState :=
  let e := m.home homei
  let w := fun i => if i < cfg.hostc ∧ i ≠ fromPid then e.wtvect i ||| wv else e.wtvect i
  m.setHome homei { e with wtvect := w, wvfull := decide (∀ i < cfg.hostc, w i = WVFULL) }

def setwtvect (homei : Nat) (wv : BitVec Wvbits) : MemState :=
  let e := m.home homei
  let w := fun i => if i < cfg.hostc then wv else e.wtvect i
  m.setHome homei { e with wtvect := w, wvfull := decide (∀ i < cfg.hostc, w i = WVFULL) }

/-- The blocks of a page that are in `wv`. -/
def maskPage (wv : BitVec Wvbits) (pg old : Page) : Page :=
  fun u => if wv.getLsbD (u.val / Blockunits) then pg u else old u

/-! ## `memserver.c` -/

/-- The home entry lets the server write to the page without opening it. -/
def openHome (p homei : Nat) : Result MemState :=
  if m.homeWtnt cfg homei &&& 1 = 1 then .ok m else m.memprotect p .readWrite

/-- The write vectors after a diff with the given runs. -/
def noteBlocks (src homei : Nat) (runs : List DiffRun) : Result MemState :=
  if cfg.wVec then do
    defined (homei < Homepages) "home[Homepages]"
    return m.addwtvect cfg homei (runs.foldl (fun wv r => wv ||| runBits r) 0) src
  else .ok m

/-- Revoke the permission `openHome` gave. -/
def closeHome (p homei : Nat) : Result MemState :=
  if m.homeWtnt cfg homei &&& 1 = 1 then .ok m else m.memprotect p .read

/-- One turn of the outer loop of `diffserver`. -/
def applyDiff (src : Nat) (d : PageDiff) : Result MemState := do
  let p := cfg.pagei d.addr
  let homei := m.homepage cfg d.addr
  let m₁ ← m.openHome cfg p homei
  defined (d.runs ≠ [] → m₁.prot p = .readWrite) "diff to a page that is not writable"
  let m₂ ← (m₁.setMem p (applyRuns d.runs (m₁.mem p))).noteBlocks cfg src homei d.runs
  m₂.closeHome cfg p homei

/-- What `applyDiff` changes: the units of the page, its protection when the home
has not written it, and the write vectors. -/
structure DiffApplied (d : PageDiff) (m m' : MemState) : Prop where
  mem : m'.mem = upd m.mem (cfg.pagei d.addr) (applyRuns d.runs (m.mem (cfg.pagei d.addr)))
  prot : m'.prot = if m.homeWtnt cfg (m.homepage cfg d.addr) &&& 1 = 1 then m.prot
    else upd m.prot (cfg.pagei d.addr) .read
  page : m'.page = m.page
  cache : m'.cache = m.cache
  homesize : m'.homesize = m.homesize
  getpwait : m'.getpwait = m.getpwait
  diffwait : m'.diffwait = m.diffwait
  home_wtnt : ∀ i, (m'.home i).wtnt = (m.home i).wtnt
  home_rdnt : ∀ i, (m'.home i).rdnt = (m.home i).rdnt
  home_addr : ∀ i, (m'.home i).addr = (m.home i).addr

section ApplyDiff

variable {cfg m} {m' : MemState} {src p homei : Nat}

theorem openHome_ok (h : m.openHome cfg p homei = .ok m') :
    m' = if m.homeWtnt cfg homei &&& 1 = 1 then m else m.setProt p .readWrite := by
  unfold openHome at h
  by_cases hw : m.homeWtnt cfg homei &&& 1 = 1
  · rw [if_pos hw] at h ⊢
    exact (Except.ok.inj h).symm
  · rw [if_neg hw] at h ⊢
    exact (memprotect_eq_ok.mp h).2

theorem closeHome_ok (h : m.closeHome cfg p homei = .ok m') :
    m' = if m.homeWtnt cfg homei &&& 1 = 1 then m else m.setProt p .read := by
  unfold closeHome at h
  by_cases hw : m.homeWtnt cfg homei &&& 1 = 1
  · rw [if_pos hw] at h ⊢
    exact (Except.ok.inj h).symm
  · rw [if_neg hw] at h ⊢
    exact (memprotect_eq_ok.mp h).2

theorem noteBlocks_ok {runs : List DiffRun} (h : m.noteBlocks cfg src homei runs = .ok m') :
    ∃ wtvect wvfull, m' = { m with
      home := upd m.home homei { m.home homei with wtvect := wtvect, wvfull := wvfull } } := by
  unfold noteBlocks at h
  split at h
  · simp only [bind_eq_ok, defined_eq_ok, pure, Except.pure, Except.ok.injEq] at h
    obtain ⟨-, -, rfl⟩ := h
    exact ⟨_, _, rfl⟩
  · exact ⟨(m.home homei).wtvect, (m.home homei).wvfull, by simpa using (Except.ok.inj h).symm⟩

theorem applyDiff_ok {d : PageDiff} (h : m.applyDiff cfg src d = .ok m') :
    DiffApplied cfg d m m' := by
  simp only [applyDiff, bind_eq_ok] at h
  obtain ⟨m₁, hopen, -, -, m₂, hnote, hclose⟩ := h
  obtain ⟨wtvect, wvfull, rfl⟩ := noteBlocks_ok hnote
  have hclose := closeHome_ok hclose
  have hopen := openHome_ok hopen
  -- the write vectors are the only part of the home entry that changes
  have hwtnt : ∀ i, ((upd m₁.home (m.homepage cfg d.addr)
      { m₁.home (m.homepage cfg d.addr) with wtvect := wtvect, wvfull := wvfull }) i).wtnt =
      (m₁.home i).wtnt := by
    intro i
    by_cases hi : i = m.homepage cfg d.addr
    · simp [hi]
    · simp [hi]
  by_cases hw : m.homeWtnt cfg (m.homepage cfg d.addr) &&& 1 = 1
  · rw [if_pos hw] at hopen
    subst hopen
    rw [if_pos (by simpa [homeWtnt, hwtnt] using hw)] at hclose
    subst hclose
    constructor <;> first | rfl | skip
    · rw [if_pos hw]
      rfl
    all_goals
      intro i
      by_cases hi : i = m₁.homepage cfg d.addr
      · simp [hi]
      · simp [hi]
  · rw [if_neg hw] at hopen
    subst hopen
    rw [if_neg (by simpa [homeWtnt, hwtnt] using hw)] at hclose
    subst hclose
    constructor <;> first | rfl | skip
    · rw [if_neg hw]
      simp
    all_goals
      intro i
      by_cases hi : i = m.homepage cfg d.addr
      · simp [hi]
      · simp [hi]

end ApplyDiff

def applyDiffs (src : Nat) : MemState → List PageDiff → Result MemState
  | m, [] => .ok m
  | m, d :: ds => do
      let m ← m.applyDiff cfg src d
      applyDiffs src m ds

/-- `diffserver` leaves in a page what the diffs for it leave, one after the other. -/
theorem applyDiffs_mem {cfg : Config} {src : Nat} {m m' : MemState} {ds : List PageDiff}
    (h : applyDiffs cfg src m ds = .ok m') (p : Nat) :
    m'.mem p = (ds.filter fun d => cfg.pagei d.addr = p).foldl
      (fun pg d => applyRuns d.runs pg) (m.mem p) := by
  induction ds generalizing m with
  | nil =>
      simp only [applyDiffs, Except.ok.injEq] at h
      simp [h]
  | cons d ds ih =>
      simp only [applyDiffs, bind_eq_ok] at h
      obtain ⟨m₁, hd, h⟩ := h
      have hmem := (applyDiff_ok hd).mem
      rw [ih h, hmem]
      by_cases hp : cfg.pagei d.addr = p
      · subst hp
        simp
      · rw [upd_of_ne _ _ (Ne.symm hp)]
        simp [hp]

def diffserver (src : Nat) (diffs : List PageDiff) : Result (MemState × Out) := do
  let m ← applyDiffs cfg src m diffs
  return (m, [(src, .diffgrant)])

def diffgrantserver : MemState := { m with diffwait := m.diffwait - 1 }

/-- Copy a page from memory.  A home page that is not readable sends the server
thread through the fault handler. -/
def copyPage (pid p : Nat) : Result (MemState × Page) := do
  if m.Readable p then return (m, m.mem p)
  else do
    defined (m.prot p = .none ∧ (m.page p).homepid = pid) "copy from a page that is not mapped"
    let m ← m.homeFault cfg p
    return (m, m.mem p)

/-- The prefetch loop of `getpserver`: `k` pages left to check, `num` found. -/
def prefetchLoop (pid : Nat) : Nat → MemState → Nat → Nat → List Nat → Result (MemState × List Nat)
  | 0, m, _, _, acc => .ok (m, acc)
  | k + 1, m, p, num, acc => do
      defined (p < Maxmempages) "page[] out of range"
      if (m.page p).homepid = pid ∧ (num : Int) < cfg.maxCheckingPages + 1 then do
        let homei := (m.page p).homei
        defined (homei < Homepages) "home[] out of range"
        defined (num < 10) "addr[] out of range"
        let m := m.setHome homei { m.home homei with rdnt := true }
        if ((num + 1 : Nat) : Int) = cfg.prefetchPages + 1 then return (m, acc ++ [p])
        else prefetchLoop pid k m (p + 1) (num + 1) (acc ++ [p])
      else prefetchLoop pid k m (p + 1) num acc

def copyPages (pid : Nat) : MemState → List Nat → Result (MemState × List ExtraPage)
  | m, [] => .ok (m, [])
  | m, p :: ps => do
      let (m, pg) ← m.copyPage cfg pid p
      let (m, rest) ← copyPages pid m ps
      return (m, ⟨cfg.pageAddr p, pg⟩ :: rest)

/-- With write vectors, `getpserver` starts a new twin once every vector is full. -/
def renewTwin (pid homei : Nat) : Result MemState :=
  if cfg.wVec ∧ (m.home homei).wvfull then do
    let m := m.setHome homei { m.home homei with wvfull := false }
    let (m, twin) ← m.copyPage cfg pid (cfg.pagei (m.home homei).addr)
    return m.setHome homei { m.home homei with twin := some twin }
  else .ok m

/-- The pages `getpserver` adds to the requested one. -/
def prefetch (pid p : Nat) : Result (MemState × List Nat) :=
  if cfg.prefetchFlag ∧ cfg.prefetchPages ≠ 0 then
    m.prefetchLoop cfg pid cfg.maxCheckingPages.toNat (p + 1) 1 []
  else .ok (m, [])

/-- What `homei` is after the prefetch loop: the entry of the last page it added. -/
def lastHomei (homei : Nat) (extra : List Nat) : Nat :=
  extra.foldl (fun _ q => (m.page q).homei) homei

/-- `getpserver`.  On the branch for a new home the page count stays 0 and the
address it copies from is null.  The vector is looked up under `homei` as the
prefetch loop leaves it. -/
def getpserver (pid src : Nat) (addr : Addr) (temp : Bool) : Result (MemState × Out) :=
  let p := cfg.pagei addr
  if cfg.hMig ∧ m.homehost cfg addr ≠ pid then .error (.undefined "copy from address 0")
  else do
    jiaAssert (m.homehost cfg addr = pid) "This should have not been happened!"
    let homei := m.homepage cfg addr
    defined (homei < Homepages) "home[] out of range"
    let m ← m.renewTwin cfg pid homei
    let m := m.setHome homei { m.home homei with rdnt := true }
    let (m, extra) ← m.prefetch cfg pid p
    let wv :=
      if cfg.wVec ∧ temp then (m.home (m.lastHomei homei extra)).wtvect src else WVFULL
    let (m, pg) ← (if wv = 0 then .ok (m, zeroPage) else m.copyPage cfg pid p)
    let (m, pages) ← copyPages cfg pid m extra
    jiaAssert (Intbytes + Addrbytes + Pagesize + (Addrbytes + Pagesize) * pages.length ≤ Maxmsgsize)
      "Message too large"
    return (m, [(src, .getpgrant addr wv (maskPage wv pg zeroPage) pages)])

/-- Install one prefetched page; `seti` is where `replacei` starts. -/
def installExtra (x : ExtraPage) (seti : Nat) : Result MemState := do
  let p := cfg.pagei x.addr
  if (m.page p).cachei < cfg.cachepages then return m
  else
    match m.findposition cfg p seti with
    | none => return m
    | some (slot, m) =>
        let m := (m.memmap p .readWrite).setMem p x.data
        let c := m.cache slot
        (m.setCache slot { c with addr := x.addr, state := .ro }).memprotect p .read

def installExtras : MemState → List ExtraPage → List Nat → Result MemState
  | m, [], _ => .ok m
  | m, x :: xs, rnd => do
      let m ← m.installExtra cfg x (rnd.headD 0)
      installExtras m xs rnd.tail

def getpgrantserver (addr : Addr) (wv : BitVec Wvbits) (data : Page) (extra : List ExtraPage)
    (rnd : List Nat) : Result MemState := do
  let p := cfg.pagei addr
  defined (m.prot p = .readWrite) "copy to a page that is not writable"
  let pg := if cfg.wVec ∧ wv ≠ WVFULL then maskPage wv data (m.mem p) else data
  let m ← installExtras cfg (m.setMem p pg) extra rnd
  return { m with getpwait := false }

end MemState

end Jiajia
