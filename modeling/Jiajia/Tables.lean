import Jiajia.Routing

/-!
# The page tables of a host

What every operation keeps of `page[]`, `cache[]` and `home[]`: a page that names
a cache slot has it, a page has a home entry exactly where its home is, and every
home entry belongs to its page.
-/

namespace Jiajia

/-- The address of an allocated page. -/
def Config.IsPage (cfg : Config) (a : Addr) : Prop := ∃ p < cfg.npages, a = cfg.pageAddr p

namespace MemState

variable (cfg : Config) (pid : Nat) (m : MemState)

/-- Page `p` has a slot of the cache with a valid copy. -/
def Cached (p : Nat) : Prop :=
  (m.page p).cachei < cfg.cachepages ∧
    ((m.cache (m.page p).cachei).state = .ro ∨ (m.cache (m.page p).cachei).state = .rw)

instance (p : Nat) : Decidable (m.Cached cfg p) := inferInstanceAs (Decidable (_ ∧ _))

/-- The flag `rdnt` of the home entry that page `p` names. -/
def rdnt (p : Nat) : Bool := (m.home (m.page p).homei).rdnt

/-- The slot of page `q` is its own. -/
def SlotOk (q : Nat) : Prop :=
  (m.page q).cachei < cfg.cachepages → (m.cache (m.page q).cachei).addr = cfg.pageAddr q ∧
    (m.cache (m.page q).cachei).state ≠ .unmap

/-- `page[].cachei` and `cache[]` fit each other. -/
structure CacheTables : Prop where
  slot : ∀ q < cfg.npages, m.SlotOk cfg q
  dirty : ∀ c < cfg.cachepages, (m.cache c).wtnt = true →
    cfg.IsPage (m.cache c).addr ∧ ((m.cache c).state = .ro ∨ (m.cache c).state = .rw)

/-- `page[].homepid`, `page[].homei` and `home[]` fit each other on host `pid`. -/
structure HomeTables : Prop where
  home : ∀ p < cfg.npages, (m.page p).homepid = pid →
    (m.page p).homei < Homepages ∧ (m.home (m.page p).homei).addr = cfg.pageAddr p
  away : ∀ p < cfg.npages, (m.page p).homepid ≠ pid → (m.page p).homei = Homepages
  entry : ∀ i < Homepages, (m.home i).addr ≠ 0 →
    ∃ p < cfg.npages, (m.home i).addr = cfg.pageAddr p ∧ (m.page p).homei = i
  outside : ∀ p, cfg.npages ≤ p → (m.page p).homei = Homepages

structure Tables : Prop where
  cache : m.CacheTables cfg
  home : m.HomeTables cfg pid

/-- The home entries below `hpages` are in use. -/
def Compact : Prop := m.hpages ≤ Homepages ∧ ∀ i < m.hpages, (m.home i).addr ≠ 0

/-! ## What operations leave alone -/

/-- The home side of `m'` is that of `m`, up to write bits, twins and vectors. -/
structure SameHome (m m' : MemState) : Prop where
  homepid : ∀ p, (m'.page p).homepid = (m.page p).homepid
  homei : ∀ p, (m'.page p).homei = (m.page p).homei
  addr : ∀ i, (m'.home i).addr = (m.home i).addr
  rdnt : ∀ i, (m'.home i).rdnt = (m.home i).rdnt
  homesize : m'.homesize = m.homesize

/-- The cache side of `m'` is that of `m`. -/
structure SameCache (m m' : MemState) : Prop where
  cachei : ∀ p, (m'.page p).cachei = (m.page p).cachei
  cache : ∀ c, m'.cache c = m.cache c

variable {cfg pid m} {m' m'' : MemState}

theorem SameHome.refl (m : MemState) : SameHome m m :=
  ⟨fun _ => rfl, fun _ => rfl, fun _ => rfl, fun _ => rfl, rfl⟩

theorem SameHome.trans (h : SameHome m m') (h' : SameHome m' m'') : SameHome m m'' where
  homepid p := (h'.homepid p).trans (h.homepid p)
  homei p := (h'.homei p).trans (h.homei p)
  addr i := (h'.addr i).trans (h.addr i)
  rdnt i := (h'.rdnt i).trans (h.rdnt i)
  homesize := h'.homesize.trans h.homesize

theorem SameCache.refl (m : MemState) : SameCache m m := ⟨fun _ => rfl, fun _ => rfl⟩

theorem SameCache.trans (h : SameCache m m') (h' : SameCache m' m'') : SameCache m m'' where
  cachei p := (h'.cachei p).trans (h.cachei p)
  cache c := (h'.cache c).trans (h.cache c)

theorem SameHome.rdnt_eq (h : SameHome m m') (p : Nat) : m'.rdnt p = m.rdnt p := by
  unfold MemState.rdnt
  rw [h.rdnt, h.homei]

theorem SameCache.cached (h : SameCache m m') (p : Nat) : m'.Cached cfg p ↔ m.Cached cfg p := by
  unfold Cached
  rw [h.cachei, h.cache]

theorem SameCache.tables (h : SameCache m m') (ht : m.CacheTables cfg) : m'.CacheTables cfg where
  slot q hq := by
    have hs := ht.slot q hq
    unfold SlotOk at hs ⊢
    rw [h.cachei, h.cache]
    exact hs
  dirty c hc := by
    rw [h.cache]
    exact ht.dirty c hc

theorem HomeTables.congr (ht : m.HomeTables cfg pid)
    (hpid : ∀ p, (m'.page p).homepid = (m.page p).homepid)
    (hhomei : ∀ p, (m'.page p).homei = (m.page p).homei)
    (haddr : ∀ i, (m'.home i).addr = (m.home i).addr) : m'.HomeTables cfg pid where
  home p hp := by
    rw [hpid, hhomei, haddr]
    exact ht.home p hp
  away p hp := by
    rw [hpid, hhomei]
    exact ht.away p hp
  entry i hi := by
    rw [haddr]
    intro hne
    obtain ⟨p, hp, ha, hpi⟩ := ht.entry i hi hne
    exact ⟨p, hp, ha, (hhomei p).trans hpi⟩
  outside p hp := by
    rw [hhomei]
    exact ht.outside p hp

theorem HomeTables.owned (ht : m.HomeTables cfg pid) {i : Nat} (hi : i < Homepages)
    (hused : (m.home i).addr ≠ 0) : ∃ p < cfg.npages, (m.home i).addr = cfg.pageAddr p ∧
      (m.page p).homei = i ∧ (m.page p).homepid = pid := by
  obtain ⟨p, hp, ha, hpi⟩ := ht.entry i hi hused
  refine ⟨p, hp, ha, hpi, ?_⟩
  by_contra hne
  have := ht.away p hp hne
  omega

theorem SameHome.tables (h : SameHome m m') (ht : m.HomeTables cfg pid) :
    m'.HomeTables cfg pid := ht.congr h.homepid h.homei h.addr

theorem SameHome.hpages (h : SameHome m m') : m'.hpages = m.hpages := by
  unfold MemState.hpages
  rw [h.homesize]

theorem SameHome.compact (h : SameHome m m') (hc : m.Compact) : m'.Compact := by
  unfold Compact
  rw [h.hpages]
  refine ⟨hc.1, ?_⟩
  intro i hi
  rw [h.addr]
  exact hc.2 i hi

theorem sameHome_memprotect {p : Nat} {pr : Prot} (h : m.memprotect p pr = .ok m') :
    SameHome m m' ∧ SameCache m m' := by
  obtain ⟨-, rfl⟩ := memprotect_eq_ok.mp h
  exact ⟨⟨fun _ => rfl, fun _ => rfl, fun _ => rfl, fun _ => rfl, rfl⟩,
    ⟨fun _ => rfl, fun _ => rfl⟩⟩

theorem sameHome_setHome {i : Nat} {e : HomeEntry} (ha : e.addr = (m.home i).addr)
    (hr : e.rdnt = (m.home i).rdnt) :
    SameHome m (m.setHome i e) ∧ SameCache m (m.setHome i e) := by
  refine ⟨⟨fun _ => rfl, fun _ => rfl, ?_, ?_, rfl⟩, ⟨fun _ => rfl, fun _ => rfl⟩⟩
  · intro j
    by_cases hj : j = i
    · subst hj
      simpa using ha
    · simp [hj]
  · intro j
    by_cases hj : j = i
    · subst hj
      simpa using hr
    · simp [hj]

/-! ## The page cache -/

/-- The other pages of a host whose slot `s` is to take page `p`. -/
structure Ready (cfg : Config) (p s : Nat) (m m' : MemState) : Prop where
  home : SameHome m m'
  cachei : (m'.page p).cachei = s
  dirty : ∀ c < cfg.cachepages, c ≠ s → (m'.cache c).wtnt = true →
    cfg.IsPage (m'.cache c).addr ∧ ((m'.cache c).state = .ro ∨ (m'.cache c).state = .rw)
  slot : ∀ q < cfg.npages, q ≠ p → m'.SlotOk cfg q
  free : ∀ q < cfg.npages, q ≠ p → (m'.page q).cachei < cfg.cachepages → (m'.page q).cachei ≠ s
  cached : ∀ q, q ≠ p → (m'.page q).cachei ≠ s → m'.Cached cfg q → m.Cached cfg q

theorem Ready.place {p s : Nat} (hr : Ready cfg p s m m') (hp : p < cfg.npages) {e : CacheEntry}
    (ha : e.addr = cfg.pageAddr p) (hs : e.state = .ro ∨ e.state = .rw) :
    SameHome m (m'.setCache s e) ∧ (m'.setCache s e).CacheTables cfg ∧
      ∀ q < cfg.npages, q ≠ p → (m'.setCache s e).Cached cfg q → m.Cached cfg q := by
  refine ⟨⟨hr.home.homepid, hr.home.homei, hr.home.addr, hr.home.rdnt, hr.home.homesize⟩,
    ⟨?_, ?_⟩, ?_⟩
  · intro q hq hlt
    by_cases hqp : q = p
    · subst hqp
      simp only [setCache_page, setCache_cache, hr.cachei, upd_same]
      refine ⟨ha, ?_⟩
      rcases hs with hs | hs <;> simp [hs]
    · simp only [setCache_page, setCache_cache] at hlt ⊢
      rw [upd_of_ne _ _ (hr.free q hq hqp hlt)]
      exact hr.slot q hq hqp hlt
  · intro c hc hw
    by_cases hcs : c = s
    · subst hcs
      simp only [setCache_cache, upd_same] at hw ⊢
      exact ⟨⟨p, hp, ha⟩, hs⟩
    · simp only [setCache_cache, upd_of_ne _ _ hcs] at hw ⊢
      exact hr.dirty c hc hcs hw
  · intro q hq hqp hcached
    have hlt : (m'.page q).cachei < cfg.cachepages := hcached.1
    have hne := hr.free q hq hqp hlt
    refine hr.cached q hqp hne ⟨hlt, ?_⟩
    have hst := hcached.2
    simpa only [setCache_page, setCache_cache, upd_of_ne _ _ hne] using hst

/-- `flushpage` empties a slot and takes it from its page. -/
theorem flushpage_slot (ht : m.CacheTables cfg) (c : Nat) :
    (∀ q < cfg.npages, (m.flushpage cfg c).SlotOk cfg q) ∧
      ∀ q < cfg.npages, ((m.flushpage cfg c).page q).cachei < cfg.cachepages →
        ((m.flushpage cfg c).page q).cachei ≠ c := by
  -- a page that keeps its slot after the flush has another one
  have hkeep : ∀ q < cfg.npages, ((m.flushpage cfg c).page q).cachei < cfg.cachepages →
      ((m.flushpage cfg c).page q).cachei = (m.page q).cachei ∧ (m.page q).cachei ≠ c := by
    intro q hq hlt
    simp only [flushpage, setCache_page, setPage_page, upd_apply, memunmap, setProt_page] at hlt ⊢
    by_cases hqc : q = cfg.pagei (m.cache c).addr
    · rw [if_pos hqc] at hlt
      exact absurd hlt (lt_irrefl _)
    · rw [if_neg hqc] at hlt ⊢
      refine ⟨rfl, ?_⟩
      rintro rfl
      have ha := (ht.slot q hq hlt).1
      rw [ha, cfg.pagei_pageAddr hq] at hqc
      exact hqc rfl
  refine ⟨?_, fun q hq hlt => by rw [(hkeep q hq hlt).1]; exact (hkeep q hq hlt).2⟩
  intro q hq hlt
  obtain ⟨heq, hne⟩ := hkeep q hq hlt
  rw [heq] at hlt ⊢
  simp only [flushpage, setCache_cache, upd_of_ne _ _ hne, setPage_cache, memunmap, setProt_cache]
  exact ht.slot q hq hlt

theorem flushpage_sameHome (c : Nat) : SameHome m (m.flushpage cfg c) := by
  refine ⟨?_, ?_, fun _ => rfl, fun _ => rfl, rfl⟩
  · intro q
    simp only [flushpage, setCache_page, setPage_page, upd_apply, memunmap, setProt_page]
    split
    · rename_i h
      rw [h]
    · rfl
  · intro q
    simp only [flushpage, setCache_page, setPage_page, upd_apply, memunmap, setProt_page]
    split
    · rename_i h
      rw [h]
    · rfl

theorem flushpage_cached {c q : Nat} (hne : ((m.flushpage cfg c).page q).cachei ≠ c)
    (h : (m.flushpage cfg c).Cached cfg q) : m.Cached cfg q := by
  obtain ⟨hlt, hst⟩ := h
  have heq : ((m.flushpage cfg c).page q).cachei = (m.page q).cachei := by
    simp only [flushpage, setCache_page, setPage_page, upd_apply, memunmap, setProt_page] at hlt ⊢
    split
    · rename_i hq
      rw [if_pos hq] at hlt
      exact absurd hlt (lt_irrefl _)
    · rfl
  rw [heq] at hlt hst hne
  simp only [flushpage, setCache_cache, upd_of_ne _ _ hne, setPage_cache, memunmap,
    setProt_cache] at hst
  exact ⟨hlt, hst⟩

theorem flushed_ready (ht : m.CacheTables cfg) (p s : Nat) :
    Ready cfg p s m ((m.flushpage cfg s).setPage p
      { (m.flushpage cfg s).page p with cachei := s }) := by
  obtain ⟨hslot, hfree⟩ := flushpage_slot ht s
  have hhome : SameHome m (m.flushpage cfg s) := flushpage_sameHome s
  refine ⟨hhome.trans ⟨?_, ?_, fun _ => rfl, fun _ => rfl, rfl⟩, by simp, ?_, ?_, ?_, ?_⟩
  · intro q
    by_cases hq : q = p
    · simp [hq]
    · simp [hq]
  · intro q
    by_cases hq : q = p
    · simp [hq]
    · simp [hq]
  · intro c hc hcs hw
    simp only [flushpage, setCache_cache, setPage_cache, memunmap, setProt_cache,
      upd_of_ne _ _ hcs] at hw ⊢
    exact ht.dirty c hc hw
  · intro q hq hqp
    have hs := hslot q hq
    unfold SlotOk at hs ⊢
    simpa only [setPage_page, setPage_cache, upd_of_ne _ _ hqp] using hs
  · intro q hq hqp hlt
    simp only [setPage_page, upd_of_ne _ _ hqp] at hlt ⊢
    exact hfree q hq hlt
  · intro q hqp hne hcached
    simp only [setPage_page, upd_of_ne _ _ hqp] at hne
    apply flushpage_cached hne
    unfold Cached at hcached ⊢
    simpa only [setPage_page, setPage_cache, upd_of_ne _ _ hqp] using hcached

theorem Ready.of_unmapped (ht : m.CacheTables cfg) (p : Nat) {s : Nat}
    (hst : (m.cache s).state = .unmap) :
    Ready cfg p s m (m.setPage p { m.page p with cachei := s }) where
  home := by
    refine ⟨?_, ?_, fun _ => rfl, fun _ => rfl, rfl⟩
    · intro q
      by_cases hq : q = p
      · simp [hq]
      · simp [hq]
    · intro q
      by_cases hq : q = p
      · simp [hq]
      · simp [hq]
  cachei := by simp
  dirty c hc _ := ht.dirty c hc
  slot q hq hqp := by
    have hslot := ht.slot q hq
    unfold SlotOk at hslot ⊢
    simpa only [setPage_page, setPage_cache, upd_of_ne _ _ hqp] using hslot
  free q hq hqp hlt heq := by
    simp only [setPage_page, upd_of_ne _ _ hqp] at hlt heq
    -- an unmapped slot belongs to no page
    have hne := (ht.slot q hq hlt).2
    rw [heq] at hne
    exact hne hst
  cached q hqp _ hcached := by
    unfold Cached at hcached ⊢
    simpa only [setPage_page, setPage_cache, upd_of_ne _ _ hqp] using hcached

theorem findposition_ready (ht : m.CacheTables cfg) {p seti s : Nat}
    (h : m.findposition cfg p seti = some (s, m')) : Ready cfg p s m m' := by
  obtain ⟨-, -, m₁, rfl, hm₁⟩ := findposition_cases h
  rcases hm₁ with ⟨rfl, hst⟩ | rfl
  · exact Ready.of_unmapped ht p hst
  · exact flushed_ready ht p s

theorem findposition_getpwait {p seti s : Nat} (h : m.findposition cfg p seti = some (s, m')) :
    m'.getpwait = m.getpwait := by
  obtain ⟨-, -, m₁, rfl, hm₁⟩ := findposition_cases h
  rcases hm₁ with ⟨rfl, -⟩ | rfl
  · rfl
  · rfl

theorem Ready.congr {p s : Nat} (hr : Ready cfg p s m m') (hpage : m''.page = m'.page)
    (hcache : m''.cache = m'.cache) (hhome : m''.home = m'.home)
    (hsize : m''.homesize = m'.homesize) : Ready cfg p s m m'' where
  home := by
    refine ⟨?_, ?_, ?_, ?_, hsize.trans hr.home.homesize⟩
    · rw [hpage]
      exact hr.home.homepid
    · rw [hpage]
      exact hr.home.homei
    · rw [hhome]
      exact hr.home.addr
    · rw [hhome]
      exact hr.home.rdnt
  cachei := by rw [hpage, hr.cachei]
  dirty := by
    rw [hcache]
    exact hr.dirty
  slot q hq hqp := by
    have hs := hr.slot q hq hqp
    unfold SlotOk at hs ⊢
    rw [hpage, hcache]
    exact hs
  free := by
    rw [hpage]
    exact hr.free
  cached q hqp hne hc := by
    unfold Cached at hc
    rw [hpage, hcache] at hc
    rw [hpage] at hne
    exact hr.cached q hqp hne hc

/-- A page that is cached already keeps its slot. -/
theorem ready_kept (ht : m.CacheTables cfg) {p : Nat} (hp : p < cfg.npages)
    (hc : (m.page p).cachei < cfg.cachepages) : Ready cfg p (m.page p).cachei m m where
  home := SameHome.refl m
  cachei := rfl
  dirty c hlt _ := ht.dirty c hlt
  slot q hq _ := ht.slot q hq
  free q hq hqp hlt heq := by
    have hap := (ht.slot p hp hc).1
    have haq := (ht.slot q hq hlt).1
    rw [heq, hap] at haq
    exact hqp (cfg.pageAddr_inj hq hp haq.symm)
  cached q _ _ h := h

/-! ## The fault handler -/

/-- What a fault on a page of another host does to the tables. -/
structure FaultOk (cfg : Config) (p : Nat) (m m' : MemState) (w : FaultWait) (out : Out) :
    Prop where
  home : SameHome m m'
  cache : m'.CacheTables cfg
  cached : ∀ q < cfg.npages, q ≠ p → m'.Cached cfg q → m.Cached cfg q
  page : w.page = p
  ask : (out = [] ∧ m.Cached cfg p ∧ m'.getpwait = m.getpwait) ∨
    (∃ temp, out = [((m.page p).homepid, .getp (cfg.pageAddr p) temp)] ∧ m'.getpwait = true)

theorem faultEntry_spec (cfg : Config) (m : MemState) (p : Nat) (c : CacheEntry) :
    (m.faultEntry cfg p c).addr = cfg.pageAddr p ∧
      ((m.faultEntry cfg p c).state = .ro ∨ (m.faultEntry cfg p c).state = .rw) := by
  unfold faultEntry
  split
  · exact ⟨rfl, Or.inr rfl⟩
  · exact ⟨rfl, Or.inl rfl⟩

theorem cacheFault_ok (ht : m.CacheTables cfg) {p seti : Nat} (hp : p < cfg.npages)
    {w : FaultWait} {out : Out} (h : m.cacheFault cfg p seti = .ok (m', w, out)) :
    FaultOk cfg p m m' w out := by
  obtain ⟨m₁, s, hslot, rfl, rfl⟩ := (cacheFault_eq_ok cfg m).mp h
  -- the slot is ready, and the page is asked for unless it is there
  have hready : Ready cfg p s m m₁ ∧ ((out = [] ∧ m.Cached cfg p ∧ m₁.getpwait = m.getpwait) ∨
      (∃ temp, out = [((m.page p).homepid, .getp (cfg.pageAddr p) temp)] ∧
        m₁.getpwait = true)) := by
    rcases faultSlot_cases cfg m hslot with ⟨hc, rfl, -, wait, rfl, hout⟩ |
      ⟨-, m₂, hfind, rfl, hout⟩
    · refine ⟨(ready_kept ht hp hc).congr rfl rfl rfl rfl, ?_⟩
      cases hout with
      | inl hnone =>
          obtain ⟨hout, hwait, -, hro⟩ := hnone
          exact Or.inl ⟨hout, ⟨hc, Or.inl hro⟩, hwait⟩
      | inr hask => exact Or.inr ⟨true, hask⟩
    · exact ⟨(findposition_ready ht hfind).congr rfl rfl rfl rfl, Or.inr ⟨false, hout, rfl⟩⟩
  obtain ⟨ha, hs⟩ := faultEntry_spec cfg m p (m₁.cache s)
  obtain ⟨hhome, hcache, hcached⟩ := hready.1.place hp ha hs
  exact ⟨hhome, hcache, hcached, rfl, hready.2⟩

theorem faultEnd_ok (ht : m.CacheTables cfg) {w : FaultWait} (h : m.faultEnd w = .ok m') :
    SameHome m m' ∧ m'.CacheTables cfg ∧ (∀ q, m'.Cached cfg q → m.Cached cfg q) ∧
      m'.getpwait = m.getpwait := by
  unfold faultEnd at h
  split at h
  · simp only [pure, Except.pure, Except.ok.injEq] at h
    subst h
    -- everything but the twin of the slot is as before
    have hc : ∀ c, ((m.setCache w.cachei { m.cache w.cachei with
          twin := some (m.mem w.page) }).cache c).addr = (m.cache c).addr ∧
        ((m.setCache w.cachei { m.cache w.cachei with
          twin := some (m.mem w.page) }).cache c).state = (m.cache c).state ∧
        ((m.setCache w.cachei { m.cache w.cachei with
          twin := some (m.mem w.page) }).cache c).wtnt = (m.cache c).wtnt := by
      intro c
      by_cases hcw : c = w.cachei
      · subst hcw
        simp
      · simp [hcw]
    refine ⟨⟨fun _ => rfl, fun _ => rfl, fun _ => rfl, fun _ => rfl, rfl⟩, ⟨?_, ?_⟩, ?_, rfl⟩
    · intro q hq hlt
      rw [setCache_page] at hlt ⊢
      rw [(hc _).1, (hc _).2.1]
      exact ht.slot q hq hlt
    · intro c hlt hw
      rw [(hc c).2.2] at hw
      rw [(hc c).1, (hc c).2.1]
      exact ht.dirty c hlt hw
    · intro q hq
      unfold Cached at hq ⊢
      rw [setCache_page, (hc _).2.1] at hq
      exact hq
  · obtain ⟨hhome, hcache⟩ := sameHome_memprotect h
    refine ⟨hhome, hcache.tables ht, fun q => (hcache.cached q).mp, ?_⟩
    obtain ⟨-, rfl⟩ := memprotect_eq_ok.mp h
    rfl

/-- Nothing but write bits, twins, vectors and protections. -/
structure Still (m m' : MemState) : Prop where
  home : SameHome m m'
  cache : SameCache m m'
  getpwait : m'.getpwait = m.getpwait

theorem Still.refl (m : MemState) : Still m m := ⟨SameHome.refl m, SameCache.refl m, rfl⟩

theorem Still.trans (h : Still m m') (h' : Still m' m'') : Still m m'' :=
  ⟨h.home.trans h'.home, h.cache.trans h'.cache, h'.getpwait.trans h.getpwait⟩

theorem still_memprotect {p : Nat} {pr : Prot} (h : m.memprotect p pr = .ok m') : Still m m' := by
  obtain ⟨hhome, hcache⟩ := sameHome_memprotect h
  obtain ⟨-, rfl⟩ := memprotect_eq_ok.mp h
  exact ⟨hhome, hcache, rfl⟩

theorem still_setHome {i : Nat} {e : HomeEntry} (ha : e.addr = (m.home i).addr)
    (hr : e.rdnt = (m.home i).rdnt) : Still m (m.setHome i e) :=
  ⟨(sameHome_setHome ha hr).1, (sameHome_setHome ha hr).2, rfl⟩

theorem still_homeFault {p : Nat} (h : m.homeFault cfg p = .ok m') : Still m m' := by
  simp only [homeFault, bind_eq_ok, defined_eq_ok, pure, Except.pure, Except.ok.injEq] at h
  obtain ⟨m₁, hprot, -, -, rfl⟩ := h
  exact (still_memprotect hprot).trans (still_setHome rfl rfl)

/-! ## Intervals -/

theorem startCache_ok (ht : m.CacheTables cfg) (h : Host.startCache cfg m = .ok m') :
    SameHome m m' ∧ m'.CacheTables cfg ∧ (∀ q, m'.Cached cfg q → m.Cached cfg q) ∧
      m'.getpwait = m.getpwait := by
  simp only [Host.startCache, bind_eq_ok, jiaAssert_eq_ok, pure, Except.pure,
    Except.ok.injEq] at h
  obtain ⟨-, -, rfl⟩ := h
  refine ⟨⟨fun _ => rfl, fun _ => rfl, fun _ => rfl, fun _ => rfl, rfl⟩, ⟨?_, ?_⟩, ?_, rfl⟩
  · intro q hq hlt
    obtain ⟨ha, hs⟩ := ht.slot q hq hlt
    simp only
    split
    · exact ⟨ha, by simp⟩
    · exact ⟨ha, hs⟩
  · intro c hc hw
    simp only at hw ⊢
    split
    · rename_i hcw
      rw [if_pos hcw] at hw
      cases hw
    · rename_i hcw
      rw [if_neg hcw] at hw
      exact ht.dirty c hc hw
  · intro q hq
    obtain ⟨hlt, hs⟩ := hq
    refine ⟨hlt, ?_⟩
    simp only at hlt hs
    split at hs
    · rename_i hcw
      exact (ht.dirty _ hcw.1 hcw.2).2
    · exact hs

theorem still_startHome (h : Host.startHome cfg m = .ok m') : Still m m' := by
  simp only [Host.startHome, bind_eq_ok, jiaAssert_eq_ok, pure, Except.pure,
    Except.ok.injEq] at h
  obtain ⟨-, -, rfl⟩ := h
  refine ⟨⟨fun _ => rfl, fun _ => rfl, ?_, ?_, rfl⟩, ⟨fun _ => rfl, fun _ => rfl⟩, rfl⟩
  · intro i
    simp only
    split <;> rfl
  · intro i
    simp only
    split <;> rfl

theorem still_twinHome (m : MemState) (i : Nat) : Still m (Host.twinHome cfg m i) := by
  unfold Host.twinHome
  simp only
  split
  · exact still_setHome rfl rfl
  · exact Still.refl m

theorem still_startHomeAdwd {i : Nat} (h : Host.startHomeAdwd cfg m i = .ok m') : Still m m' := by
  unfold Host.startHomeAdwd at h
  simp only at h
  split at h
  · exact Except.ok.inj h ▸ Still.refl m
  · cases h
  · cases h
  · split at h
    · simp only [bind_eq_ok, pure, Except.pure, Except.ok.injEq] at h
      obtain ⟨m₁, hprot, rfl⟩ := h
      have h₁ := still_memprotect hprot
      obtain ⟨-, rfl⟩ := memprotect_eq_ok.mp hprot
      refine Still.trans ?_ (still_twinHome _ i)
      exact h₁.trans (still_setHome rfl rfl)
    · exact Except.ok.inj h ▸ still_setHome rfl rfl
  · split at h
    · exact Except.ok.inj h ▸ still_twinHome m i
    · refine Still.trans ?_ (still_memprotect h)
      exact still_setHome rfl rfl
  · refine Still.trans ?_ (still_memprotect h)
    exact still_setHome rfl rfl
  · exact Except.ok.inj h ▸ still_setHome rfl rfl

theorem still_startHomesAdwd {is : List Nat} (h : Host.startHomesAdwd cfg m is = .ok m') :
    Still m m' := by
  induction is generalizing m with
  | nil =>
      simp only [Host.startHomesAdwd, Except.ok.injEq] at h
      exact h ▸ Still.refl m
  | cons i is ih =>
      simp only [Host.startHomesAdwd, bind_eq_ok] at h
      obtain ⟨m₁, h₁, hrest⟩ := h
      exact (still_startHomeAdwd h₁).trans (ih hrest)

theorem still_startHomes {barr : Bool} (h : Host.startHomes cfg barr m = .ok m') : Still m m' := by
  unfold Host.startHomes at h
  split at h
  · exact still_startHomesAdwd h
  · exact still_startHome h

theorem still_vectorHome {i : Nat} (h : Host.vectorHome cfg pid m i = .ok m') : Still m m' := by
  unfold Host.vectorHome at h
  simp only at h
  split at h
  · split at h
    · cases h
    · exact Except.ok.inj h ▸ still_setHome rfl rfl
  · exact Except.ok.inj h ▸ Still.refl m

/-! ## Serving pages and diffs -/

theorem still_applyDiffs {src : Nat} {ds : List PageDiff}
    (h : applyDiffs cfg src m ds = .ok m') : Still m m' := by
  induction ds generalizing m with
  | nil =>
      simp only [applyDiffs, Except.ok.injEq] at h
      exact h ▸ Still.refl m
  | cons d ds ih =>
      simp only [applyDiffs, bind_eq_ok] at h
      obtain ⟨m₁, hd, hrest⟩ := h
      have happ := applyDiff_ok hd
      refine Still.trans ⟨⟨?_, ?_, happ.home_addr, happ.home_rdnt, happ.homesize⟩, ⟨?_, ?_⟩,
        happ.getpwait⟩ (ih hrest)
      · intro p
        rw [happ.page]
      · intro p
        rw [happ.page]
      · intro p
        rw [happ.page]
      · intro c
        rw [happ.cache]

theorem still_copyPage {p : Nat} {pg : Page} (h : m.copyPage cfg pid p = .ok (m', pg)) :
    Still m m' := by
  unfold copyPage at h
  split at h
  · simp only [pure, Except.pure, Except.ok.injEq, Prod.mk.injEq] at h
    exact h.1 ▸ Still.refl m
  · simp only [bind_eq_ok, pure, Except.pure, Except.ok.injEq, Prod.mk.injEq] at h
    obtain ⟨-, -, m₁, hf, rfl, -⟩ := h
    exact still_homeFault hf

/-- The requested page is not read when none of its blocks is asked for. -/
theorem still_copyUnless {c : Prop} [Decidable c] {p : Nat} {pg : Page}
    (h : (if c then .ok (m, zeroPage) else m.copyPage cfg pid p) = .ok (m', pg)) :
    Still m m' := by
  by_cases hc : c
  · rw [if_pos hc, Except.ok.injEq, Prod.mk.injEq] at h
    exact h.1 ▸ Still.refl m
  · rw [if_neg hc] at h
    exact still_copyPage h

theorem still_renewTwin {homei : Nat} (h : m.renewTwin cfg pid homei = .ok m') : Still m m' := by
  unfold renewTwin at h
  split at h
  · simp only [bind_eq_ok, Prod.exists, pure, Except.pure, Except.ok.injEq] at h
    obtain ⟨m₁, twin, hcopy, rfl⟩ := h
    have h₀ : Still m (m.setHome homei { m.home homei with wvfull := false }) :=
      still_setHome rfl rfl
    exact (h₀.trans (still_copyPage hcopy)).trans (still_setHome rfl rfl)
  · exact Except.ok.inj h ▸ Still.refl m

theorem still_copyPages {ps : List Nat} {xs : List ExtraPage}
    (h : m.copyPages cfg pid ps = .ok (m', xs)) :
    Still m m' ∧ xs.map ExtraPage.addr = ps.map cfg.pageAddr := by
  induction ps generalizing m xs with
  | nil =>
      simp only [copyPages, Except.ok.injEq, Prod.mk.injEq] at h
      obtain ⟨rfl, rfl⟩ := h
      exact ⟨Still.refl m, rfl⟩
  | cons p ps ih =>
      simp only [copyPages, bind_eq_ok, Prod.exists, pure, Except.pure, Except.ok.injEq,
        Prod.mk.injEq] at h
      obtain ⟨m₁, pg, hcopy, m₂, rest, hrest, rfl, rfl⟩ := h
      obtain ⟨hstill, hmap⟩ := ih hrest
      exact ⟨(still_copyPage hcopy).trans hstill, by simp [hmap]⟩

/-- Serving a page sets reader flags and changes nothing else of the tables. -/
structure Flagged (m m' : MemState) : Prop where
  homepid : ∀ p, (m'.page p).homepid = (m.page p).homepid
  homei : ∀ p, (m'.page p).homei = (m.page p).homei
  addr : ∀ i, (m'.home i).addr = (m.home i).addr
  homesize : m'.homesize = m.homesize
  rdnt : ∀ i, (m.home i).rdnt = true → (m'.home i).rdnt = true
  cache : SameCache m m'
  getpwait : m'.getpwait = m.getpwait

theorem Still.flagged (h : Still m m') : Flagged m m' where
  homepid := h.home.homepid
  homei := h.home.homei
  addr := h.home.addr
  homesize := h.home.homesize
  rdnt i hi := (h.home.rdnt i).trans hi
  cache := h.cache
  getpwait := h.getpwait

theorem Flagged.trans (h : Flagged m m') (h' : Flagged m' m'') : Flagged m m'' where
  homepid p := (h'.homepid p).trans (h.homepid p)
  homei p := (h'.homei p).trans (h.homei p)
  addr i := (h'.addr i).trans (h.addr i)
  homesize := h'.homesize.trans h.homesize
  rdnt i hi := h'.rdnt i (h.rdnt i hi)
  cache := h.cache.trans h'.cache
  getpwait := h'.getpwait.trans h.getpwait

theorem flagged_setRdnt (m : MemState) (i : Nat) :
    Flagged m (m.setHome i { m.home i with rdnt := true }) := by
  refine ⟨fun _ => rfl, fun _ => rfl, ?_, rfl, ?_, ⟨fun _ => rfl, fun _ => rfl⟩, rfl⟩
  · intro j
    by_cases hj : j = i
    · simp [hj]
    · simp [hj]
  · intro j hr
    by_cases hj : j = i
    · simp [hj]
    · simpa [hj] using hr

/-- Every prefetched page is a home page of the host, and its flag is set. -/
theorem prefetchLoop_ok {k p num : Nat} {acc ps : List Nat}
    (h : prefetchLoop cfg pid k m p num acc = .ok (m', ps)) :
    Flagged m m' ∧ ∀ q ∈ ps, q ∈ acc ∨ ((m.page q).homepid = pid ∧
      (m.page q).homei < Homepages ∧ m'.rdnt q = true) := by
  induction k generalizing m p num acc with
  | zero =>
      simp only [prefetchLoop, Except.ok.injEq, Prod.mk.injEq] at h
      obtain ⟨rfl, rfl⟩ := h
      exact ⟨(Still.refl m).flagged, fun q hq => Or.inl hq⟩
  | succ k ih =>
      simp only [prefetchLoop, bind_eq_ok, defined_eq_ok] at h
      obtain ⟨-, -, h⟩ := h
      split at h
      · rename_i hp
        simp only [bind_eq_ok, defined_eq_ok] at h
        obtain ⟨-, hlt, -, -, h⟩ := h
        have hflag := flagged_setRdnt m (m.page p).homei
        have hset : (m.setHome (m.page p).homei
            { m.home (m.page p).homei with rdnt := true }).rdnt p = true := by
          simp [MemState.rdnt]
        split at h
        · simp only [pure, Except.pure, Except.ok.injEq, Prod.mk.injEq] at h
          obtain ⟨rfl, rfl⟩ := h
          refine ⟨hflag, ?_⟩
          intro q hq
          rcases List.mem_append.mp hq with hq | hq
          · exact Or.inl hq
          · rw [List.mem_singleton.mp hq]
            exact Or.inr ⟨hp.1, hlt, hset⟩
        · obtain ⟨hrest, hps⟩ := ih h
          refine ⟨hflag.trans hrest, ?_⟩
          intro q hq
          rcases hps q hq with hq | ⟨hq, hi, hr⟩
          · rcases List.mem_append.mp hq with hq | hq
            · exact Or.inl hq
            · rw [List.mem_singleton.mp hq]
              refine Or.inr ⟨hp.1, hlt, ?_⟩
              unfold MemState.rdnt at hset ⊢
              rw [hrest.homei]
              exact hrest.rdnt _ hset
          · exact Or.inr ⟨hq, hi, hr⟩
      · exact ih h

/-- What `getpserver` does to the tables, and what it sends. -/
structure Serves (cfg : Config) (pid src : Nat) (addr : Addr) (m m' : MemState) (out : Out) :
    Prop where
  flagged : Flagged m m'
  own : m.homehost cfg addr = pid
  flag : m'.rdnt (cfg.pagei addr) = true
  out : ∃ wv data xs, out = [(src, .getpgrant addr wv data xs)] ∧ ∀ x ∈ xs,
    ∃ q, x.addr = cfg.pageAddr q ∧ (m.page q).homepid = pid ∧ (m.page q).homei < Homepages ∧
      m'.rdnt q = true

/-- What `getpserver` does when it answers. -/
theorem getpserver_steps {src : Nat} {addr : Addr} {temp : Bool} {out : Out}
    (h : m.getpserver cfg pid src addr temp = .ok (m', out)) :
    m.homehost cfg addr = pid ∧ ∃ m₁ m₂ m₃ ps pg xs wv data,
      m.renewTwin cfg pid (m.homepage cfg addr) = .ok m₁ ∧
      (m₁.setHome (m.homepage cfg addr)
        { m₁.home (m.homepage cfg addr) with rdnt := true }).prefetch cfg pid (cfg.pagei addr) =
          .ok (m₂, ps) ∧
      (if wv = 0 then .ok (m₂, zeroPage) else m₂.copyPage cfg pid (cfg.pagei addr)) =
        .ok (m₃, pg) ∧
      copyPages cfg pid m₃ ps = .ok (m', xs) ∧ out = [(src, .getpgrant addr wv data xs)] := by
  unfold getpserver at h
  simp only at h
  split at h
  · cases h
  · simp only [bind_eq_ok, jiaAssert_eq_ok, defined_eq_ok, Prod.exists, pure, Except.pure,
      Except.ok.injEq, Prod.mk.injEq] at h
    obtain ⟨-, hown, -, -, m₁, hrenew, m₂, ps, hpre, m₃, pg, hcopy, m₄, xs, hxs, -, -, rfl, hout⟩ := h
    exact ⟨hown, m₁, m₂, m₃, ps, pg, xs, _, _, hrenew, hpre, hcopy, hxs, hout.symm⟩

theorem getpserver_ok {src : Nat} {addr : Addr} {temp : Bool} {out : Out}
    (h : m.getpserver cfg pid src addr temp = .ok (m', out)) :
    Serves cfg pid src addr m m' out := by
  obtain ⟨hown, m₁, m₂, m₃, ps, pg, xs, wv, data, htwin, hpre, hcopy, hxs, rfl⟩ :=
    getpserver_steps h
  have h₁ := (still_renewTwin htwin).flagged
  have h₂ := flagged_setRdnt m₁ (m.homepage cfg addr)
  have hset : (m₁.setHome (m.homepage cfg addr)
      { m₁.home (m.homepage cfg addr) with rdnt := true }).rdnt (cfg.pagei addr) = true := by
    unfold MemState.rdnt
    rw [h₂.homei, h₁.homei]
    simp [homepage]
  -- the prefetched pages
  have hpages : Flagged (m₁.setHome (m.homepage cfg addr)
      { m₁.home (m.homepage cfg addr) with rdnt := true }) m₂ ∧
      ∀ q ∈ ps, (m.page q).homepid = pid ∧ (m.page q).homei < Homepages ∧
        m₂.rdnt q = true := by
    unfold prefetch at hpre
    split at hpre
    · obtain ⟨hf, hps⟩ := prefetchLoop_ok hpre
      refine ⟨hf, ?_⟩
      intro q hq
      rcases hps q hq with hq | ⟨hq, hi, hr⟩
      · cases hq
      · refine ⟨?_, ?_, hr⟩
        · rw [← h₁.homepid, ← h₂.homepid, hq]
        · rwa [h₂.homei, h₁.homei] at hi
    · simp only [Except.ok.injEq, Prod.mk.injEq] at hpre
      obtain ⟨rfl, rfl⟩ := hpre
      exact ⟨(Still.refl _).flagged, by simp⟩
  have h₃ : Still m₂ m₃ := still_copyUnless hcopy
  obtain ⟨h₄, hmap⟩ := still_copyPages hxs
  have hend := h₃.trans h₄
  refine ⟨((h₁.trans h₂).trans hpages.1).trans hend.flagged, hown, ?_, _, _, xs, rfl, ?_⟩
  · unfold MemState.rdnt at hset ⊢
    rw [hend.home.homei, hend.home.rdnt, hpages.1.homei]
    exact hpages.1.rdnt _ hset
  · intro x hx
    have hmem : x.addr ∈ ps.map cfg.pageAddr := by
      rw [← hmap]
      exact List.mem_map_of_mem hx
    obtain ⟨q, hq, heq⟩ := List.mem_map.mp hmem
    obtain ⟨hqp, hqi, hqr⟩ := hpages.2 q hq
    exact ⟨q, heq.symm, hqp, hqi, by rw [hend.home.rdnt_eq, hqr]⟩

/-! ## Installing and dropping copies -/

/-- What a step may do to the cache: `new` tells which pages may get a copy. -/
structure Recached (cfg : Config) (new : Nat → Prop) (m m' : MemState) : Prop where
  home : SameHome m m'
  cache : m'.CacheTables cfg
  cached : ∀ q < cfg.npages, m'.Cached cfg q → m.Cached cfg q ∨ new q

theorem Recached.refl {new : Nat → Prop} (ht : m.CacheTables cfg) : Recached cfg new m m :=
  ⟨SameHome.refl m, ht, fun _ _ h => Or.inl h⟩

theorem Recached.trans {new : Nat → Prop} (h : Recached cfg new m m')
    (h' : Recached cfg new m' m'') : Recached cfg new m m'' where
  home := h.home.trans h'.home
  cache := h'.cache
  cached q hq hc := by
    rcases h'.cached q hq hc with hc | hn
    · exact h.cached q hq hc
    · exact Or.inr hn

theorem installExtra_ok (ht : m.CacheTables cfg) {x : ExtraPage} {seti : Nat}
    (hx : cfg.IsPage x.addr) (h : m.installExtra cfg x seti = .ok m') :
    Recached cfg (fun q => x.addr = cfg.pageAddr q) m m' ∧ m'.getpwait = m.getpwait := by
  obtain ⟨p, hp, hxp⟩ := hx
  unfold installExtra at h
  simp only [hxp, cfg.pagei_pageAddr hp] at h
  split at h
  · exact Except.ok.inj h ▸ ⟨Recached.refl ht, rfl⟩
  · split at h
    · exact Except.ok.inj h ▸ ⟨Recached.refl ht, rfl⟩
    · rename_i s m₁ hfind
      obtain ⟨-, rfl⟩ := memprotect_eq_ok.mp h
      have hready : Ready cfg p s m ((m₁.memmap p .readWrite).setMem p x.data) :=
        (findposition_ready ht hfind).congr rfl rfl rfl rfl
      obtain ⟨hhome, hcache, hcached⟩ := hready.place hp
        (e := { ((m₁.memmap p .readWrite).setMem p x.data).cache s with
          addr := cfg.pageAddr p, state := .ro }) rfl (Or.inl rfl)
      have hwait : m₁.getpwait = m.getpwait := findposition_getpwait hfind
      refine ⟨⟨?_, ?_, ?_⟩, hwait⟩
      · exact ⟨hhome.homepid, hhome.homei, hhome.addr, hhome.rdnt, hhome.homesize⟩
      · exact ⟨hcache.slot, hcache.dirty⟩
      · intro q hq hc
        by_cases hqp : q = p
        · subst hqp
          exact Or.inr hxp
        · exact Or.inl (hcached q hq hqp hc)

theorem installExtras_ok {xs : List ExtraPage} {rnd : List Nat} (ht : m.CacheTables cfg)
    (hxs : ∀ x ∈ xs, cfg.IsPage x.addr) (h : installExtras cfg m xs rnd = .ok m') :
    Recached cfg (fun q => ∃ x ∈ xs, x.addr = cfg.pageAddr q) m m' ∧
      m'.getpwait = m.getpwait := by
  induction xs generalizing m rnd with
  | nil =>
      simp only [installExtras, Except.ok.injEq] at h
      exact h ▸ ⟨Recached.refl ht, rfl⟩
  | cons x xs ih =>
      simp only [installExtras, bind_eq_ok] at h
      obtain ⟨m₁, hone, hrest⟩ := h
      obtain ⟨h₁, hw₁⟩ := installExtra_ok ht (hxs x List.mem_cons_self) hone
      obtain ⟨h₂, hw₂⟩ := ih h₁.cache (fun y hy => hxs y (List.mem_cons_of_mem _ hy)) hrest
      refine ⟨⟨h₁.home.trans h₂.home, h₂.cache, ?_⟩, hw₂.trans hw₁⟩
      intro q hq hc
      rcases h₂.cached q hq hc with hc | ⟨y, hy, ha⟩
      · rcases h₁.cached q hq hc with hc | ha
        · exact Or.inl hc
        · exact Or.inr ⟨x, List.mem_cons_self, ha⟩
      · exact Or.inr ⟨y, List.mem_cons_of_mem _ hy, ha⟩

theorem getpgrantserver_ok {addr : Addr} {wv : BitVec Wvbits} {data : Page}
    {xs : List ExtraPage} {rnd : List Nat} (ht : m.CacheTables cfg)
    (hxs : ∀ x ∈ xs, cfg.IsPage x.addr)
    (h : m.getpgrantserver cfg addr wv data xs rnd = .ok m') :
    Recached cfg (fun q => ∃ x ∈ xs, x.addr = cfg.pageAddr q) m m' ∧ m'.getpwait = false := by
  simp only [getpgrantserver, bind_eq_ok, defined_eq_ok, pure, Except.pure,
    Except.ok.injEq] at h
  obtain ⟨-, -, m₁, hinst, rfl⟩ := h
  have ht₀ : (m.setMem (cfg.pagei addr) (if cfg.wVec = true ∧ wv ≠ WVFULL then
      maskPage wv data (m.mem (cfg.pagei addr)) else data)).CacheTables cfg := ⟨ht.slot, ht.dirty⟩
  obtain ⟨h₁, -⟩ := installExtras_ok ht₀ hxs hinst
  refine ⟨⟨?_, ?_, ?_⟩, rfl⟩
  · exact ⟨h₁.home.homepid, h₁.home.homei, h₁.home.addr, h₁.home.rdnt, h₁.home.homesize⟩
  · exact ⟨h₁.cache.slot, h₁.cache.dirty⟩
  · exact fun q hq hc => h₁.cached q hq hc

/-- The first branch of `invalidate` drops the copy of a page that another host has
written. -/
theorem invalidateCopy_ok (ht : m.CacheTables cfg) {n : GrantNotice} {p : Nat}
    (hp : p < cfg.npages) (hn : n.addr = cfg.pageAddr p)
    (h : Host.invalidateCopy cfg pid m n = .ok m') :
    Recached cfg (fun _ => False) m m' ∧ m'.getpwait = m.getpwait ∧
      (n.fromPid ≠ pid → (m.page p).homepid ≠ pid → ¬ m'.Cached cfg p) := by
  unfold Host.invalidateCopy at h
  simp only [cachepage, homehost, hn, cfg.pagei_pageAddr hp] at h
  split at h
  · rename_i hc
    obtain ⟨-, rfl⟩ := memprotect_eq_ok.mp h
    obtain ⟨-, -, hlt, -⟩ := hc
    -- the page has its slot to itself
    have hown : ∀ q < cfg.npages, q ≠ p → (m.page q).cachei < cfg.cachepages →
        (m.page q).cachei ≠ (m.page p).cachei := (ready_kept ht hp hlt).free
    refine ⟨⟨⟨fun _ => rfl, fun _ => rfl, fun _ => rfl, fun _ => rfl, rfl⟩, ⟨?_, ?_⟩, ?_⟩, rfl, ?_⟩
    · intro q hq hqlt
      simp only [setProt_page, setCache_page, setProt_cache, setCache_cache] at hqlt ⊢
      by_cases hqp : q = p
      · subst hqp
        simp only [upd_same]
        exact ⟨(ht.slot q hq hqlt).1, by simp⟩
      · rw [upd_of_ne _ _ (hown q hq hqp hqlt)]
        exact ht.slot q hq hqlt
    · intro c hlt' hw
      simp only [setProt_cache, setCache_cache] at hw ⊢
      by_cases hcp : c = (m.page p).cachei
      · subst hcp
        simp only [upd_same] at hw
        cases hw
      · rw [upd_of_ne _ _ hcp] at hw ⊢
        exact ht.dirty c hlt' hw
    · intro q hq hcq
      obtain ⟨hqlt, hst⟩ := hcq
      simp only [setProt_page, setCache_page, setProt_cache, setCache_cache] at hqlt hst
      by_cases hqp : q = p
      · subst hqp
        simp at hst
      · rw [upd_of_ne _ _ (hown q hq hqp hqlt)] at hst
        exact Or.inl ⟨hqlt, hst⟩
    · intro _ _ hcp
      have hst := hcp.2
      simp at hst
  · rename_i hc
    simp only [pure, Except.pure, Except.ok.injEq] at h
    subst h
    refine ⟨Recached.refl ht, rfl, ?_⟩
    intro hfrom hhome hcp
    refine hc ⟨hfrom, hhome, hcp.1, ?_⟩
    rcases hcp.2 with hst | hst <;> simp [hst]

end MemState

end Jiajia
