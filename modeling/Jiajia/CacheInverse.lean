import Jiajia.HostRuns
import Jiajia.FindSlot

/-!
# The cache table is the inverse of the page table

`page[].cachei` says which slot a page has, `cache[].addr` which page is in a slot.
Both sides are written piecemeal by the fault handler, `flushpage`, `invalidate`
and `migpage`.  Without prefetching each of them leaves the two inverse.
-/

namespace Jiajia

open Transition Host

namespace MemState

variable {cfg : Config} {pid : Nat} {m m' : MemState}

/-- Slot `c` is in use for page `p`. -/
def Holds (cfg : Config) (m : MemState) (c p : Nat) : Prop :=
  (m.cache c).state ≠ .unmap ∧ (m.cache c).addr = cfg.pageAddr p

/-- `page[].cachei` and `cache[]` are inverse, and a slot in use has the address of a page. -/
structure Linked (cfg : Config) (m : MemState) : Prop where
  slot : ∀ p < cfg.npages, ∀ c < cfg.cachepages, (m.page p).cachei = c ↔ m.Holds cfg c p
  page : ∀ c < cfg.cachepages, (m.cache c).state ≠ .unmap → cfg.IsPage (m.cache c).addr

/-- Only slots in use are written, and a page has no slot on its home. -/
structure CacheInverse (cfg : Config) (pid : Nat) (m : MemState) : Prop extends Linked cfg m where
  wtnt : ∀ c < cfg.cachepages, (m.cache c).state = .unmap → (m.cache c).wtnt = false
  home : ∀ p < cfg.npages, (m.page p).homepid = pid → cfg.cachepages ≤ (m.page p).cachei

theorem cacheInverse_initmem (pid : Nat) : CacheInverse cfg pid (initmem cfg pid) where
  slot _ _ c hc := by
    constructor
    · intro heq
      exact absurd hc (not_lt.mpr (le_of_eq heq))
    · exact fun hholds => absurd rfl hholds.1
  page _ _ hst := absurd rfl hst
  wtnt _ _ _ := rfl
  home _ _ _ := le_refl _

/-- The two tables as far as they name each other. -/
structure SameLinks (m m' : MemState) : Prop where
  cachei : ∀ p, (m'.page p).cachei = (m.page p).cachei
  homepid : ∀ p, (m'.page p).homepid = (m.page p).homepid
  addr : ∀ c, (m'.cache c).addr = (m.cache c).addr
  state : ∀ c, (m'.cache c).state = .unmap ↔ (m.cache c).state = .unmap
  wtnt : ∀ c, (m'.cache c).state = .unmap → (m'.cache c).wtnt = (m.cache c).wtnt

theorem SameLinks.of_tables (hpage : m'.page = m.page) (hcache : m'.cache = m.cache) :
    SameLinks m m' := by
  constructor
  all_goals
    intro x
    first | rw [hpage] | rw [hcache]
  intro _
  rfl

theorem Still.links (h : Still m m') : SameLinks m m' where
  cachei := h.cache.cachei
  homepid := h.home.homepid
  addr c := by rw [h.cache.cache]
  state c := by rw [h.cache.cache]
  wtnt c _ := by rw [h.cache.cache]

/-! ## Single updates -/

namespace Linked

theorem congr (hi : Linked cfg m) (hcachei : ∀ p, (m'.page p).cachei = (m.page p).cachei)
    (haddr : ∀ c, (m'.cache c).addr = (m.cache c).addr)
    (hstate : ∀ c, (m'.cache c).state = .unmap ↔ (m.cache c).state = .unmap) :
    Linked cfg m' where
  slot p hp c hc := by
    unfold Holds
    rw [hcachei, haddr, ne_eq, hstate]
    exact hi.slot p hp c hc
  page c hc hst := by
    rw [haddr]
    exact hi.page c hc (mt (hstate c).mpr hst)

/-- Page `p` gives up slot `c`. -/
theorem unlink (hi : Linked cfg m) {c p : Nat} (hp : p < cfg.npages)
    (hc : c < cfg.cachepages) (hpc : (m.page p).cachei = c)
    (hpage : ∀ q, q ≠ p → (m'.page q).cachei = (m.page q).cachei)
    (hnone : cfg.cachepages ≤ (m'.page p).cachei)
    (hcache : ∀ d, d ≠ c → m'.cache d = m.cache d)
    (hst : (m'.cache c).state = .unmap) : Linked cfg m' where
  slot q hq d hd := by
    by_cases hqp : q = p
    · rw [hqp]
      constructor
      · intro heq
        omega
      · intro hholds
        by_cases hdc : d = c
        · rw [hdc] at hholds
          exact absurd hst hholds.1
        · -- the page was in no other slot
          unfold Holds at hholds
          rw [hcache d hdc] at hholds
          have hpd := (hi.slot p hp d hd).mpr hholds
          omega
    · rw [hpage q hqp]
      by_cases hdc : d = c
      · subst hdc
        constructor
        · intro heq
          have hq' := ((hi.slot q hq d hd).mp heq).2
          have hp' := ((hi.slot p hp d hd).mp hpc).2
          exact absurd (cfg.pageAddr_inj hq hp (hq'.symm.trans hp')) hqp
        · exact fun hholds => absurd hst hholds.1
      · unfold Holds
        rw [hcache d hdc]
        exact hi.slot q hq d hd
  page d hd hne := by
    have hdc : d ≠ c := fun heq => hne (heq ▸ hst)
    rw [hcache d hdc] at hne ⊢
    exact hi.page d hd hne

/-- Page `p` takes the unused slot `c`. -/
theorem link (hi : Linked cfg m) {c p : Nat} (hp : p < cfg.npages)
    (hc : c < cfg.cachepages) (hun : (m.cache c).state = .unmap)
    (hfree : cfg.cachepages ≤ (m.page p).cachei)
    (hpage : ∀ q, q ≠ p → (m'.page q).cachei = (m.page q).cachei)
    (hpc : (m'.page p).cachei = c)
    (hcache : ∀ d, d ≠ c → m'.cache d = m.cache d)
    (hst : (m'.cache c).state ≠ .unmap) (ha : (m'.cache c).addr = cfg.pageAddr p) :
    Linked cfg m' where
  slot q hq d hd := by
    by_cases hdc : d = c
    · subst hdc
      by_cases hqp : q = p
      · rw [hqp]
        exact iff_of_true hpc ⟨hst, ha⟩
      · rw [hpage q hqp]
        constructor
        · intro heq
          exact absurd hun ((hi.slot q hq d hd).mp heq).1
        · intro hholds
          exact absurd (cfg.pageAddr_inj hq hp (hholds.2.symm.trans ha)) hqp
    · have hsame : m'.Holds cfg d q ↔ m.Holds cfg d q := by
        unfold Holds
        rw [hcache d hdc]
      rw [hsame]
      by_cases hqp : q = p
      · rw [hqp, hpc]
        constructor
        · exact fun heq => absurd heq.symm hdc
        · intro hholds
          have hpd := (hi.slot p hp d hd).mpr hholds
          omega
      · rw [hpage q hqp]
        exact hi.slot q hq d hd
  page d hd hne := by
    by_cases hdc : d = c
    · rw [hdc, ha]
      exact ⟨p, hp, rfl⟩
    · rw [hcache d hdc] at hne ⊢
      exact hi.page d hd hne

/-- The page in a slot that is in use. -/
theorem owner (hi : Linked cfg m) {c : Nat} (hc : c < cfg.cachepages)
    (hst : (m.cache c).state ≠ .unmap) : ∃ p < cfg.npages, (m.page p).cachei = c ∧
      (m.cache c).addr = cfg.pageAddr p := by
  obtain ⟨p, hp, ha⟩ := hi.page c hc hst
  exact ⟨p, hp, (hi.slot p hp c hc).mpr ⟨hst, ha⟩, ha⟩

end Linked

namespace CacheInverse

theorem congr (hi : CacheInverse cfg pid m) (h : SameLinks m m') : CacheInverse cfg pid m' where
  toLinked := hi.toLinked.congr h.cachei h.addr h.state
  wtnt c hc hst := by
    rw [h.wtnt c hst]
    exact hi.wtnt c hc ((h.state c).mp hst)
  home p hp := by
    rw [h.homepid, h.cachei]
    exact hi.home p hp

/-- Another entry for a slot in use, for the same page. -/
theorem setCache (hi : CacheInverse cfg pid m) {c : Nat} {e : CacheEntry}
    (hst : (m.cache c).state ≠ .unmap) (hst' : e.state ≠ .unmap)
    (ha : e.addr = (m.cache c).addr) : CacheInverse cfg pid (m.setCache c e) := by
  apply hi.congr
  refine ⟨fun _ => rfl, fun _ => rfl, ?_, ?_, ?_⟩
  · intro d
    rw [setCache_cache, upd_apply]
    split
    · rename_i hd
      rw [hd, ha]
    · rfl
  · intro d
    rw [setCache_cache, upd_apply]
    split
    · rename_i hd
      rw [hd]
      exact iff_of_false hst' hst
    · rfl
  · intro d
    rw [setCache_cache, upd_apply]
    split
    · exact fun hun => absurd hun hst'
    · exact fun _ => rfl

/-- Another home for page `p`, which has no slot if that is this host. -/
theorem setHomepid (hi : CacheInverse cfg pid m) (p : Nat) {homepid : Nat}
    (hfree : homepid = pid → cfg.cachepages ≤ (m.page p).cachei) :
    CacheInverse cfg pid (m.setPage p { m.page p with homepid := homepid }) where
  toLinked := by
    refine hi.toLinked.congr ?_ (fun _ => rfl) fun _ => Iff.rfl
    intro q
    rw [setPage_page, upd_apply]
    split
    · rename_i hqp
      rw [hqp]
    · rfl
  wtnt := hi.wtnt
  home q hq := by
    rw [setPage_page, upd_apply]
    split
    · exact hfree
    · exact hi.home q hq

theorem unlink (hi : CacheInverse cfg pid m) {c p : Nat} (hp : p < cfg.npages)
    (hc : c < cfg.cachepages) (hpc : (m.page p).cachei = c)
    (hpage : ∀ q, q ≠ p → (m'.page q).cachei = (m.page q).cachei)
    (hnone : cfg.cachepages ≤ (m'.page p).cachei)
    (hpid : ∀ q, q ≠ p → (m'.page q).homepid = (m.page q).homepid)
    (hcache : ∀ d, d ≠ c → m'.cache d = m.cache d)
    (hst : (m'.cache c).state = .unmap) (hw : (m'.cache c).wtnt = false) :
    CacheInverse cfg pid m' where
  toLinked := hi.toLinked.unlink hp hc hpc hpage hnone hcache hst
  wtnt d hd hun := by
    by_cases hdc : d = c
    · rw [hdc, hw]
    · rw [hcache d hdc] at hun ⊢
      exact hi.wtnt d hd hun
  home q hq hhome := by
    by_cases hqp : q = p
    · rw [hqp]
      exact hnone
    · rw [hpid q hqp] at hhome
      rw [hpage q hqp]
      exact hi.home q hq hhome

theorem link (hi : CacheInverse cfg pid m) {c p : Nat} (hp : p < cfg.npages)
    (hc : c < cfg.cachepages) (hun : (m.cache c).state = .unmap)
    (hfree : cfg.cachepages ≤ (m.page p).cachei)
    (hpage : ∀ q, q ≠ p → (m'.page q).cachei = (m.page q).cachei)
    (hpc : (m'.page p).cachei = c)
    (hpid : ∀ q, q ≠ p → (m'.page q).homepid = (m.page q).homepid)
    (haway : (m'.page p).homepid ≠ pid)
    (hcache : ∀ d, d ≠ c → m'.cache d = m.cache d)
    (hst : (m'.cache c).state ≠ .unmap) (ha : (m'.cache c).addr = cfg.pageAddr p) :
    CacheInverse cfg pid m' where
  toLinked := hi.toLinked.link hp hc hun hfree hpage hpc hcache hst ha
  wtnt d hd hdun := by
    have hdc : d ≠ c := fun heq => hst (heq ▸ hdun)
    rw [hcache d hdc] at hdun ⊢
    exact hi.wtnt d hd hdun
  home q hq hhome := by
    by_cases hqp : q = p
    · rw [hqp] at hhome
      exact absurd hhome haway
    · rw [hpid q hqp] at hhome
      rw [hpage q hqp]
      exact hi.home q hq hhome

end CacheInverse

/-! ## Eviction -/

/-- `flushpage` unmaps page `p` and takes slot `c` from it, and does nothing else to the
tables and the mappings. -/
structure Unlinks (cfg : Config) (c p : Nat) (m m' : MemState) : Prop where
  owner : (m.page p).cachei = c
  prot : m'.prot = upd m.prot p .unmapped
  cachei : ∀ q, (m'.page q).cachei = if q = p then cfg.cachepages else (m.page q).cachei
  homepid : ∀ q, (m'.page q).homepid = (m.page q).homepid
  cache : ∀ d, d ≠ c → m'.cache d = m.cache d
  state : (m'.cache c).state = .unmap
  wtnt : (m'.cache c).wtnt = false

theorem flushpage_unlinks {c p : Nat} (hp : p < cfg.npages) (hpc : (m.page p).cachei = c)
    (ha : (m.cache c).addr = cfg.pageAddr p) : Unlinks cfg c p m (m.flushpage cfg c) where
  owner := hpc
  prot := by simp only [flushpage, ha, cfg.pagei_pageAddr hp]; rfl
  cachei q := by
    simp only [flushpage, ha, cfg.pagei_pageAddr hp, setCache_page, setPage_page, upd_apply,
      memunmap, setProt_page]
    split <;> rfl
  homepid q := (flushpage_sameHome c).homepid q
  cache d hd := by simp only [flushpage, setCache_cache, upd_of_ne _ _ hd]; rfl
  state := by simp only [flushpage, setCache_cache, upd_same]
  wtnt := by simp only [flushpage, setCache_cache, upd_same]

namespace CacheInverse

theorem flushpage (hi : CacheInverse cfg pid m) {c : Nat} (hc : c < cfg.cachepages)
    (hst : (m.cache c).state ≠ .unmap) : CacheInverse cfg pid (m.flushpage cfg c) ∧
      ∀ p, cfg.cachepages ≤ (m.page p).cachei →
        cfg.cachepages ≤ ((m.flushpage cfg c).page p).cachei := by
  obtain ⟨q, hq, hqc, ha⟩ := hi.toLinked.owner hc hst
  have hun := flushpage_unlinks hq hqc ha
  constructor
  · refine hi.unlink hq hc hqc ?_ ?_ (fun p _ => hun.homepid p) hun.cache hun.state hun.wtnt
    · intro p hpq
      rw [hun.cachei, if_neg hpq]
    · rw [hun.cachei, if_pos rfl]
  · intro p hfree
    rw [hun.cachei]
    split
    · exact le_refl _
    · exact hfree

/-- `findposition` leaves an unused slot, which page `p` is to take. -/
theorem findposition (hi : CacheInverse cfg pid m) {p seti s : Nat}
    (hfree : cfg.cachepages ≤ (m.page p).cachei)
    (h : m.findposition cfg p seti = some (s, m')) : ∃ m₁, CacheInverse cfg pid m₁ ∧
      s < cfg.cachepages ∧ (m₁.cache s).state = .unmap ∧ cfg.cachepages ≤ (m₁.page p).cachei ∧
      (∀ q, (m₁.page q).homepid = (m.page q).homepid) ∧
      m' = m₁.setPage p { m₁.page p with cachei := s } := by
  have hlt : s < cfg.cachepages := by
    rw [(findposition_some h).1]
    exact (findSlot_settles cfg m seti).1
  by_cases hst : (m.cache s).state = .unmap
  · refine ⟨m, hi, hlt, hst, hfree, fun _ => rfl, ?_⟩
    unfold MemState.findposition at h
    rw [(findposition_some h).1] at hst
    simp only [hst, Option.some.injEq, Prod.mk.injEq] at h
    rw [← h.2, ← h.1]
  · obtain ⟨-, -, m₁, hm', hm₁⟩ := findposition_cases h
    have heq : m₁ = m.flushpage cfg s := hm₁.resolve_left fun hcon => hst hcon.2
    rw [heq] at hm'
    obtain ⟨hflush, hkeep⟩ := hi.flushpage hlt hst
    refine ⟨_, hflush, hlt, ?_, hkeep p hfree, (flushpage_sameHome s).homepid, hm'⟩
    simp only [MemState.flushpage, setCache_cache, upd_same]

/-! ## Faults and replies -/

theorem cacheFault (hi : CacheInverse cfg pid m) {p seti : Nat} {w : FaultWait} {out : Out}
    (hp : p < cfg.npages) (haway : (m.page p).homepid ≠ pid)
    (h : m.cacheFault cfg p seti = .ok (m', w, out)) : CacheInverse cfg pid m' := by
  obtain ⟨m₁, s, hslot, rfl, -⟩ := (cacheFault_eq_ok cfg m).mp h
  have hentry : ∀ c, (m.faultEntry cfg p c).state ≠ .unmap := by
    intro c
    cases (faultEntry_spec cfg m p c).2 with
    | inl hro => simp [hro]
    | inr hrw => simp [hrw]
  rcases faultSlot_cases cfg m hslot with ⟨hlt, rfl, -, wait, rfl, -⟩ | ⟨hfree, m₂, hfind, rfl, -⟩
  · -- the page keeps its slot
    have hholds := (hi.slot p hp _ hlt).mp rfl
    have hopen : CacheInverse cfg pid { m.setProt p .readWrite with getpwait := wait } :=
      hi.congr (.of_tables rfl rfl)
    apply hopen.setCache
    · exact hholds.1
    · exact hentry _
    · rw [(faultEntry_spec cfg m p _).1]
      exact hholds.2.symm
  · obtain ⟨m₁, hi₁, hlt, hun, hnone, hpid, rfl⟩ := hi.findposition hfree hfind
    refine hi₁.link hp hlt hun hnone ?_ ?_ ?_ ?_ ?_ ?_ ?_
    · intro q hqp
      simp [memmap, hqp]
    · simp [memmap]
    · intro q hqp
      simp [memmap, hqp]
    · simp only [memmap, setCache_page, setMem_page, setProt_page, setPage_page, upd_same, hpid]
      exact haway
    · intro d hd
      simp [memmap, hd]
    · rw [setCache_cache, upd_same]
      exact hentry _
    · rw [setCache_cache, upd_same]
      exact (faultEntry_spec cfg m p _).1

theorem faultEnd (hi : CacheInverse cfg pid m) {w : FaultWait} (h : m.faultEnd w = .ok m') :
    CacheInverse cfg pid m' := by
  unfold MemState.faultEnd at h
  split at h
  · simp only [pure, Except.pure, Except.ok.injEq] at h
    subst h
    apply hi.congr
    refine ⟨fun _ => rfl, fun _ => rfl, ?_, ?_, ?_⟩
    · intro c
      rw [setCache_cache, upd_apply]
      split
      · rename_i hc
        rw [hc]
      · rfl
    all_goals
      intro c
      rw [setCache_cache, upd_apply]
      split
      · rename_i hc
        simp [hc]
      · simp
  · exact hi.congr (still_memprotect h).links

/-- A reply that carries no more than the page asked for. -/
theorem getpgrantserver (hi : CacheInverse cfg pid m) {addr : Addr} {wv : BitVec Wvbits}
    {data : Page} {rnd : List Nat} (h : m.getpgrantserver cfg addr wv data [] rnd = .ok m') :
    CacheInverse cfg pid m' := by
  simp only [MemState.getpgrantserver, installExtras, bind_eq_ok, pure, Except.pure,
    Except.ok.injEq] at h
  obtain ⟨-, -, m₁, rfl, rfl⟩ := h
  exact hi.congr (.of_tables rfl rfl)

/-! ## Intervals and notices -/

theorem startCache (hi : CacheInverse cfg pid m) (h : Host.startCache cfg m = .ok m') :
    CacheInverse cfg pid m' := by
  simp only [Host.startCache, bind_eq_ok, pure, Except.pure, Except.ok.injEq] at h
  obtain ⟨-, -, rfl⟩ := h
  have hused : ∀ c, c < cfg.cachepages ∧ (m.cache c).wtnt = true → (m.cache c).state ≠ .unmap := by
    rintro c ⟨hc, hw⟩ hun
    rw [hi.wtnt c hc hun] at hw
    cases hw
  apply hi.congr
  refine ⟨fun _ => rfl, fun _ => rfl, ?_, ?_, ?_⟩
  · intro c
    simp only
    split <;> rfl
  · intro c
    simp only
    split
    · rename_i hc
      exact iff_of_false (by simp) (hused c hc)
    · rfl
  · intro c
    simp only
    split
    · intro hun
      cases hun
    · exact fun _ => rfl

theorem startinterval {h h' : Host} (hi : CacheInverse cfg pid h.m) {barr : Bool}
    (hs : h.startinterval cfg barr = .ok h') : CacheInverse cfg pid h'.m := by
  obtain ⟨m₁, m₂, hcache, hhomes, rfl⟩ := startinterval_ok hs
  exact (hi.startCache hcache).congr (still_startHomes hhomes).links

theorem invalidateCopy (hi : CacheInverse cfg pid m) {n : GrantNotice} {p : Nat}
    (hp : p < cfg.npages) (hn : n.addr = cfg.pageAddr p)
    (h : Host.invalidateCopy cfg pid m n = .ok m') :
    CacheInverse cfg pid m' ∧ ∀ q, (m'.page q).homepid = (m.page q).homepid := by
  unfold Host.invalidateCopy at h
  simp only at h
  split at h
  · rename_i hif
    obtain ⟨-, rfl⟩ := memprotect_eq_ok.mp h
    have hlt := hif.2.2.1
    unfold cachepage at hlt
    rw [hn, cfg.pagei_pageAddr hp] at hlt
    have hholds := (hi.slot p hp _ hlt).mp rfl
    refine ⟨?_, fun _ => rfl⟩
    have hset : CacheInverse cfg pid (m.setCache (m.cachepage cfg n.addr)
        { m.cache (m.cachepage cfg n.addr) with state := .inv, wtnt := false }) := by
      refine hi.setCache ?_ (by simp) rfl
      unfold cachepage
      rw [hn, cfg.pagei_pageAddr hp]
      exact hholds.1
    exact hset.congr (.of_tables rfl rfl)
  · exact Except.ok.inj h ▸ ⟨hi, fun _ => rfl⟩

/-! ## Migration -/

/-- The new home gives its copy's slot back. -/
theorem migNewHome (hi : CacheInverse cfg pid m) {p : Nat} (hp : p < cfg.npages)
    (h : m.migNewHome cfg (cfg.pageAddr p) = .ok m') (modifypid : Nat) :
    CacheInverse cfg pid (m'.setPage p { m'.page p with homepid := modifypid }) := by
  obtain ⟨idx, -, -, hlt, hpage, -, -, hcache, -, -⟩ := migNewHome_fields hp h
  refine hi.unlink hp hlt rfl ?_ ?_ ?_ ?_ ?_ ?_
  · intro q hqp
    simp [hpage, hqp]
  · simp [hpage]
  · intro q hqp
    simp [hpage, hqp]
  · intro d hd
    rw [setPage_cache, hcache, if_neg hd]
  · rw [setPage_cache, hcache, if_pos rfl]
  · rw [setPage_cache, hcache, if_pos rfl]

/-- The old home puts the page into the first slot without a valid copy, if there is one. -/
theorem demote (hi : CacheInverse cfg pid m) {p modifypid : Nat} (hp : p < cfg.npages)
    (hhome : (m.page p).homepid = pid) (hne : modifypid ≠ pid) :
    CacheInverse cfg pid ((MemState.demote cfg m (cfg.pageAddr p)).setPage p
      { (MemState.demote cfg m (cfg.pageAddr p)).page p with homepid := modifypid }) := by
  have hfree := hi.home p hp hhome
  -- once the slot is unused the page is put there
  have hplace : ∀ (m₁ : MemState) (s : Nat) (e : CacheEntry), CacheInverse cfg pid m₁ →
      s < cfg.cachepages → (m₁.cache s).state = .unmap → cfg.cachepages ≤ (m₁.page p).cachei →
      e.state = .ro → e.addr = cfg.pageAddr p →
      CacheInverse cfg pid (((m₁.setCache s e).setPage p
        { (m₁.setCache s e).page p with cachei := s }).setPage p
          { ((m₁.setCache s e).setPage p
            { (m₁.setCache s e).page p with cachei := s }).page p with homepid := modifypid }) := by
    intro m₁ s e hi₁ hlt hun hnone hro ha
    refine hi₁.link hp hlt hun hnone ?_ ?_ ?_ ?_ ?_ ?_ ?_
    · intro q hqp
      simp [hqp]
    · simp
    · intro q hqp
      simp [hqp]
    · simpa using hne
    · intro d hd
      simp [hd]
    · simp [hro]
    · simp [ha]
  unfold MemState.demote
  simp only [cfg.pagei_pageAddr hp]
  generalize hidx : firstIdx (fun i => (m.cache i).state == .unmap || (m.cache i).state == .inv)
    cfg.cachepages 0 = s
  split
  · rename_i hlt
    have hfound : (m.cache s).state = .unmap ∨ (m.cache s).state = .inv := by
      have hfirst := firstIdx_found
        (P := fun i => (m.cache i).state == .unmap || (m.cache i).state == .inv)
        (k := cfg.cachepages) (i := 0) (by rw [hidx]; omega)
      rw [hidx] at hfirst
      simpa using hfirst
    by_cases hinv : (m.cache s).state = .inv
    · simp only [hinv, if_true]
      obtain ⟨hflush, hkeep⟩ := hi.flushpage hlt (by simp [hinv])
      refine hplace _ s _ hflush hlt ?_ (hkeep p hfree) rfl rfl
      simp only [MemState.flushpage, setCache_cache, upd_same]
    · simp only [hinv, if_false]
      exact hplace m s _ hi hlt (hfound.resolve_right hinv) hfree rfl rfl
  · -- no room: the page is only unmapped
    have hunmapped : CacheInverse cfg pid (m.memunmap p) := hi.congr (.of_tables rfl rfl)
    exact hunmapped.setHomepid p fun heq => absurd heq hne

theorem migOldHome (hi : CacheInverse cfg pid m) {p modifypid : Nat} (hp : p < cfg.npages)
    (hhome : (m.page p).homepid = pid) (hne : modifypid ≠ pid)
    (h : m.migOldHome cfg (cfg.pageAddr p) = .ok m') :
    CacheInverse cfg pid (m'.setPage p { m'.page p with homepid := modifypid }) := by
  obtain ⟨-, -, hpage, -, -, hcache, -, -⟩ := migOldHome_fields hp h
  apply (hi.demote hp hhome hne).congr
  refine ⟨?_, ?_, ?_, ?_, ?_⟩
  · intro q
    by_cases hqp : q = p
    · simp [hqp, hpage]
    · simp [hqp, hpage]
  · intro q
    by_cases hqp : q = p
    · simp [hqp]
    · simp [hqp, hpage]
  all_goals
    intro c
    rw [setPage_cache, hcache]
    simp

theorem migpage (hi : CacheInverse cfg pid m) {p modifypid : Nat} (hp : p < cfg.npages)
    (h : m.migpage cfg pid (cfg.pageAddr p) (m.page p).homepid modifypid = .ok m') :
    CacheInverse cfg pid m' := by
  simp only [MemState.migpage, bind_eq_ok, pure, Except.pure, Except.ok.injEq,
    cfg.pagei_pageAddr hp] at h
  obtain ⟨m₁, hrole, rfl⟩ := h
  unfold migRole at hrole
  split at hrole
  · exact hi.migNewHome hp hrole modifypid
  · rename_i hnew
    split at hrole
    · rename_i hold
      exact hi.migOldHome hp hold.2 hold.1 hrole
    · rename_i hnot
      obtain rfl := Except.ok.inj hrole
      -- neither the old home nor the new one, or the home as before
      have hwas : modifypid = pid → (m.page p).homepid = pid := by
        intro heq
        by_contra hother
        exact hnew ⟨heq, hother⟩
      exact hi.setHomepid p fun heq => hi.home p hp (hwas heq)

/-- One turn of the loop of `invalidate`. -/
theorem invalidateNotice (hi : CacheInverse cfg pid m) {lock : Nat} {n : GrantNotice}
    (hn : cfg.IsPage n.addr) (h : Host.invalidateNotice cfg pid lock m n = .ok m') :
    CacheInverse cfg pid m' := by
  obtain ⟨p, hp, ha⟩ := hn
  simp only [Host.invalidateNotice, bind_eq_ok] at h
  obtain ⟨m₁, hcopy, m₂, hmig, hmark⟩ := h
  obtain ⟨hi₁, hpid⟩ := hi.invalidateCopy hp ha hcopy
  have hi₂ : CacheInverse cfg pid m₂ := by
    unfold Host.migrateNotice at hmig
    split at hmig
    · have hhome : m₁.homehost cfg n.addr = (m₁.page p).homepid := by
        unfold homehost
        rw [ha, cfg.pagei_pageAddr hp]
      rw [hhome, ha] at hmig
      exact hi₁.migpage hp hmig
    · exact Except.ok.inj hmig ▸ hi₁
  unfold Host.markRemote at hmark
  split at hmark
  · simp only [bind_eq_ok, pure, Except.pure, Except.ok.injEq] at hmark
    obtain ⟨-, -, rfl⟩ := hmark
    exact hi₂.congr (.of_tables rfl rfl)
  · exact Except.ok.inj hmark ▸ hi₂

theorem invalidate (hi : CacheInverse cfg pid m) {lock : Nat} {ns : List GrantNotice}
    (hns : ∀ n ∈ ns, cfg.IsPage n.addr) (h : Host.invalidate cfg pid lock m ns = .ok m') :
    CacheInverse cfg pid m' := by
  induction ns generalizing m with
  | nil =>
      simp only [Host.invalidate, Except.ok.injEq] at h
      exact h ▸ hi
  | cons n ns ih =>
      simp only [Host.invalidate, bind_eq_ok] at h
      obtain ⟨m₁, hone, h⟩ := h
      have hi₁ := hi.invalidateNotice (hns n List.mem_cons_self) hone
      exact ih hi₁ (fun n hn => hns n (List.mem_cons_of_mem _ hn)) h

/-- Moving a home entry changes `homei` of its page. -/
theorem moveHome (hi : CacheInverse cfg pid m) (i homei : Nat) :
    CacheInverse cfg pid (m.moveHome cfg i homei) := by
  apply hi.congr
  refine ⟨?_, ?_, fun _ => rfl, fun _ => Iff.rfl, fun _ _ => rfl⟩
  all_goals
    intro q
    simp only [MemState.moveHome, setHome_page, setPage_page, upd_apply]
    split
    · rename_i hq
      rw [hq]
    · rfl

theorem migarrangehome (hi : CacheInverse cfg pid m) :
    CacheInverse cfg pid (m.migarrangehome cfg) := by
  suffices h : CacheInverse cfg pid (arrangeLoop cfg Homepages 0 m).1 from
    h.congr (.of_tables rfl rfl)
  revert hi
  refine arrangeLoop_induct (Q := fun _ m r => CacheInverse cfg pid m → CacheInverse cfg pid r.1)
    ?_ ?_ ?_ ?_ (by rfl)
  · intro m hi
    exact hi
  · intro i j m r _ _ _ _ ih hi
    exact ih (hi.moveHome i j)
  · intro i m _ _ hi
    exact hi
  · intro i m r _ _ ih hi
    exact ih hi

end CacheInverse

/-- What the two tables promise the fault handler and `flushpage`. -/
structure InverseTables (cfg : Config) (m : MemState) : Prop where
  inverse : ∀ p < cfg.npages, ∀ c < cfg.cachepages, (m.page p).cachei = c ↔
    (m.cache c).state ≠ .unmap ∧ (m.cache c).addr = cfg.pageAddr p
  onePage : ∀ p < cfg.npages, ∀ q < cfg.npages, (m.page p).cachei < cfg.cachepages →
    (m.page q).cachei = (m.page p).cachei → q = p
  oneSlot : ∀ p < cfg.npages, ∀ c < cfg.cachepages, ∀ d < cfg.cachepages,
    m.Holds cfg c p → m.Holds cfg d p → c = d
  flush : ∀ c < cfg.cachepages, (m.cache c).state ≠ .unmap →
    ∃ p < cfg.npages, Unlinks cfg c p m (m.flushpage cfg c)
  /-- `findposition` flushes a slot in use and no other. -/
  evict : ∀ p seti s m', m.findposition cfg p seti = some (s, m') → s < cfg.cachepages ∧
    m' = (if (m.cache s).state = .unmap then m else m.flushpage cfg s).setPage p
      { (if (m.cache s).state = .unmap then m else m.flushpage cfg s).page p with cachei := s }

theorem CacheInverse.tables (hi : CacheInverse cfg pid m) : InverseTables cfg m where
  inverse := hi.slot
  onePage p hp q hq hlt heq := by
    have hpc := (hi.slot p hp _ hlt).mp rfl
    have hqc := (hi.slot q hq _ hlt).mp heq
    exact cfg.pageAddr_inj hq hp (hqc.2.symm.trans hpc.2)
  oneSlot p hp c hc d hd hholds hholds' :=
    ((hi.slot p hp c hc).mpr hholds).symm.trans ((hi.slot p hp d hd).mpr hholds')
  flush c hc hst := by
    obtain ⟨p, hp, hpc, ha⟩ := hi.toLinked.owner hc hst
    exact ⟨p, hp, flushpage_unlinks hp hpc ha⟩
  evict p seti s m' h := by
    have hslot := (findposition_some h).1
    refine ⟨hslot ▸ (findSlot_settles cfg m seti).1, ?_⟩
    unfold MemState.findposition at h
    simp only [← hslot] at h
    cases hst : (m.cache s).state with
    | rw =>
        rw [hst] at h
        cases h
    | unmap =>
        simp only [hst, Option.some.injEq, Prod.mk.injEq] at h
        rw [if_pos rfl, ← h.2]
    | inv =>
        simp only [hst, Option.some.injEq, Prod.mk.injEq] at h
        rw [if_neg (by simp), ← h.2]
    | ro =>
        simp only [hst, Option.some.injEq, Prod.mk.injEq] at h
        rw [if_neg (by simp), ← h.2]

end MemState

open MemState

variable {cfg : Config} {pid : Nat} {h h' : Host} {out : Out}

/-! ## Runs of a host -/

/-- The pages a message brings besides the one asked for. -/
def Msg.extras : Msg → List ExtraPage
  | .getpgrant _ _ _ xs => xs
  | _ => []

/-- The message brings one page at most, and its notices name pages. -/
structure Msg.OnePage (cfg : Config) (msg : Msg) : Prop where
  extras : msg.extras = []
  notices : ∀ n ∈ msg.invalidates, cfg.IsPage n.addr

/-- What the two threads of a host do, in any order.  A turn of the loop of `invalidate`
counts by itself too, so that the states between two turns belong to the runs. -/
inductive CacheEvent
  | main (adWd : Bool) (a : Act)
  | serve (adWd : Bool) (src : Nat) (rnd : List Nat) (msg : Msg)
  | notice (adWd : Bool) (lock : Nat) (n : GrantNotice)

/-- The runs of host `pid` without prefetching.  Any message may come at any time. -/
def cacheSystem (cfg : Config) (pid : Nat) : System Host CacheEvent where
  start := initHost cfg pid
  next h e h' :=
    match e with
    | .main b a => ∃ out, hostStep cfg pid h (.main b a) = .ok (h', out)
    | .serve b src rnd msg => msg.OnePage cfg ∧
        ∃ out, hostStep cfg pid h (.serve b src rnd msg) = .ok (h', out)
    | .notice b lock n => cfg.IsPage n.addr ∧
        ∃ m, invalidateNotice (cfg.withAdWd b) pid lock h.m n = .ok m ∧ h' = { h with m := m }

theorem cacheInverse_withAdWd {b : Bool} {m : MemState} :
    CacheInverse (cfg.withAdWd b) pid m ↔ CacheInverse cfg pid m :=
  ⟨fun hi => ⟨⟨hi.slot, hi.page⟩, hi.wtnt, hi.home⟩,
    fun hi => ⟨⟨hi.slot, hi.page⟩, hi.wtnt, hi.home⟩⟩

theorem main_cacheInverse {a : Act} (hi : CacheInverse cfg pid h.m)
    (hm : Main cfg pid h a h' out) : CacheInverse cfg pid h'.m := by
  cases hm with
  | load => exact hi
  | store => exact hi.congr (.of_tables rfl rfl)
  | homeFault hpc hp hfault hhome hm => exact hi.congr (still_homeFault hm).links
  | cacheFault hpc hp hfault hhome hm => exact hi.cacheFault hp hhome hm
  | faultEnd hpc hwait hm => exact hi.faultEnd hm
  | single => exact hi
  | start hpc hhost ha hop hm =>
      obtain ⟨y, dm, -, -, rfl⟩ := endinterval_ok hm
      exact hi.congr (.of_tables rfl rfl)
  | scan hpc hlt hm =>
      have hscan := scanHome_spec hm
      exact hi.congr (.of_tables hscan.page hscan.cache)
  | scanEnd => exact hi
  | acquire => exact hi
  | acquired hpc hwait hm =>
      have hstart := hi.startinterval hm
      exact hstart
  | release hpc hwait hout hm =>
      have hstart := hi.startinterval hm
      exact hstart
  | arrive hpc hwait hm =>
      obtain ⟨cs, -, -, rfl⟩ := arrive_ok hm
      exact hi
  | barrsync => exact hi
  | leave hpc hm =>
      obtain ⟨m₁, m₂, hcache, hhomes, rfl⟩ := leaveBarrier_ok hm
      exact (hi.startCache hcache).congr (still_startHomes hhomes).links
  | wait => exact hi
  | waited => exact hi
  | stay => exact hi

theorem served_cacheInverse {src : Nat} {rnd : List Nat} {msg : Msg}
    (hi : CacheInverse cfg pid h.m) (hone : msg.OnePage cfg)
    (hs : Served cfg pid h src rnd msg h' out) : CacheInverse cfg pid h'.m := by
  cases hs with
  | diff hm => exact hi.congr (still_applyDiffs hm).links
  | diffgrant => exact hi.congr (.of_tables rfl rfl)
  | getp hm =>
      have hflag := (getpserver_ok hm).flagged
      apply hi.congr
      refine ⟨hflag.cache.cachei, hflag.homepid, ?_, ?_, ?_⟩
      all_goals
        intro c
        rw [hflag.cache.cache]
      exact fun _ => rfl
  | @getpgrant addr wv data xs m hm =>
      obtain rfl : xs = [] := hone.extras
      exact hi.getpgrantserver hm
  | acqgrant hm => exact hi.invalidate hone.notices hm
  | invld hm => exact hi.invalidate hone.notices hm
  | barrgrant hm =>
      obtain ⟨m, hinv, rfl⟩ := barrgrantserver_ok hm
      have hm := hi.invalidate hone.notices hinv
      simp only
      split
      · exact hm.migarrangehome
      · exact hm
  | _ => exact hi

theorem reach_cacheInverse (hs : (cacheSystem cfg pid).Reach h) : CacheInverse cfg pid h.m := by
  apply hs.invariant (I := fun h => CacheInverse cfg pid h.m)
  · exact cacheInverse_initmem pid
  · intro h e h' _ hi hnext
    cases e with
    | main b a =>
        obtain ⟨out, hstep⟩ := hnext
        have hi' : CacheInverse (cfg.withAdWd b) pid h.m := cacheInverse_withAdWd.mpr hi
        exact cacheInverse_withAdWd.mp (main_cacheInverse hi' (act_main hstep))
    | serve b src rnd msg =>
        obtain ⟨hone, out, hstep⟩ := hnext
        have hi' : CacheInverse (cfg.withAdWd b) pid h.m := cacheInverse_withAdWd.mpr hi
        have hone' : msg.OnePage (cfg.withAdWd b) := ⟨hone.extras, hone.notices⟩
        exact cacheInverse_withAdWd.mp (served_cacheInverse hi' hone' (msgHandle_served hstep))
    | notice b lock n =>
        obtain ⟨hn, m, hnotice, rfl⟩ := hnext
        have hi' : CacheInverse (cfg.withAdWd b) pid h.m := cacheInverse_withAdWd.mpr hi
        exact cacheInverse_withAdWd.mp (hi'.invalidateNotice hn hnotice)

/-- In every run a page has slot `c` exactly when slot `c` is in use for it, and every
flush takes the slot from the page that has it. -/
theorem cache_page_inverse (hs : (cacheSystem cfg pid).Reach h) : InverseTables cfg h.m :=
  (reach_cacheInverse hs).tables

/-- One step of a run of five pages; the messages that come in name pages. -/
def cacheTurn (h : Host) (e : CacheEvent) : Result Host :=
  match e with
  | .main b a => do
      let (h, _) ← hostStep .fivePages 0 h (.main b a)
      return h
  | .serve b src rnd msg => do
      await (msg.extras = [] ∧ msg.invalidates = [])
      let (h, _) ← hostStep .fivePages 0 h (.serve b src rnd msg)
      return h
  | .notice b lock n => do
      let p := Config.fivePages.pagei n.addr
      await (p < 5 ∧ Config.fivePages.pageAddr p = n.addr)
      let m ← invalidateNotice (Config.fivePages.withAdWd b) 0 lock h.m n
      return { h with m := m }

theorem cacheTurn_next {h h' : Host} {e : CacheEvent} (hturn : cacheTurn h e = .ok h') :
    (cacheSystem .fivePages 0).next h e h' := by
  cases e with
  | main b a =>
      simp only [cacheTurn, bind_eq_ok, Prod.exists, pure, Except.pure, Except.ok.injEq] at hturn
      obtain ⟨h', out, hstep, rfl⟩ := hturn
      exact ⟨out, hstep⟩
  | serve b src rnd msg =>
      simp only [cacheTurn, bind_eq_ok, await_eq_ok, Prod.exists, pure, Except.pure,
        Except.ok.injEq] at hturn
      obtain ⟨-, ⟨hextras, hnone⟩, h', out, hstep, rfl⟩ := hturn
      refine ⟨⟨hextras, ?_⟩, out, hstep⟩
      rw [hnone]
      exact fun _ hn => absurd hn List.not_mem_nil
  | notice b lock n =>
      simp only [cacheTurn, bind_eq_ok, await_eq_ok, pure, Except.pure, Except.ok.injEq] at hturn
      obtain ⟨-, ⟨hp, heq⟩, m, hm, rfl⟩ := hturn
      exact ⟨⟨_, hp, heq.symm⟩, m, hm, rfl⟩

/-- Host 0 faults on page `p` of host 1 and gets it. -/
def fetchFrom (p seti : Nat) : List CacheEvent :=
  [.main false (.fault p false seti),
    .serve false 1 [] (.getpgrant (Config.fivePages.pageAddr p) WVFULL zeroPage []),
    .main false .go]

/-- Host 0 writes page 0 and reads the others.  Page 4 takes the slot of page 1, and a
notice about page 2 empties slot 2. -/
theorem cache_page_inverse_eviction : ∃ h, (cacheSystem .fivePages 0).Reach h ∧
    (List.range 5).map (fun p => (h.m.page p).cachei) = [0, 4, 2, 3, 1] ∧
    (List.range 4).map (fun c => (h.m.cache c).state) = [.rw, .ro, .inv, .ro] ∧
    InverseTables .fivePages h.m := by
  obtain ⟨h, hreach, hcheck⟩ := System.exists_execBy (fun _ _ _ => cacheTurn_next)
    (fetchFrom 0 0 ++ [.main false (.fault 0 true 0), .main false .go] ++ fetchFrom 1 0 ++
      fetchFrom 2 0 ++ fetchFrom 3 0 ++ fetchFrom 4 1 ++
      [.notice false hidelock ⟨Config.fivePages.pageAddr 2, 1, 0⟩])
    (fun h => ((List.range 5).map fun p => (h.m.page p).cachei) == [0, 4, 2, 3, 1] &&
      ((List.range 4).map fun c => (h.m.cache c).state) == [.rw, .ro, .inv, .ro])
    (by decide +kernel)
  rw [Bool.and_eq_true, beq_iff_eq, beq_iff_eq] at hcheck
  exact ⟨h, hreach, hcheck.1, hcheck.2, cache_page_inverse hreach⟩

/-! ## Runs of the whole system -/

/-- With prefetching off a home answers with the page asked for. -/
theorem getpserver_onePage {m m' : MemState} {src : Nat} {addr : Addr} {temp : Bool}
    (hoff : cfg.prefetchFlag = false) (h : m.getpserver cfg pid src addr temp = .ok (m', out)) :
    ∃ wv data, out = [(src, .getpgrant addr wv data [])] := by
  obtain ⟨-, m₁, m₂, m₃, ps, pg, xs, wv, data, -, hpre, -, hpages, rfl⟩ := getpserver_steps h
  simp only [prefetch, hoff, Bool.false_eq_true, false_and, if_false, Except.ok.injEq,
    Prod.mk.injEq] at hpre
  obtain ⟨-, rfl⟩ := hpre
  simp only [copyPages, Except.ok.injEq, Prod.mk.injEq] at hpages
  obtain ⟨-, rfl⟩ := hpages
  exact ⟨wv, data, rfl⟩

theorem served_extras {src d : Nat} {rnd : List Nat} {msg msg' : Msg} (ht : h.m.Tables cfg pid)
    (hp : msg.Pages cfg) (hin : Routed cfg src pid msg) (hoff : cfg.prefetchFlag = false)
    (hs : Served cfg pid h src rnd msg h' out) (hmem : (d, msg') ∈ out) : msg'.extras = [] := by
  have hnone : (∀ a wv data xs, msg' ≠ .getpgrant a wv data xs) → msg'.extras = [] := by
    intro hne
    cases msg' <;> first | rfl | exact absurd rfl (hne _ _ _ _)
  cases served_mem ht hp hin hs with
  | still hstill hout => exact hnone (hout _ hmem)
  | serve addr temp hmsg hserve =>
      subst hmsg
      cases hs with
      | getp hm =>
          obtain ⟨wv, data, rfl⟩ := getpserver_onePage hoff hm
          obtain ⟨-, rfl⟩ := Prod.mk.inj (List.mem_singleton.mp hmem)
          rfl
  | install addr wv data xs hmsg hout => rw [hout] at hmem; cases hmem
  | drop hre hwait hout => rw [hout] at hmem; cases hmem
  | invld ns hmsg hout => rw [hout] at hmem; cases hmem
  | barrgrant scope ns hmsg hout => rw [hout] at hmem; cases hmem

/-- With prefetching off no message brings a page that was not asked for. -/
theorem reach_extras (hoff : cfg.prefetchFlag = false) {s : State} (hs : (system cfg).Reach s)
    {a b : Nat} {msg : Msg} (hmem : msg ∈ s.net a b) : msg.extras = [] := by
  revert a b msg
  refine hs.invariant (I := fun s => ∀ {a b msg}, msg ∈ s.net a b → msg.extras = []) ?_ ?_
  · intro a b msg hmem
    cases hmem
  · intro s e s' hreach hok hnext a b msg hmem
    rcases mem_net_step hnext hmem with hold | ⟨act, hst, out, hm, hout⟩ |
      ⟨src, rnd, msg₀, rest, hst, out, hnet, hm, hout⟩
    · exact hok hold
    · have hreq := (main_routed (reach_stackOk hreach a) hm hout).1
      cases msg <;> first | rfl | cases hreq
    · have hfirst : msg₀ ∈ s.net src a := by
        rw [hnet]
        exact List.mem_cons_self
      have hpages := reach_pages hreach
      exact served_extras (hpages.host a).tables (hpages.net hfirst) (reach_routed hreach hfirst)
        hoff hm hout

theorem Msg.Pages.onePage {msg : Msg} (hp : msg.Pages cfg) (hx : msg.extras = []) :
    msg.OnePage cfg := by
  refine ⟨hx, ?_⟩
  cases msg with
  | acqgrant l scope ns => exact hp.1
  | invld l ns => exact hp.1
  | barrgrant l scope ns => exact hp.1
  | _ => exact fun n hn => by cases hn

/-- With prefetching off every host of the program goes through such a run. -/
theorem reach_cacheSystem (hoff : cfg.prefetchFlag = false) {s : State}
    (hs : (system cfg).Reach s) (i : Nat) : (cacheSystem cfg i).Reach (s.host i) := by
  revert i
  apply hs.invariant (I := fun s => ∀ i, (cacheSystem cfg i).Reach (s.host i))
  · exact fun i => .start
  · intro s e s' hreach hok hnext j
    rcases step_cases hnext with ⟨i, a, hst, out, -, -, hact, -, rfl⟩ |
      ⟨src, dst, rnd, msg, rest, hst, out, -, hnet, hmsg, -, rfl⟩
    · by_cases hj : j = i
      · subst hj
        rw [State.put_host_same]
        exact (hok j).step (e := .main cfg.adWd a) ⟨out, hact⟩
      · rw [State.put_host_of_ne _ _ _ hj]
        exact hok j
    · by_cases hj : j = dst
      · subst hj
        have hfirst : msg ∈ s.net src j := by
          rw [hnet]
          exact List.mem_cons_self
        rw [State.put_host_same]
        exact (hok j).step (e := .serve cfg.adWd src rnd msg)
          ⟨((reach_pages hreach).net hfirst).onePage (reach_extras hoff hreach hfirst), out, hmsg⟩
      · rw [State.put_host_of_ne _ _ _ hj]
        exact hok j

end Jiajia
