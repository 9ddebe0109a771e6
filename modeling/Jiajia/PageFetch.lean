import Jiajia.PageWire
import Jiajia.Prefetch

/-!
# Fetching a page

From the request to the page on the requesting host: `getpserver` at the home, the
bytes of the message, and `getpgrantserver`.
-/

namespace Jiajia

open MemState

namespace MemState

variable {cfg : Config} {pid : Nat} {m m' m'' : MemState}

/-! ## The home -/

/-- The tables of a home, and its pages mapped. -/
structure HomeOk (cfg : Config) (pid : Nat) (m : MemState) : Prop where
  tables : m.HomeTables cfg pid
  mapped : ∀ p < cfg.npages, (m.page p).homepid = pid → m.prot p ≠ .unmapped
  beyond : ∀ p, cfg.npages ≤ p → (m.page p).homepid ≠ pid

theorem homeOk_initmem (hpid : pid < Maxhosts) : HomeOk cfg pid (initmem cfg pid) where
  tables := (tables_initmem pid).home
  mapped p hp hhome := by
    have howner : cfg.layout.owner p = pid := by simpa [initmem, hp] using hhome
    simp only [initmem, hp, howner, and_self, if_true]
    split <;> simp
  beyond p hp := by
    have hnot : ¬ p < cfg.npages := not_lt.mpr hp
    simp only [initmem, hnot, if_false]
    omega

/-- What answering a request leaves as it is. -/
structure Answering (m m' : MemState) : Prop where
  page : m'.page = m.page
  mem : m'.mem = m.mem
  addr : ∀ i, (m'.home i).addr = (m.home i).addr
  wtvect : ∀ i, (m'.home i).wtvect = (m.home i).wtvect
  mapped : ∀ p, m.prot p ≠ .unmapped → m'.prot p ≠ .unmapped

theorem Answering.refl (m : MemState) : Answering m m :=
  ⟨rfl, rfl, fun _ => rfl, fun _ => rfl, fun _ h => h⟩

theorem Answering.trans (h : Answering m m') (h' : Answering m' m'') : Answering m m'' where
  page := h'.page.trans h.page
  mem := h'.mem.trans h.mem
  addr i := (h'.addr i).trans (h.addr i)
  wtvect i := (h'.wtvect i).trans (h.wtvect i)
  mapped p hp := h'.mapped p (h.mapped p hp)

theorem Answering.homeOk (h : Answering m m') (ho : HomeOk cfg pid m) : HomeOk cfg pid m' where
  tables := ho.tables.congr (fun p => by rw [h.page]) (fun p => by rw [h.page]) h.addr
  mapped p hp hhome := by
    rw [h.page] at hhome
    exact h.mapped p (ho.mapped p hp hhome)
  beyond p hp := by
    rw [h.page]
    exact ho.beyond p hp

theorem answering_setHome {i : Nat} {e : HomeEntry} (ha : e.addr = (m.home i).addr)
    (hv : e.wtvect = (m.home i).wtvect) : Answering m (m.setHome i e) where
  page := rfl
  mem := rfl
  addr j := by
    rw [setHome_home, upd_apply]
    split
    · rename_i hj
      rw [hj, ha]
    · rfl
  wtvect j := by
    rw [setHome_home, upd_apply]
    split
    · rename_i hj
      rw [hj, hv]
    · rfl
  mapped _ h := h

theorem HomeOk.lt (ho : HomeOk cfg pid m) {q : Nat} (hq : (m.page q).homepid = pid) :
    q < cfg.npages := by
  by_contra hle
  exact ho.beyond q (not_lt.mp hle) hq

theorem HomeOk.homei (ho : HomeOk cfg pid m) {q : Nat} (hq : (m.page q).homepid = pid) :
    (m.page q).homei < Homepages :=
  (ho.tables.home q (ho.lt hq) hq).1

theorem answering_homeFault {q : Nat} (h : m.homeFault cfg q = .ok m') : Answering m m' := by
  simp only [homeFault, bind_eq_ok, pure, Except.pure, Except.ok.injEq] at h
  obtain ⟨m₁, hprot, -, -, rfl⟩ := h
  obtain ⟨-, rfl⟩ := memprotect_eq_ok.mp hprot
  have hset : Answering m (m.setProt q .readWrite) := by
    refine ⟨rfl, rfl, fun _ => rfl, fun _ => rfl, ?_⟩
    intro r hr
    rw [setProt_prot, upd_apply]
    split
    · simp
    · exact hr
  exact hset.trans (answering_setHome rfl rfl)

/-- A home page can be copied from, through the fault handler if need be. -/
theorem copyPage_home (ho : HomeOk cfg pid m) {q : Nat} (hq : (m.page q).homepid = pid) :
    ∃ m', m.copyPage cfg pid q = .ok (m', m.mem q) ∧ Answering m m' := by
  have hlt := ho.lt hq
  have hmapped := ho.mapped q hlt hq
  unfold copyPage
  by_cases hread : m.Readable q
  · rw [if_pos hread]
    exact ⟨m, rfl, .refl m⟩
  · have hnone : m.prot q = .none := by
      unfold Readable at hread
      cases hp : m.prot q <;> simp_all
    obtain ⟨m', hok⟩ : ∃ m', m.homeFault cfg q = .ok m' := by
      simp only [homeFault, bind_eq_ok, pure, Except.pure]
      exact ⟨_, _, memprotect_eq_ok.mpr ⟨hmapped, rfl⟩, (), defined_eq_ok.mpr (ho.homei hq), rfl⟩
    have hans := answering_homeFault hok
    rw [if_neg hread]
    refine ⟨m', ?_, hans⟩
    simp only [defined, if_pos (And.intro hnone hq), hok, ← hans.mem]
    rfl

theorem copyPages_home (ho : HomeOk cfg pid m) {ps : List Nat}
    (hps : ∀ q ∈ ps, (m.page q).homepid = pid) :
    ∃ m', copyPages cfg pid m ps = .ok (m', ps.map fun q => ⟨cfg.pageAddr q, m.mem q⟩) ∧
      Answering m m' := by
  induction ps generalizing m with
  | nil => exact ⟨m, rfl, .refl m⟩
  | cons p ps ih =>
      obtain ⟨m₁, hone, hans⟩ := copyPage_home ho (hps p List.mem_cons_self)
      have hrest : ∀ q ∈ ps, (m₁.page q).homepid = pid := by
        intro q hq
        rw [hans.page]
        exact hps q (List.mem_cons_of_mem _ hq)
      obtain ⟨m', hmany, hans'⟩ := ih (hans.homeOk ho) hrest
      rw [hans.mem] at hmany
      refine ⟨m', ?_, hans.trans hans'⟩
      simp only [copyPages, bind_eq_ok, Prod.exists]
      exact ⟨m₁, m.mem p, hone, m', _, hmany, rfl⟩

theorem renewTwin_home (ho : HomeOk cfg pid m) {p : Nat} (hp : (m.page p).homepid = pid) :
    ∃ m', m.renewTwin cfg pid (m.page p).homei = .ok m' ∧ Answering m m' := by
  have hlt := ho.lt hp
  unfold renewTwin
  split
  · have hset := @answering_setHome m (m.page p).homei
      { m.home (m.page p).homei with wvfull := false } rfl rfl
    have haddr : ((m.setHome (m.page p).homei
        { m.home (m.page p).homei with wvfull := false }).home (m.page p).homei).addr =
        cfg.pageAddr p := by
      rw [hset.addr]
      exact (ho.tables.home p hlt hp).2
    simp only [haddr, cfg.pagei_pageAddr hlt]
    obtain ⟨m₁, hcopy, hans⟩ := copyPage_home (hset.homeOk ho) hp
    rw [hcopy]
    exact ⟨_, rfl, (hset.trans hans).trans (answering_setHome rfl rfl)⟩
  · exact ⟨m, rfl, .refl m⟩

/-! ## The pages that go along -/

/-- What `get_settings` accepts for prefetching. -/
structure PrefetchRange (cfg : Config) : Prop where
  pages : 0 ≤ cfg.prefetchPages ∧ cfg.prefetchPages ≤ 8
  checking : 0 ≤ cfg.maxCheckingPages ∧ cfg.maxCheckingPages ≤ Maxsize / Pagesize

/-- The scan for pages to add stays inside `page[]`: it ends there, or has found enough. -/
def ScanInside (cfg : Config) (pid : Nat) (m : MemState) (p : Nat) : Prop :=
  cfg.prefetchFlag = true → cfg.prefetchPages ≠ 0 →
    p + 1 + cfg.maxCheckingPages.toNat ≤ Maxmempages ∨
      cfg.prefetchPages ≤ m.homesIn pid (p + 1) Maxmempages

/-- The scan with `k` pages left to check from page `p` on. -/
theorem prefetchLoop_home (hrange : PrefetchRange cfg) (ho : HomeOk cfg pid m) {k p num : Nat}
    {acc : List Nat} (hp : p ≤ Maxmempages) (hnum : acc.length + 1 = num)
    (hfound : (num : Int) ≤ cfg.prefetchPages)
    (hleft : (num : Int) + k ≤ cfg.maxCheckingPages + 1) :
    (∀ r, prefetchLoop cfg pid k m p num acc = .ok r →
      Answering m r.1 ∧ (r.2.length : Int) ≤ cfg.prefetchPages) ∧
    ((∃ r, prefetchLoop cfg pid k m p num acc = .ok r) ↔
      p + k ≤ Maxmempages ∨ cfg.prefetchPages ≤ num - 1 + m.homesIn pid p Maxmempages) := by
  induction k generalizing m p num acc with
  | zero =>
      constructor
      · intro r hr
        simp only [prefetchLoop, Except.ok.injEq] at hr
        rw [← hr]
        exact ⟨.refl m, by show (acc.length : Int) ≤ _; omega⟩
      · exact iff_of_true ⟨_, rfl⟩ (.inl hp)
  | succ k ih =>
      have hpages := hrange.pages
      rw [prefetchLoop]
      by_cases hmax : p < Maxmempages
      · have hp' : p + 1 ≤ Maxmempages := hmax
        rw [defined, if_pos hmax, homesIn_succ hmax]
        by_cases hhome : (m.page p).homepid = pid
        · -- one more page
          have hcheck : (num : Int) < cfg.maxCheckingPages + 1 := by omega
          have hten : num < 10 := by omega
          have hset := @answering_setHome m (m.page p).homei
            { m.home (m.page p).homei with rdnt := true } rfl rfl
          simp only [hhome, hcheck, and_self, if_true, defined, if_pos (ho.homei hhome),
            if_pos hten]
          by_cases hlast : ((num + 1 : Nat) : Int) = cfg.prefetchPages + 1
          · rw [if_pos hlast]
            constructor
            · intro r hr
              obtain rfl := Except.ok.inj hr
              refine ⟨hset, ?_⟩
              simp only [List.length_append, List.length_singleton]
              omega
            · refine iff_of_true ⟨_, rfl⟩ (.inr ?_)
              push_cast at hlast ⊢
              omega
          · rw [if_neg hlast]
            have hnum' : (acc ++ [p]).length + 1 = num + 1 := by
              rw [List.length_append, List.length_singleton, hnum]
            have hfound' : ((num + 1 : Nat) : Int) ≤ cfg.prefetchPages := by
              push_cast at hlast ⊢
              omega
            have hleft' : ((num + 1 : Nat) : Int) + k ≤ cfg.maxCheckingPages + 1 := by
              push_cast at hleft ⊢
              omega
            have hnext := ih (hset.homeOk ho) hp' hnum' hfound' hleft'
            have hsame : (m.setHome (m.page p).homei
                { m.home (m.page p).homei with rdnt := true }).homesIn pid (p + 1) Maxmempages =
                m.homesIn pid (p + 1) Maxmempages := rfl
            rw [hsame] at hnext
            constructor
            · intro r hr
              obtain ⟨hans, hlen⟩ := hnext.1 r hr
              exact ⟨hset.trans hans, hlen⟩
            · refine Iff.trans hnext.2 ?_
              push_cast
              omega
        · simp only [hhome, false_and, if_false]
          have hleft' : (num : Int) + k ≤ cfg.maxCheckingPages + 1 := by
            push_cast at hleft
            omega
          have hnext := ih ho hp' hnum hfound hleft'
          refine ⟨hnext.1, Iff.trans hnext.2 ?_⟩
          rw [Nat.add_zero]
          omega
      · have heq : p = Maxmempages := by omega
        have hnone : m.homesIn pid p Maxmempages = 0 := by rw [heq, homesIn_self]
        rw [defined, if_neg hmax, hnone]
        constructor
        · intro r hr
          cases hr
        · refine iff_of_false ?_ ?_
          · rintro ⟨r, hr⟩
            cases hr
          · push_cast
            omega

instance (p q : Nat) : Decidable (Prefetches cfg pid m p q) := inferInstanceAs (Decidable (_ ∧ _))

/-- The pages that go with page `p`, in order. -/
def prefetched (cfg : Config) (pid : Nat) (m : MemState) (p : Nat) : List Nat :=
  (List.range' (p + 1) cfg.maxCheckingPages.toNat).filter fun q => Prefetches cfg pid m p q

theorem mem_prefetched {p q : Nat} :
    q ∈ prefetched cfg pid m p ↔ Prefetches cfg pid m p q := by
  rw [prefetched, List.mem_filter, List.mem_range'_1, decide_eq_true_iff]
  constructor
  · exact fun h => h.2
  · intro h
    have hlt := h.2.1
    have hle := h.2.2.1
    refine ⟨?_, h⟩
    omega

theorem prefetched_increasing (p : Nat) : (prefetched cfg pid m p).Pairwise (· < ·) :=
  List.Pairwise.filter _ List.pairwise_lt_range'

/-- What the scan of `getpserver` finds, and when it stays inside `page[]`. -/
theorem prefetch_home (hrange : PrefetchRange cfg) (ho : HomeOk cfg pid m) {p : Nat}
    (hp : p < cfg.npages) :
    (∀ r, m.prefetch cfg pid p = .ok r →
      Answering m r.1 ∧ r.2 = prefetched cfg pid m p ∧ r.2.length ≤ 8) ∧
    ((∃ r, m.prefetch cfg pid p = .ok r) ↔ ScanInside cfg pid m p) := by
  have hpages := hrange.pages
  have hchecking := hrange.checking
  have hmax : p + 1 ≤ Maxmempages := hp.trans_le cfg.layout.npages_le
  have hlist : ∀ r, m.prefetch cfg pid p = .ok r → r.2.Pairwise (· < ·) →
      r.2 = prefetched cfg pid m p := by
    intro r hr hinc
    have hperm : r.2.Perm (prefetched cfg pid m p) := by
      rw [List.perm_ext_iff_of_nodup hinc.nodup (prefetched_increasing p).nodup]
      intro q
      rw [mem_prefetched]
      exact mem_prefetch hr q
    exact hperm.eq_of_pairwise (fun a b _ _ hab hba => absurd hab (lt_asymm hba)) hinc
      (prefetched_increasing p)
  by_cases hon : cfg.prefetchFlag = true ∧ cfg.prefetchPages ≠ 0
  · have heq : m.prefetch cfg pid p =
        m.prefetchLoop cfg pid cfg.maxCheckingPages.toNat (p + 1) 1 [] := by
      rw [prefetch, if_pos hon]
    have hone : ((1 : Nat) : Int) ≤ cfg.prefetchPages := by
      have hne := hon.2
      push_cast
      omega
    have hleft : ((1 : Nat) : Int) + cfg.maxCheckingPages.toNat ≤ cfg.maxCheckingPages + 1 := by
      push_cast
      omega
    have hloop := @prefetchLoop_home cfg pid m hrange ho cfg.maxCheckingPages.toNat (p + 1) 1 []
      hmax rfl hone hleft
    constructor
    · intro r hr
      have hr' := hr
      rw [heq] at hr
      obtain ⟨hans, hlen⟩ := hloop.1 r hr
      have hinc := (prefetchLoop_increasing .nil (fun a ha => by cases ha) (Nat.lt_succ_self p) hr).1
      exact ⟨hans, hlist r hr' hinc, by omega⟩
    · rw [heq, hloop.2, ScanInside]
      constructor
      · intro hor _ _
        push_cast at hor
        omega
      · intro hinside
        have hor := hinside hon.1 hon.2
        push_cast
        omega
  · have heq : m.prefetch cfg pid p = .ok (m, []) := by rw [prefetch, if_neg hon]
    constructor
    · intro r hr
      have hr' := hr
      rw [heq] at hr
      obtain rfl := Except.ok.inj hr
      exact ⟨.refl m, hlist _ hr' .nil, Nat.zero_le _⟩
    · rw [heq]
      refine iff_of_true ⟨_, rfl⟩ ?_
      exact fun hflag hne => absurd ⟨hflag, hne⟩ hon

/-- The other pages in the message. -/
def prefetchedPages (cfg : Config) (pid : Nat) (m : MemState) (p : Nat) : List ExtraPage :=
  (prefetched cfg pid m p).map fun q => ⟨cfg.pageAddr q, m.mem q⟩

/-- The vector in the message: that of the last page the scan has found. -/
def sentVector (cfg : Config) (pid src : Nat) (m : MemState) (p : Nat) (temp : Bool) :
    BitVec Wvbits :=
  if cfg.wVec ∧ temp then
    (m.home (m.lastHomei (m.page p).homei (prefetched cfg pid m p))).wtvect src
  else WVFULL

theorem maskPage_zero (pg pg' old : Page) : maskPage 0 pg old = maskPage 0 pg' old := by
  ext1 u
  simp [maskPage]

theorem getpserver_home (hrange : PrefetchRange cfg) (ho : HomeOk cfg pid m) {p : Nat}
    (hp : p < cfg.npages) (hhome : (m.page p).homepid = pid) (src : Nat) (temp : Bool) :
    (ScanInside cfg pid m p → ∃ m', m.getpserver cfg pid src (cfg.pageAddr p) temp =
      .ok (m', [(src, .getpgrant (cfg.pageAddr p) (sentVector cfg pid src m p temp)
        (maskPage (sentVector cfg pid src m p temp) (m.mem p) zeroPage)
        (prefetchedPages cfg pid m p))]) ∧ Answering m m') ∧
    ((∃ r, m.getpserver cfg pid src (cfg.pageAddr p) temp = .ok r) → ScanInside cfg pid m p) := by
  obtain ⟨m₁, hrenew, hans₁⟩ := renewTwin_home ho hhome
  have hset : Answering m (m₁.setHome (m.page p).homei
      { m₁.home (m.page p).homei with rdnt := true }) :=
    hans₁.trans (answering_setHome rfl rfl)
  have ho₁ := hset.homeOk ho
  obtain ⟨hpre, hinside⟩ := prefetch_home hrange ho₁ hp
  have hpid : ∀ r, ((m₁.setHome (m.page p).homei
      { m₁.home (m.page p).homei with rdnt := true }).page r).homepid = (m.page r).homepid := by
    intro r
    rw [hset.page]
  have hsame : prefetched cfg pid (m₁.setHome (m.page p).homei
      { m₁.home (m.page p).homei with rdnt := true }) p = prefetched cfg pid m p := by
    unfold prefetched
    apply List.filter_congr
    intro q _
    rw [decide_eq_decide]
    exact ⟨Prefetches.congr hpid, Prefetches.congr fun r => (hpid r).symm⟩
  have hscan : ScanInside cfg pid (m₁.setHome (m.page p).homei
      { m₁.home (m.page p).homei with rdnt := true }) p ↔ ScanInside cfg pid m p := by
    unfold ScanInside homesIn
    simp only [hpid]
  constructor
  · intro hin
    obtain ⟨⟨m₂, ps⟩, hprefetch⟩ := hinside.mpr (hscan.mpr hin)
    obtain ⟨hans₂, hps, hlen⟩ := hpre _ hprefetch
    simp only at hans₂ hps hlen
    rw [hsame] at hps
    have hans₂' := hset.trans hans₂
    have hwv : (if cfg.wVec ∧ temp then (m₂.home (m₂.lastHomei (m.page p).homei ps)).wtvect src
        else WVFULL) = sentVector cfg pid src m p temp := by
      unfold sentVector lastHomei
      simp only [hans₂'.wtvect, hans₂'.page, hps]
    have hhome₂ : (m₂.page p).homepid = pid := by rw [hans₂'.page, hhome]
    have hcopy : ∃ m₃ pg, (if sentVector cfg pid src m p temp = 0 then .ok (m₂, zeroPage)
        else m₂.copyPage cfg pid p) = .ok (m₃, pg) ∧ Answering m₂ m₃ ∧
        maskPage (sentVector cfg pid src m p temp) pg zeroPage =
          maskPage (sentVector cfg pid src m p temp) (m.mem p) zeroPage := by
      split
      · rename_i hzero
        exact ⟨m₂, zeroPage, rfl, .refl m₂, by rw [hzero, maskPage_zero]⟩
      · obtain ⟨m₃, hone, hans₃⟩ := copyPage_home (hans₂'.homeOk ho) hhome₂
        exact ⟨m₃, _, hone, hans₃, by rw [hans₂'.mem]⟩
    obtain ⟨m₃, pg, hcopy, hans₃, hmask⟩ := hcopy
    have hans₃' := hans₂'.trans hans₃
    have hown : ∀ q ∈ ps, (m₃.page q).homepid = pid := by
      intro q hq
      rw [hps] at hq
      rw [hans₃'.page]
      exact (mem_prefetched.mp hq).2.2.2.1
    obtain ⟨m₄, hpages, hans₄⟩ := copyPages_home (hans₃'.homeOk ho) hown
    rw [hans₃'.mem, hps] at hpages
    refine ⟨m₄, ?_, hans₃'.trans hans₄⟩
    have hhost : m.homehost cfg (cfg.pageAddr p) = pid := by
      rw [homehost, cfg.pagei_pageAddr hp, hhome]
    have hpage : m.homepage cfg (cfg.pageAddr p) = (m.page p).homei := by
      rw [homepage, cfg.pagei_pageAddr hp]
    have hfit : Intbytes + Addrbytes + Pagesize + (Addrbytes + Pagesize) *
        ((prefetched cfg pid m p).map fun q => (⟨cfg.pageAddr q, m.mem q⟩ : ExtraPage)).length ≤
        Maxmsgsize := by
      rw [List.length_map, ← hps]
      simp only [Intbytes, Addrbytes, Pagesize, Maxmsgsize, Maxsize, Msgheadsize]
      omega
    unfold getpserver
    simp only [hhost, hpage, cfg.pagei_pageAddr hp, not_true_eq_false, and_false, if_false,
      ne_eq]
    simp only [bind_eq_ok, jiaAssert_eq_ok, defined_eq_ok, Prod.exists]
    refine ⟨(), trivial, (), ho.homei hhome, m₁, hrenew, m₂, ps, hprefetch, m₃, pg, ?_, m₄, _,
      hps ▸ hpages, (), hfit, ?_⟩
    · rw [hwv]
      exact hcopy
    · rw [hwv, hmask]
      rfl
  · rintro ⟨⟨m', out⟩, hok⟩
    obtain ⟨-, m₁', m₂, m₃, ps, pg, xs, wv, data, hrenew', hpre', -⟩ := getpserver_steps hok
    have hpage : m.homepage cfg (cfg.pageAddr p) = (m.page p).homei := by
      rw [homepage, cfg.pagei_pageAddr hp]
    rw [hpage, hrenew] at hrenew'
    obtain rfl := Except.ok.inj hrenew'
    rw [hpage, cfg.pagei_pageAddr hp] at hpre'
    exact hscan.mp (hinside.mp ⟨_, hpre'⟩)

/-! ## The page that arrives -/

/-- From the request to the page: `getpserver` on its home, the message in a buffer with
left-over bytes `old`, and `getpgrantserver` on host `src`, whose fault handler writes its
entry at time `t`. -/
def fetch (cfg : Config) (pid src : Nat) (home m : MemState) (w : FaultWait) (temp : Bool)
    (t : MarkTime) (old : Bytes.Buffer) (rnd : List Nat) : Result (MemState × MemState) := do
  let (home, out) ← home.getpserver cfg pid src (cfg.pageAddr w.page) temp
  match out with
  | [(_, .getpgrant addr wv data xs)] =>
      let rep ← PageWire.grantMsg (cfg.wVec && temp) addr wv data xs old
      let m ← PageWire.getpgrantserverMarked cfg w t m wv rep.data rnd
      return (home, m)
  | _ => .error (.undefined "no GETPGRANT message")

section Fetch

variable {home home' : MemState} {w : FaultWait} {p : Nat}

theorem length_prefetched (hrange : PrefetchRange cfg) (ho : HomeOk cfg pid home)
    (hp : p < cfg.npages) (hin : ScanInside cfg pid home p) :
    (prefetched cfg pid home p).length ≤ 8 := by
  obtain ⟨hpre, hinside⟩ := prefetch_home hrange ho hp
  obtain ⟨r, hr⟩ := hinside.mpr hin
  obtain ⟨-, heq, hle⟩ := hpre r hr
  rwa [heq] at hle

/-- The bytes of the message make no difference: the requester gets what the home has. -/
theorem fetch_eq (hrange : PrefetchRange cfg) (ho : HomeOk cfg pid home)
    (hp : w.page < cfg.npages) (hhome : (home.page w.page).homepid = pid) (src : Nat)
    (temp : Bool) (hin : ScanInside cfg pid home w.page) :
    ∃ home', Answering home home' ∧ ∀ m t old rnd,
      fetch cfg pid src home m w temp t old rnd = (do
        let m ← m.getpgrantserverMarked cfg w t (cfg.pageAddr w.page)
          (sentVector cfg pid src home w.page temp)
          (maskPage (sentVector cfg pid src home w.page temp) (home.mem w.page) zeroPage)
          (prefetchedPages cfg pid home w.page) rnd
        return (home', m)) := by
  obtain ⟨home', hserve, hans⟩ := (getpserver_home hrange ho hp hhome src temp).1 hin
  refine ⟨home', hans, ?_⟩
  intro m t old rnd
  have hlen : (prefetchedPages cfg pid home w.page).length ≤ 8 := by
    rw [prefetchedPages, List.length_map]
    exact length_prefetched hrange ho hp hin
  have hfit : Intbytes + Addrbytes + Pagesize + (Addrbytes + Pagesize) *
      (prefetchedPages cfg pid home w.page).length ≤ Maxmsgsize := by
    simp only [Intbytes, Addrbytes, Pagesize, Maxmsgsize, Maxsize, Msgheadsize]
    omega
  have hcompact : (cfg.wVec && temp) = true → cfg.wVec = true :=
    fun hand => (Bool.and_eq_true_iff.mp hand).1
  have hfull : (cfg.wVec && temp) = false → sentVector cfg pid src home w.page temp = WVFULL := by
    intro hoff
    rw [sentVector, if_neg]
    intro hon
    rw [hon.1, hon.2] at hoff
    cases hoff
  obtain ⟨rep, hmsg, hbytes⟩ := PageWire.grantMsg_bytes cfg (cfg.wVec && temp)
    (cfg.pageAddr w.page) (sentVector cfg pid src home w.page temp)
    (maskPage (sentVector cfg pid src home w.page temp) (home.mem w.page) zeroPage)
    (prefetchedPages cfg pid home w.page) old hcompact hfull hfit
  have hgrant := hbytes.round_trip_marked w t m rnd
  rw [PageWire.maskPage_mask] at hgrant
  unfold fetch
  rw [hserve]
  show (do
    let rep ← PageWire.grantMsg (cfg.wVec && temp) (cfg.pageAddr w.page)
      (sentVector cfg pid src home w.page temp)
      (maskPage (sentVector cfg pid src home w.page temp) (home.mem w.page) zeroPage)
      (prefetchedPages cfg pid home w.page) old
    let m ← PageWire.getpgrantserverMarked cfg w t m (sentVector cfg pid src home w.page temp)
      rep.data rnd
    return (home', m) : Result (MemState × MemState)) = _
  rw [hmsg, ← hgrant]
  rfl

theorem fetch_inside (hrange : PrefetchRange cfg) (ho : HomeOk cfg pid home)
    (hp : w.page < cfg.npages) (hhome : (home.page w.page).homepid = pid) {src : Nat}
    {temp : Bool} {t : MarkTime} {old : Bytes.Buffer} {rnd : List Nat} {r : MemState × MemState}
    (h : fetch cfg pid src home m w temp t old rnd = .ok r) :
    ScanInside cfg pid home w.page := by
  simp only [fetch, bind_eq_ok] at h
  obtain ⟨served, hserve, -⟩ := h
  exact (getpserver_home hrange ho hp hhome src temp).2 ⟨served, hserve⟩

/-- The pages that go along are other pages, each once. -/
theorem extras_prefetchedPages (ho : HomeOk cfg pid home) :
    Extras cfg p (prefetchedPages cfg pid home p) where
  pages x hx := by
    obtain ⟨q, hq, rfl⟩ := List.mem_map.mp hx
    have hpre := mem_prefetched.mp hq
    exact ⟨q, ho.lt hpre.2.2.2.1, Nat.ne_of_gt hpre.2.1, rfl⟩
  nodup := by
    rw [prefetchedPages, List.map_map]
    apply List.Nodup.map_on ?_ (prefetched_increasing p).nodup
    intro q hq r hr heq
    exact cfg.pageAddr_inj (ho.lt (mem_prefetched.mp hq).2.2.2.1)
      (ho.lt (mem_prefetched.mp hr).2.2.2.1) heq

/-! ## Which vector is in the message -/

/-- Two pages agree on the blocks that the vector leaves out. -/
def AgreeClear (wv : BitVec Wvbits) (pg old : Page) : Prop :=
  ∀ u, wv.getLsbD (u.val / Blockunits) = false → old u = pg u

theorem agreeClear_full (pg old : Page) : AgreeClear WVFULL pg old := by
  intro u hclear
  have hbit : (WVFULL : BitVec Wvbits).getLsbD (u.val / Blockunits) = true := by
    rw [BitVec.getLsbD_allOnes]
    exact decide_eq_true (PageWire.block_lt u)
  rw [hbit] at hclear
  cases hclear

/-- Page `q` is the last one that goes with page `p`. -/
def LastPrefetched (cfg : Config) (pid : Nat) (m : MemState) (p q : Nat) : Prop :=
  Prefetches cfg pid m p q ∧ ∀ r, Prefetches cfg pid m p r → r ≤ q

/-- The entry `getpserver` takes the vector from. -/
theorem lastHomei_prefetched (i : Nat) :
    ((∀ q, ¬ LastPrefetched cfg pid home p q) ∧
      home.lastHomei i (prefetched cfg pid home p) = i) ∨
    ∃ q, LastPrefetched cfg pid home p q ∧
      home.lastHomei i (prefetched cfg pid home p) = (home.page q).homei := by
  have hinc := @prefetched_increasing cfg pid home p
  cases List.eq_nil_or_concat (prefetched cfg pid home p) with
  | inl hnil =>
      left
      constructor
      · intro q hq
        have hmem := mem_prefetched.mpr hq.1
        rw [hnil] at hmem
        cases hmem
      · rw [hnil]
        rfl
  | inr hsnoc =>
      right
      obtain ⟨qs, q, heq⟩ := hsnoc
      rw [List.concat_eq_append] at heq
      rw [heq, List.pairwise_append] at hinc
      refine ⟨q, ⟨?_, ?_⟩, ?_⟩
      · rw [← mem_prefetched, heq]
        exact List.mem_append_right _ (List.mem_singleton_self q)
      · intro r hr
        rw [← mem_prefetched, heq] at hr
        cases List.mem_append.mp hr with
        | inl hmem => exact le_of_lt (hinc.2.2 r hmem q (List.mem_singleton_self q))
        | inr hone => exact le_of_eq (List.mem_singleton.mp hone)
      · rw [heq, lastHomei, List.foldl_append]
        rfl

/-- Where the requester agrees with the home on what the message leaves out. -/
theorem agreeClear_sentVector {src : Nat} {temp : Bool} {old : Page}
    (hagree : temp = true →
      AgreeClear ((home.home (home.page p).homei).wtvect src) (home.mem p) old) :
    AgreeClear (sentVector cfg pid src home p temp) (home.mem p) old ↔
      (cfg.wVec = true → temp = true → ∀ q, LastPrefetched cfg pid home p q →
        AgreeClear ((home.home (home.page q).homei).wtvect src) (home.mem p) old) := by
  unfold sentVector
  by_cases hon : cfg.wVec = true ∧ temp = true
  · rw [if_pos hon]
    cases @lastHomei_prefetched cfg pid home p (home.page p).homei with
    | inl hnone =>
        rw [hnone.2]
        exact iff_of_true (hagree hon.2) fun _ _ q hq => absurd hq (hnone.1 q)
    | inr hlast =>
        obtain ⟨q, hq, heq⟩ := hlast
        rw [heq]
        constructor
        · intro hclear _ _ r hr
          have hrq : r = q := le_antisymm (hq.2 r hr.1) (hr.2 q hq.1)
          rw [hrq]
          exact hclear
        · exact fun hall => hall hon.1 hon.2 q hq
  · rw [if_neg hon]
    exact iff_of_true (agreeClear_full _ _) fun hwvec htemp => absurd ⟨hwvec, htemp⟩ hon

/-- What the requester makes of a message that holds the blocks of the vector. -/
theorem received_eq_iff {wv : BitVec Wvbits} (hfull : cfg.wVec = false → wv = WVFULL) (pg : Page) :
    received cfg m p wv (maskPage wv pg zeroPage) = pg ↔ AgreeClear wv pg (m.mem p) := by
  unfold received
  by_cases hon : cfg.wVec = true ∧ wv ≠ WVFULL
  · rw [if_pos hon, PageWire.maskPage_mask]
    constructor
    · intro heq u hclear
      calc m.mem p u = maskPage wv pg (m.mem p) u := by simp [maskPage, hclear]
        _ = pg u := by rw [heq]
    · intro hagree
      ext1 u
      unfold maskPage
      split
      · rfl
      · rename_i hclear
        exact hagree u (Bool.eq_false_of_not_eq_true hclear)
  · have hwv : wv = WVFULL := by
      by_contra hne
      cases hvec : cfg.wVec with
      | true => exact hon ⟨hvec, hne⟩
      | false => exact hne (hfull hvec)
    rw [if_neg hon, hwv, PageWire.maskPage_full]
    exact iff_of_true rfl (agreeClear_full _ _)

theorem sentVector_full {src : Nat} {temp : Bool} (hoff : cfg.wVec = false) :
    sentVector cfg pid src home p temp = WVFULL := by
  rw [sentVector, if_neg]
  intro hon
  rw [hoff] at hon
  exact Bool.false_ne_true hon.1

/-! ## What the requester has in the end -/

/-- The pages of a message come into the cache with the contents sent, and the others in it
are as before. -/
theorem installExtras_contents {xs : List ExtraPage} {rnd : List Nat} (hl : Linked cfg m)
    (hx : Extras cfg p xs) (h : installExtras cfg m xs rnd = .ok m') :
    m'.mem p = m.mem p ∧ ∀ q < cfg.npages, ¬ m'.Uncached cfg q →
      (¬ m.Uncached cfg q ∧ m'.mem q = m.mem q) ∨
        ∃ x ∈ xs, x.addr = cfg.pageAddr q ∧ m'.mem q = x.data := by
  induction xs generalizing m rnd with
  | nil =>
      obtain rfl := Except.ok.inj h
      exact ⟨rfl, fun q _ hq => .inl ⟨hq, rfl⟩⟩
  | cons x xs ih =>
      obtain ⟨r, hr, hrp, ha⟩ := hx.pages x List.mem_cons_self
      obtain ⟨m₁, hone, hturn⟩ := installExtra_turn hl hr ha (rnd.headD 0)
      rw [installExtras, hone] at h
      have hrest : installExtras cfg m₁ xs rnd.tail = .ok m' := h
      cases hturn with
      | inl hsame =>
          obtain ⟨rfl, -⟩ := hsame
          obtain ⟨hmem, hothers⟩ := ih hl hx.tail hrest
          refine ⟨hmem, ?_⟩
          intro q hq hin
          cases hothers q hq hin with
          | inl hkept => exact .inl hkept
          | inr hnew =>
              obtain ⟨y, hy, hdata⟩ := hnew
              exact .inr ⟨y, List.mem_cons_of_mem _ hy, hdata⟩
      | inr hplaced =>
          obtain ⟨-, -, hplaced, hdata⟩ := hplaced
          obtain ⟨hmem, hothers⟩ := ih hplaced.linked hx.tail hrest
          refine ⟨hmem.trans (hplaced.mem p (Ne.symm hrp)), ?_⟩
          intro q hq hin
          cases hothers q hq hin with
          | inl hkept =>
              by_cases hqr : q = r
              · right
                refine ⟨x, List.mem_cons_self, hqr ▸ ha, ?_⟩
                rw [hkept.2, hqr, hdata]
              · left
                have hcached := hkept.1
                rw [hplaced.uncached hq hqr, not_or] at hcached
                exact ⟨hcached.1, hkept.2.trans (hplaced.mem q hqr)⟩
          | inr hnew =>
              obtain ⟨y, hy, hdata⟩ := hnew
              exact .inr ⟨y, List.mem_cons_of_mem _ hy, hdata⟩

theorem getpgrantserver_contents {xs : List ExtraPage} {rnd : List Nat} {wv : BitVec Wvbits}
    {data : Page} (hw : Pending cfg m w) (hx : Extras cfg w.page xs)
    (h : m.getpgrantserver cfg (cfg.pageAddr w.page) wv data xs rnd = .ok m') :
    m'.mem w.page = received cfg m w.page wv data ∧
      ∀ q < cfg.npages, q ≠ w.page → ¬ m'.Uncached cfg q →
        (¬ m.Uncached cfg q ∧ m'.mem q = m.mem q) ∨
          ∃ x ∈ xs, x.addr = cfg.pageAddr q ∧ m'.mem q = x.data := by
  rw [getpgrantserver_pending hw, bind_eq_ok] at h
  obtain ⟨m₁, hinst, h⟩ := h
  obtain rfl := Except.ok.inj h
  have hset := hw.setMem (received cfg m w.page wv data)
  obtain ⟨hmem, hothers⟩ := installExtras_contents hset.linked hx hinst
  constructor
  · calc m₁.mem w.page = (m.setMem w.page (received cfg m w.page wv data)).mem w.page := hmem
      _ = received cfg m w.page wv data := by simp
  · intro q hq hqp hin
    cases hothers q hq hin with
    | inl hkept =>
        left
        refine ⟨hkept.1, hkept.2.trans ?_⟩
        rw [setMem_mem, upd_of_ne _ _ hqp]
    | inr hnew => exact .inr hnew

/-- The requester has the page as the home has it, and so are the prefetched pages that
have come into its cache. -/
structure Fetched (cfg : Config) (w : FaultWait) (home m home' m' : MemState) : Prop where
  home : home'.mem = home.mem
  page : Delivered cfg w (home'.mem w.page) m'
  others : ∀ q < cfg.npages, q ≠ w.page → ¬ m'.Uncached cfg q →
    (¬ m.Uncached cfg q ∧ m'.mem q = m.mem q) ∨ m'.mem q = home'.mem q

/-- What a fetch that ends has done, with the entry written before the reply. -/
theorem fetch_contents (hrange : PrefetchRange cfg) (ho : HomeOk cfg pid home)
    (ha : Asked cfg m w) (hhome : (home.page w.page).homepid = pid) {src : Nat} {temp : Bool}
    {old : Bytes.Buffer} {rnd : List Nat}
    (h : fetch cfg pid src home m w temp (.before 0) old rnd = .ok (home', m')) :
    home'.mem = home.mem ∧
      m'.mem w.page = received cfg m w.page (sentVector cfg pid src home w.page temp)
        (maskPage (sentVector cfg pid src home w.page temp) (home.mem w.page) zeroPage) ∧
      ∀ q < cfg.npages, q ≠ w.page → ¬ m'.Uncached cfg q →
        (¬ m.Uncached cfg q ∧ m'.mem q = m.mem q) ∨ m'.mem q = home'.mem q := by
  have hin := fetch_inside hrange ho ha.marked.page hhome h
  obtain ⟨home₁, hans, hfetch⟩ := fetch_eq hrange ho ha.marked.page hhome src temp hin
  rw [hfetch, getpgrantserverMarked_first, bind_eq_ok] at h
  obtain ⟨m₁, hgrant, h⟩ := h
  simp only [pure, Except.pure, Except.ok.injEq, Prod.mk.injEq] at h
  obtain ⟨rfl, rfl⟩ := h
  obtain ⟨hmem, hothers⟩ := getpgrantserver_contents ha.marked (extras_prefetchedPages ho) hgrant
  refine ⟨hans.mem, hmem, ?_⟩
  intro q hq hqp hcached
  cases hothers q hq hqp hcached with
  | inl hkept => exact .inl hkept
  | inr hnew =>
      right
      obtain ⟨x, hx, hax, hdata⟩ := hnew
      obtain ⟨r, hr, rfl⟩ := List.mem_map.mp hx
      have hlt := ho.lt (mem_prefetched.mp hr).2.2.2.1
      have hrq : r = q := cfg.pageAddr_inj hlt hq hax
      rw [hdata, hans.mem, hrq]

/-- The requester gets the page, whatever `replacei` returns, when its fault handler writes
the entry at time `t`. -/
def FetchedAt (cfg : Config) (pid src : Nat) (home m : MemState) (w : FaultWait) (temp : Bool)
    (t : MarkTime) : Prop :=
  ∀ old rnd, ∃ home' m', fetch cfg pid src home m w temp t old rnd = .ok (home', m') ∧
    Fetched cfg w home m home' m'

/-- The blocks that the message leaves out are those the requester has. -/
def VectorFits (cfg : Config) (pid src : Nat) (home m : MemState) (p : Nat) (temp : Bool) : Prop :=
  cfg.wVec = true → temp = true → ∀ q, LastPrefetched cfg pid home p q →
    AgreeClear ((home.home (home.page q).homei).wtvect src) (home.mem p) (m.mem p)

/-- The page arrives that was asked for, with the entry written before the reply. -/
theorem fetchedAt_first_iff (hrange : PrefetchRange cfg) (ho : HomeOk cfg pid home)
    (ha : Asked cfg m w) (hhome : (home.page w.page).homepid = pid) {src : Nat} {temp : Bool}
    (hagree : temp = true → AgreeClear ((home.home (home.page w.page).homei).wtvect src)
      (home.mem w.page) (m.mem w.page)) :
    FetchedAt cfg pid src home m w temp (.before 0) ↔
      ScanInside cfg pid home w.page ∧ VectorFits cfg pid src home m w.page temp ∧
        (w.writefault = true ∨
          HasRoom cfg (m.markSlot cfg w) (prefetchedPages cfg pid home w.page)) := by
  have hx := @extras_prefetchedPages cfg pid home w.page ho
  have hfull := fun hoff => @sentVector_full cfg pid home w.page src temp hoff
  have hp := ha.marked.page
  unfold VectorFits
  rw [← agreeClear_sentVector hagree, ← received_eq_iff hfull]
  constructor
  · intro hall
    obtain ⟨home₁, m₁, hfetch, hdone⟩ := hall (fun _ => 0) []
    have hin := fetch_inside hrange ho hp hhome hfetch
    obtain ⟨hmem, hpage, -⟩ := fetch_contents hrange ho ha hhome hfetch
    refine ⟨hin, ?_, ?_⟩
    · rw [← hpage, hdone.page.mem, hmem]
    · cases hwf : w.writefault with
      | true => exact .inl rfl
      | false =>
          right
          by_contra hroom
          obtain ⟨rnd, m₂, hgone, hun⟩ := exists_getpgrantserver_gone
            (sentVector cfg pid src home w.page temp)
            (maskPage (sentVector cfg pid src home w.page temp) (home.mem w.page) zeroPage)
            ha.marked hwf hx hroom
          obtain ⟨home₃, m₃, hfetch₃, hdone₃⟩ := hall (fun _ => 0) rnd
          obtain ⟨home', -, heq⟩ := fetch_eq hrange ho hp hhome src temp hin
          rw [heq, getpgrantserverMarked_first, hgone] at hfetch₃
          obtain rfl : m₂ = m₃ := (Prod.mk.inj (Except.ok.inj hfetch₃)).2
          exact hdone₃.page.cached ha.marked hun
  · rintro ⟨hin, hreceived, hroom⟩ old rnd
    obtain ⟨home', hans, heq⟩ := fetch_eq hrange ho hp hhome src temp hin
    obtain ⟨m', hgrant, hdel⟩ := getpgrantserver_delivered
      (sentVector cfg pid src home w.page temp)
      (maskPage (sentVector cfg pid src home w.page temp) (home.mem w.page) zeroPage)
      ha.marked hx hroom rnd
    have hfetch : fetch cfg pid src home m w temp (.before 0) old rnd = .ok (home', m') := by
      rw [heq, getpgrantserverMarked_first, hgrant]
      rfl
    obtain ⟨hmem, -, hothers⟩ := fetch_contents hrange ho ha hhome hfetch
    refine ⟨home', m', hfetch, hmem, ?_, hothers⟩
    have hsame : received cfg (m.markSlot cfg w) w.page (sentVector cfg pid src home w.page temp)
        (maskPage (sentVector cfg pid src home w.page temp) (home.mem w.page) zeroPage) =
        home'.mem w.page := by
      rw [hmem]
      exact hreceived
    rw [hsame] at hdel
    exact hdel

/-- The requester gets the page of the home, whatever `replacei` returns, just when the
scan for more pages stays inside `page[]`, the requester agrees with the home on the blocks
that the vector of the last page added leaves out, and the page keeps its slot: when the entry
of the fault handler is there before the reply, and when it is written at any time. -/
theorem fetch_page_iff (hrange : PrefetchRange cfg) (ho : HomeOk cfg pid home)
    (ha : Asked cfg m w) (hhome : (home.page w.page).homepid = pid) (src : Nat) (temp : Bool)
    (hagree : temp = true → AgreeClear ((home.home (home.page w.page).homei).wtvect src)
      (home.mem w.page) (m.mem w.page)) :
    (FetchedAt cfg pid src home m w temp (.before 0) ↔
      ScanInside cfg pid home w.page ∧ VectorFits cfg pid src home m w.page temp ∧
        (w.writefault = true ∨
          HasRoom cfg (m.markSlot cfg w) (prefetchedPages cfg pid home w.page))) ∧
    ((∀ t, FetchedAt cfg pid src home m w temp t) ↔
      ScanInside cfg pid home w.page ∧ VectorFits cfg pid src home m w.page temp ∧
        Spare cfg m w (prefetchedPages cfg pid home w.page)) := by
  have hx := @extras_prefetchedPages cfg pid home w.page ho
  have hfirst := fetchedAt_first_iff hrange ho ha hhome hagree
  refine ⟨hfirst, ?_⟩
  constructor
  · intro hall
    obtain ⟨hin, hvector, -⟩ := hfirst.mp (hall (.before 0))
    refine ⟨hin, hvector, ?_⟩
    by_contra hspare
    obtain ⟨t, rnd, m₁, hgone, hun⟩ := exists_getpgrantserverMarked_gone ha hx hspare
      (sentVector cfg pid src home w.page temp)
      (maskPage (sentVector cfg pid src home w.page temp) (home.mem w.page) zeroPage)
    obtain ⟨home₁, m', hfetch, hdone⟩ := hall t (fun _ => 0) rnd
    obtain ⟨home', -, heq⟩ := fetch_eq hrange ho ha.marked.page hhome src temp hin
    rw [heq, hgone] at hfetch
    obtain rfl : m₁ = m' := (Prod.mk.inj (Except.ok.inj hfetch)).2
    exact hdone.page.cached ha.marked hun
  · rintro ⟨hin, hvector, hspare⟩ t old rnd
    -- the entry might as well be there before the reply
    obtain ⟨home₁, m', hfetch, hdone⟩ := hfirst.mpr ⟨hin, hvector, hspare.room⟩ old rnd
    obtain ⟨home', -, heq⟩ := fetch_eq hrange ho ha.marked.page hhome src temp hin
    refine ⟨home₁, m', ?_, hdone⟩
    rw [← hfetch, heq, heq, getpgrantserverMarked_eq ha hx hspare, getpgrantserverMarked_first]

end Fetch

/-! ## Vectors and prefetching -/

theorem HomeOk.setMem (ho : HomeOk cfg pid m) (p : Nat) (pg : Page) :
    HomeOk cfg pid (m.setMem p pg) :=
  ⟨ho.tables.congr (fun _ => rfl) (fun _ => rfl) fun _ => rfl, ho.mapped, ho.beyond⟩

theorem HomeOk.setVector (ho : HomeOk cfg pid m) (i : Nat) (v : Nat → BitVec Wvbits) :
    HomeOk cfg pid (m.setHome i { m.home i with wtvect := v }) where
  tables := by
    refine ho.tables.congr (fun _ => rfl) (fun _ => rfl) ?_
    intro j
    rw [setHome_home, upd_apply]
    split
    · rename_i hj
      rw [hj]
    · rfl
  mapped := ho.mapped
  beyond := ho.beyond

/-- Five pages of host 1, with write vectors, and up to `k` pages sent along. -/
def vectorPages (k : Int) : Config :=
  { Config.fivePages with
    wVec := true
    prefetchFlag := true
    prefetchPages := k
    maxCheckingPages := k }

/-- Host 1 has stored into page 0, all vectors of page 0 are full, and those of page 1 empty. -/
def writtenHome : MemState :=
  let home := (initmem (vectorPages 1) 1).setMem 0 fun _ => 1
  home.setHome 1 { home.home 1 with wtvect := fun _ => 0 }

theorem homeOk_writtenHome : HomeOk (vectorPages 1) 1 writtenHome :=
  ((homeOk_initmem (by decide)).setMem 0 _).setVector 1 _

theorem sentVector_writtenHome : sentVector (vectorPages 1) 1 0 writtenHome 0 true = 0 := by
  decide +kernel

/-- Page 1 goes along with page 0, and its empty vector decides about page 0: the requester
asks again for a page it has a stale copy of, and is left with it. -/
theorem last_vector_hides_page : ∃ m s out, staleThenFault (vectorPages 1) [] 0 = .ok (m, s, out) ∧
    out = [(1, .getp ((vectorPages 1).pageAddr 0) true)] ∧
    Asked (vectorPages 1) m ⟨0, true, s⟩ ∧ HomeOk (vectorPages 1) 1 writtenHome ∧
    AgreeClear ((writtenHome.home (writtenHome.page 0).homei).wtvect 0) (writtenHome.mem 0)
      (m.mem 0) ∧
    ∀ t old rnd, ∃ home' m', fetch (vectorPages 1) 1 0 writtenHome m ⟨0, true, s⟩ true t old rnd =
      .ok (home', m') ∧ m'.mem 0 ≠ home'.mem 0 := by
  have hrange : PrefetchRange (vectorPages 1) := ⟨by decide, by decide⟩
  have hin : ScanInside (vectorPages 1) 1 writtenHome 0 := fun _ _ => .inl (by decide)
  have hp : 0 < (vectorPages 1).npages := by decide
  have hhome : (writtenHome.page 0).homepid = 1 := by decide
  have hstale : staleSlot (vectorPages 1) [] 0 = some (.none, false, .inv) := by decide +kernel
  have hout : (staleThenFault (vectorPages 1) [] 0).toOption.map (fun r => r.2.2) =
      some [(1, .getp ((vectorPages 1).pageAddr 0) true)] := by rfl
  have hrun : (staleThenFault (vectorPages 1) [] 0).toOption.map (fun r =>
      (r.1.mem 0 Config.unit0, decide (Spare (vectorPages 1) r.1 ⟨0, true, r.2.1⟩
        (prefetchedPages (vectorPages 1) 1 writtenHome 0)))) = some (0, true) := by decide +kernel
  cases hr : staleThenFault (vectorPages 1) [] 0 with
  | error e =>
      rw [hr] at hrun
      cases hrun
  | ok r =>
      obtain ⟨m, s, out⟩ := r
      rw [hr] at hrun hout
      simp only [Except.toOption, Option.map_some, Option.some.injEq, Prod.mk.injEq,
        decide_eq_true_eq] at hrun hout
      obtain ⟨hzero, hspare⟩ := hrun
      have ha : Asked (vectorPages 1) m ⟨0, true, s⟩ :=
        staleThenFault_asked (by decide) (by decide) (by decide) hstale hr
      refine ⟨m, s, out, rfl, hout, ha, homeOk_writtenHome, agreeClear_full _ _, ?_⟩
      intro t old rnd
      have hx := @extras_prefetchedPages (vectorPages 1) 1 writtenHome 0 homeOk_writtenHome
      obtain ⟨home', -, heq⟩ := @fetch_eq (vectorPages 1) 1 writtenHome ⟨0, true, s⟩ hrange
        homeOk_writtenHome hp hhome 0 true hin
      obtain ⟨m', hgrant, -⟩ := getpgrantserver_delivered
        (sentVector (vectorPages 1) 1 0 writtenHome 0 true)
        (maskPage (sentVector (vectorPages 1) 1 0 writtenHome 0 true) (writtenHome.mem 0) zeroPage)
        ha.marked hx (.inl rfl) rnd
      have hfetch : fetch (vectorPages 1) 1 0 writtenHome m ⟨0, true, s⟩ true (.before 0) old rnd =
          .ok (home', m') := by
        rw [heq, getpgrantserverMarked_first, hgrant]
        rfl
      obtain ⟨hmem, hreceived, -⟩ := fetch_contents hrange homeOk_writtenHome ha hhome hfetch
      refine ⟨home', m', ?_, ?_⟩
      · rw [← hfetch, heq, heq, getpgrantserverMarked_eq ha hx hspare, getpgrantserverMarked_first]
      · intro hsame
        rw [hreceived, hmem, sentVector_writtenHome, received_eq_iff fun hoff => by cases hoff]
          at hsame
        have hone : m.mem 0 Config.unit0 = 1 := hsame Config.unit0 (by decide)
        rw [hzero] at hone
        exact absurd hone (by decide)

/-- Host 1 has stored into block 3 of page 1 since host 0 has read it; the vector of page 3,
the last one that goes along, has this block and one more. -/
def partlyWritten : MemState :=
  let home := (initmem (vectorPages 2) 1).setMem 1 fun u => if u.val / Blockunits = 3 then 5 else 0
  let home := home.setHome 1 { home.home 1 with wtvect := fun _ => 1 <<< 3 }
  home.setHome 3 { home.home 3 with wtvect := fun _ => 1 <<< 3 ||| 1 <<< 7 }

theorem homeOk_partlyWritten : HomeOk (vectorPages 2) 1 partlyWritten :=
  (((homeOk_initmem (by decide)).setMem 1 _).setVector 1 _).setVector 3 _

theorem agreeClear_partlyWritten {wv : BitVec Wvbits} (h : wv.getLsbD 3 = true) :
    AgreeClear wv (partlyWritten.mem 1) zeroPage := by
  intro u hclear
  have hblock : u.val / Blockunits ≠ 3 := by
    intro heq
    rw [heq, h] at hclear
    cases hclear
  have hmem : partlyWritten.mem 1 u = if u.val / Blockunits = 3 then 5 else 0 := rfl
  rw [hmem, if_neg hblock]
  rfl

/-- Host 0 has read pages 0, 1 and 2 and has been told that page 1 has changed.  It asks for
page 1 again and gets the block that has changed, with page 3, for which the last UNMAP slot is
taken. -/
theorem fetch_page_staleCopy : ∃ m s out,
    staleThenFault (vectorPages 2) [0, 2] 1 = .ok (m, s, out) ∧
    prefetched (vectorPages 2) 1 partlyWritten 1 = [2, 3] ∧
    ∀ t, FetchedAt (vectorPages 2) 1 0 partlyWritten m ⟨1, true, s⟩ true t := by
  have hrange : PrefetchRange (vectorPages 2) := ⟨by decide, by decide⟩
  have hstale : staleSlot (vectorPages 2) [0, 2] 1 = some (.none, false, .inv) := by
    decide +kernel
  have hmem : (staleThenFault (vectorPages 2) [0, 2] 1).toOption.map (fun r => r.1.mem 1) =
      some zeroPage := by rfl
  have hspare : (staleThenFault (vectorPages 2) [0, 2] 1).toOption.map (fun r =>
      decide (Spare (vectorPages 2) r.1 ⟨1, true, r.2.1⟩
        (prefetchedPages (vectorPages 2) 1 partlyWritten 1))) = some true := by decide +kernel
  have hpages : prefetched (vectorPages 2) 1 partlyWritten 1 = [2, 3] := by decide +kernel
  have hhome : (partlyWritten.page 1).homepid = 1 := by decide
  have hin : ScanInside (vectorPages 2) 1 partlyWritten 1 := fun _ _ => .inl (by decide)
  have hown : ((partlyWritten.home (partlyWritten.page 1).homei).wtvect 0).getLsbD 3 = true := by
    decide
  have hlastVector : ((partlyWritten.home (partlyWritten.page 3).homei).wtvect 0).getLsbD 3 =
      true := by decide
  cases hr : staleThenFault (vectorPages 2) [0, 2] 1 with
  | error e =>
      rw [hr] at hspare
      cases hspare
  | ok r =>
      obtain ⟨m, s, out⟩ := r
      rw [hr] at hspare hmem
      simp only [Except.toOption, Option.map_some, Option.some.injEq, decide_eq_true_eq]
        at hspare hmem
      have ha : Asked (vectorPages 2) m ⟨1, true, s⟩ :=
        staleThenFault_asked (by decide) (by decide) (by decide) hstale hr
      refine ⟨m, s, out, rfl, hpages, ?_⟩
      refine (fetch_page_iff hrange homeOk_partlyWritten ha hhome 0 true ?_).2.mpr
        ⟨hin, ?_, hspare⟩
      · intro _
        rw [hmem]
        exact agreeClear_partlyWritten hown
      · -- the vector of page 3
        intro _ _ q hq
        have hlast : q = 3 := by
          have hmem₃ := mem_prefetched.mpr hq.1
          have hle := hq.2 3 (mem_prefetched.mp (by rw [hpages]; decide))
          rw [hpages] at hmem₃
          have hin : ∀ q ∈ [2, 3], 3 ≤ q → q = 3 := by decide
          exact hin q hmem₃ hle
        rw [hlast, hmem]
        exact agreeClear_partlyWritten hlastVector

end MemState

end Jiajia
