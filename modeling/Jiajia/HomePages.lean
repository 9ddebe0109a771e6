import Jiajia.Announce

/-!
# The pages of a host itself

A host maps its own pages from the start.  The write bit of the home entry says whether
the application may write to the page, and `diffserver` and `getpserver` rely on it.
-/

namespace Jiajia

open Fifo Transition Host MemState

variable {cfg : Config} {pid p : Nat}

namespace MemState

variable {m m' : MemState}

/-- Page `p` of this host can be read, and written if its write bit is set. -/
structure OpenAt (m : MemState) (p : Nat) : Prop where
  readable : m.Readable p
  writable : (m.home (m.page p).homei).wtnt &&& 1 = 1 → m.prot p = .readWrite

theorem OpenAt.mapped (h : OpenAt m p) : m.prot p ≠ .unmapped := by
  rcases h.readable with hp | hp <;> rw [hp] <;> simp

/-- The mapping and the write bit stay. -/
theorem OpenAt.congr (h : OpenAt m p) (hsame : SameSlot p m m')
    (hbit : (m'.home (m.page p).homei).wtnt &&& 1 = (m.home (m.page p).homei).wtnt &&& 1) :
    OpenAt m' p where
  readable := by
    have hread := h.readable
    unfold Readable at hread ⊢
    rwa [hsame.prot]
  writable hw := by
    rw [hsame.page, hbit] at hw
    rw [hsame.prot, h.writable hw]

theorem openAt_of_write (hprot : m.prot p = .readWrite) : OpenAt m p :=
  ⟨Or.inr hprot, fun _ => hprot⟩

theorem openAt_of_read (hprot : m.prot p = .read)
    (hbit : (m.home (m.page p).homei).wtnt &&& 1 ≠ 1) : OpenAt m p :=
  ⟨Or.inl hprot, fun hw => absurd hw hbit⟩

/-- Two pages of a host have two home entries. -/
theorem homei_ne (ht : m.HomeTables cfg pid) {q : Nat} (hp : p < cfg.npages) (hq : q < cfg.npages)
    (hhome : (m.page p).homepid = pid) (hhome' : (m.page q).homepid = pid) (hpq : p ≠ q) :
    (m.page p).homei ≠ (m.page q).homei := by
  intro heq
  have ha := (ht.home p hp hhome).2
  rw [heq, (ht.home q hq hhome').2] at ha
  exact hpq (cfg.pageAddr_inj hq hp ha).symm

/-! ## Faults and requests -/

theorem openAt_homeFault (ht : m.HomeTables cfg pid) {q : Nat} (hp : p < cfg.npages)
    (hq : q < cfg.npages) (hhome : (m.page p).homepid = pid) (hhome' : (m.page q).homepid = pid)
    (hopen : OpenAt m p) (h : m.homeFault cfg q = .ok m') : OpenAt m' p := by
  by_cases hpq : p = q
  · subst hpq
    apply openAt_of_write
    simp only [homeFault, bind_eq_ok, pure, Except.pure, Except.ok.injEq] at h
    obtain ⟨m₁, hprot, -, -, rfl⟩ := h
    obtain ⟨-, rfl⟩ := memprotect_eq_ok.mp hprot
    simp
  · refine hopen.congr (sameSlot_homeFault (Ne.symm hpq) h) ?_
    simp only [homeFault, bind_eq_ok, pure, Except.pure, Except.ok.injEq] at h
    obtain ⟨m₁, hprot, -, -, rfl⟩ := h
    obtain ⟨-, rfl⟩ := memprotect_eq_ok.mp hprot
    have hne := homei_ne ht hp hq hhome hhome' hpq
    simp [hne]

/-- A diff for a page leaves it open, whether it had to open the page or not. -/
theorem openAt_applyDiff (ht : m.HomeTables cfg pid) {src : Nat} {d : PageDiff}
    (hp : p < cfg.npages) (hhome : (m.page p).homepid = pid) (hopen : OpenAt m p)
    (h : m.applyDiff cfg src d = .ok m') : OpenAt m' p := by
  have happ := applyDiff_ok h
  by_cases hd : cfg.pagei d.addr = p
  · have hentry : m.homeWtnt cfg (m.homepage cfg d.addr) = (m.home (m.page p).homei).wtnt := by
      rw [homeWtnt, homepage, hd, if_pos (ht.home p hp hhome).1]
    have hprot := happ.prot
    rw [hentry, hd] at hprot
    split at hprot
    · rename_i hw
      apply openAt_of_write
      rw [hprot, hopen.writable hw]
    · rename_i hw
      apply openAt_of_read
      · rw [hprot, upd_same]
      · rwa [happ.page, happ.home_wtnt]
  · refine hopen.congr (sameSlot_applyDiff hd h) ?_
    rw [happ.home_wtnt]

theorem openAt_applyDiffs {src : Nat} {ds : List PageDiff} (ht : m.HomeTables cfg pid)
    (hp : p < cfg.npages) (hhome : (m.page p).homepid = pid) (hopen : OpenAt m p)
    (h : applyDiffs cfg src m ds = .ok m') : OpenAt m' p := by
  induction ds generalizing m with
  | nil =>
      simp only [applyDiffs, Except.ok.injEq] at h
      exact h ▸ hopen
  | cons d ds ih =>
      simp only [applyDiffs, bind_eq_ok] at h
      obtain ⟨m₁, hd, hrest⟩ := h
      have happ := applyDiff_ok hd
      have ht₁ : m₁.HomeTables cfg pid :=
        ht.congr (fun _ => by rw [happ.page]) (fun _ => by rw [happ.page]) happ.home_addr
      exact ih ht₁ (by rwa [happ.page]) (openAt_applyDiff ht hp hhome hopen hd) hrest

/-- The answer to a request for a page of this host: the page itself, and nothing but the
flag `rdnt` changes. -/
theorem getpserver_basic (hb : cfg.Basic) (ht : m.HomeTables cfg pid) {src q : Nat} {temp : Bool}
    (hq : q < cfg.npages) (hhome : (m.page q).homepid = pid) (hread : m.Readable q) :
    m.getpserver cfg pid src (cfg.pageAddr q) temp =
      .ok (m.setHome (m.page q).homei { m.home (m.page q).homei with rdnt := true },
        [(src, .getpgrant (cfg.pageAddr q) WVFULL (maskPage WVFULL (m.mem q) zeroPage) [])]) := by
  have hown : m.homehost cfg (cfg.pageAddr q) = pid := by
    rw [homehost, cfg.pagei_pageAddr hq, hhome]
  have hentry : m.homepage cfg (cfg.pageAddr q) = (m.page q).homei := by
    rw [homepage, cfg.pagei_pageAddr hq]
  have hread' : (m.setHome (m.page q).homei
      { m.home (m.page q).homei with rdnt := true }).Readable q := hread
  unfold getpserver
  simp only [hentry]
  rw [if_neg (by simp [hb.hMig])]
  simp only [bind_eq_ok, jiaAssert_eq_ok, defined_eq_ok, Prod.exists, pure, Except.pure,
    Except.ok.injEq, Prod.mk.injEq]
  refine ⟨(), hown, (), (ht.home q hq hhome).1, m, ?_,
    m.setHome (m.page q).homei { m.home (m.page q).homei with rdnt := true }, [], ?_, _, m.mem q,
    ?_, _, [], rfl, (), by decide, rfl, ?_⟩
  · rw [renewTwin, if_neg (by simp [hb.wVec])]
  · rw [prefetch, if_neg (by simp [hb.prefetchFlag])]
  · rw [if_neg (by simp [hb.wVec]), cfg.pagei_pageAddr hq, copyPage, if_pos hread']
    rfl
  · rw [if_neg (by simp [hb.wVec])]

/-! ## Intervals -/

/-- `startinterval` closes the written pages. -/
theorem openAt_startHome (ht : m.HomeTables cfg pid) (hc : m.Compact) (hp : p < cfg.npages)
    (hhome : (m.page p).homepid = pid) (hopen : OpenAt m p) (h : startHome cfg m = .ok m') :
    OpenAt m' p := by
  simp only [startHome, bind_eq_ok, pure, Except.pure, Except.ok.injEq] at h
  obtain ⟨-, -, rfl⟩ := h
  have hentry := ht.home p hp hhome
  by_cases hw : (m.page p).homei < m.hpages ∧ (m.home (m.page p).homei).wtnt &&& 1 ≠ 0
  · apply openAt_of_read
    · exact if_pos ⟨_, hw.1, hw.2, by rw [hentry.2, cfg.pagei_pageAddr hp]⟩
    · dsimp only
      rw [if_pos hw]
      exact and_fe_clear _
  · refine hopen.congr ⟨rfl, rfl, if_neg ?_⟩ ?_
    · rintro ⟨i, hi, hbit, ha⟩
      obtain ⟨q, hq, hqa, hqi⟩ := ht.entry i (lt_of_lt_of_le hi hc.1) (hc.2 i hi)
      rw [hqa, cfg.pagei_pageAddr hq] at ha
      subst ha
      rw [hqi] at hw
      exact hw ⟨hi, hbit⟩
    · simp only [if_neg hw]

/-- What a turn of the loop for adaptive write detection does to its entry. -/
inductive Adapted (m m' : MemState) (i p : Nat) : Prop
  | keep (hprot : m'.prot = m.prot)
      (hbit : (m'.home i).wtnt &&& 1 = 1 → (m.home i).wtnt &&& 1 = 1)
  | opened (hprot : m'.prot p = .readWrite)
  | closed (hprot : m'.prot p = .read) (hbit : (m'.home i).wtnt &&& 1 ≠ 1)

theorem wtnt_twinHome (m : MemState) (i j : Nat) :
    ((twinHome cfg m i).home j).wtnt = (m.home j).wtnt := by
  unfold twinHome
  simp only
  split
  · exact wtnt_setHome (m := m) (by rfl) j
  · rfl

theorem prot_twinHome (m : MemState) (i : Nat) : (twinHome cfg m i).prot = m.prot := by
  unfold twinHome
  simp only
  split <;> rfl

theorem startHomeAdwd_adapted {i : Nat} (h : startHomeAdwd cfg m i = .ok m') :
    Adapted m m' i (cfg.pagei (m.home i).addr) := by
  have hclear : ∀ w : BitVec 8, w &&& 1 ≠ 1 →
      Adapted m (m.setHome i { m.home i with wtnt := w }) i (cfg.pagei (m.home i).addr) := by
    intro w hw
    refine .keep rfl ?_
    intro hbit
    rw [setHome_home, upd_same] at hbit
    exact absurd hbit hw
  have hclose : ∀ w : BitVec 8, w &&& 1 ≠ 1 →
      (m.setHome i { m.home i with wtnt := w }).memprotect (cfg.pagei (m.home i).addr) .read =
        .ok m' → Adapted m m' i (cfg.pagei (m.home i).addr) := by
    intro w hw hprot
    obtain ⟨-, rfl⟩ := memprotect_eq_ok.mp hprot
    exact .closed (by simp) (by simpa using hw)
  unfold startHomeAdwd at h
  simp only at h
  split at h
  · obtain rfl := Except.ok.inj h
    exact .keep rfl id
  · cases h
  · cases h
  · split at h
    · simp only [bind_eq_ok, pure, Except.pure, Except.ok.injEq] at h
      obtain ⟨m₁, hprot, rfl⟩ := h
      obtain ⟨-, rfl⟩ := memprotect_eq_ok.mp hprot
      exact .opened (by simp [prot_twinHome])
    · obtain rfl := Except.ok.inj h
      exact hclear _ (count_clear _)
  · split at h
    · obtain rfl := Except.ok.inj h
      exact .keep (prot_twinHome m i) (by rw [wtnt_twinHome]; exact id)
    · exact hclose _ (count_clear _) h
  · exact hclose 0 (by decide) h
  · obtain rfl := Except.ok.inj h
    exact hclear 0 (by decide)

/-- The turn leaves the other entries alone. -/
theorem wtnt_startHomeAdwd {i j : Nat} (hj : j ≠ i) (h : startHomeAdwd cfg m i = .ok m') :
    (m'.home j).wtnt = (m.home j).wtnt := by
  have hset : ∀ e : HomeEntry, ((m.setHome i e).home j).wtnt = (m.home j).wtnt := by
    intro e
    rw [setHome_home, upd_of_ne _ _ hj]
  have hprot : ∀ {m₁ m₂ : MemState} {q : Nat} {pr : Prot}, m₁.memprotect q pr = .ok m₂ →
      m₂.home = m₁.home := by
    intro m₁ m₂ q pr hm
    obtain ⟨-, rfl⟩ := memprotect_eq_ok.mp hm
    rfl
  unfold startHomeAdwd at h
  simp only at h
  split at h
  · exact Except.ok.inj h ▸ rfl
  · cases h
  · cases h
  · split at h
    · simp only [bind_eq_ok, pure, Except.pure, Except.ok.injEq] at h
      obtain ⟨m₁, hm, rfl⟩ := h
      rw [wtnt_twinHome, setHome_home, upd_of_ne _ _ hj, hprot hm]
    · exact Except.ok.inj h ▸ hset _
  · split at h
    · exact Except.ok.inj h ▸ wtnt_twinHome m i j
    · rw [hprot h, hset]
  · rw [hprot h, hset]
  · exact Except.ok.inj h ▸ hset _

theorem openAt_startHomeAdwd {i : Nat} (ht : m.HomeTables cfg pid) (hi : i < Homepages)
    (hused : (m.home i).addr ≠ 0) (hp : p < cfg.npages) (hhome : (m.page p).homepid = pid)
    (hopen : OpenAt m p) (h : startHomeAdwd cfg m i = .ok m') : OpenAt m' p := by
  obtain ⟨q, hq, hqa, hqi, hqhome⟩ := ht.owned hi hused
  have hpage : m'.page p = m.page p := still_page (still_startHomeAdwd h) p
  have hqp : cfg.pagei (m.home i).addr = q := by rw [hqa, cfg.pagei_pageAddr hq]
  by_cases hpq : p = q
  · subst hpq
    have hadapted := startHomeAdwd_adapted h
    rw [hqp] at hadapted
    cases hadapted with
    | keep hprot hbit =>
        constructor
        · have hread := hopen.readable
          unfold Readable at hread ⊢
          rwa [hprot]
        · intro hw
          rw [hpage, hqi] at hw
          rw [hprot]
          exact hopen.writable (hqi ▸ hbit hw)
    | opened hprot => exact openAt_of_write hprot
    | closed hprot hbit =>
        apply openAt_of_read hprot
        rwa [hpage, hqi]
  · have hne : (m.page p).homei ≠ i := hqi ▸ homei_ne ht hp hq hhome hqhome hpq
    refine hopen.congr (sameSlot_startHomeAdwd (by rw [hqp]; exact Ne.symm hpq) h) ?_
    rw [wtnt_startHomeAdwd hne h]

theorem openAt_startHomesAdwd {is : List Nat} (ht : m.HomeTables cfg pid)
    (hused : ∀ i ∈ is, i < Homepages ∧ (m.home i).addr ≠ 0) (hp : p < cfg.npages)
    (hhome : (m.page p).homepid = pid) (hopen : OpenAt m p)
    (h : startHomesAdwd cfg m is = .ok m') : OpenAt m' p := by
  induction is generalizing m with
  | nil =>
      simp only [startHomesAdwd, Except.ok.injEq] at h
      exact h ▸ hopen
  | cons i is ih =>
      simp only [startHomesAdwd, bind_eq_ok] at h
      obtain ⟨m₁, hone, hrest⟩ := h
      have hstill := still_startHomeAdwd hone
      obtain ⟨hi, hne⟩ := hused i List.mem_cons_self
      refine ih (hstill.home.tables ht) ?_ (by rwa [hstill.home.homepid])
        (openAt_startHomeAdwd ht hi hne hp hhome hopen hone) hrest
      intro j hj
      rw [hstill.home.addr]
      exact hused j (List.mem_cons_of_mem _ hj)

theorem openAt_startHomes {barr : Bool} (ht : m.HomeTables cfg pid) (hc : m.Compact)
    (hp : p < cfg.npages) (hhome : (m.page p).homepid = pid) (hopen : OpenAt m p)
    (h : startHomes cfg barr m = .ok m') : OpenAt m' p := by
  unfold startHomes at h
  split at h
  · refine openAt_startHomesAdwd ht ?_ hp hhome hopen h
    intro i hi
    rw [List.mem_range] at hi
    exact ⟨lt_of_lt_of_le hi hc.1, hc.2 i hi⟩
  · exact openAt_startHome ht hc hp hhome hopen h

end MemState

/-! ## Steps -/

variable {h h' : Host} {out : Out}

theorem home_faultEnd {m m' : MemState} {w : FaultWait} (hm : m.faultEnd w = .ok m') :
    m'.home = m.home := by
  unfold faultEnd at hm
  split at hm
  · rw [← Except.ok.inj hm]
    rfl
  · obtain ⟨-, rfl⟩ := memprotect_eq_ok.mp hm
    rfl

theorem openAt_startCache {m₁ : MemState} (hi : CacheInverse cfg pid h.m) (hp : p < cfg.npages)
    (hhome : (h.m.page p).homepid = pid) (hopen : OpenAt h.m p)
    (h₁ : startCache cfg h.m = .ok m₁) : OpenAt m₁ p := by
  have hslot := hi.home p hp hhome
  refine hopen.congr (sameSlot_startCache hi hp
    (fun hlt => absurd hslot (Nat.not_le.mpr hlt)) h₁) ?_
  simp only [startCache, bind_eq_ok, pure, Except.pure, Except.ok.injEq] at h₁
  obtain ⟨-, -, rfl⟩ := h₁
  rfl

theorem openAt_startinterval {m₁ m₂ : MemState} {barr : Bool} (hi : CacheInverse cfg pid h.m)
    (hok : PagesOk cfg pid h) (hc : h.m.Compact) (hp : p < cfg.npages)
    (hhome : (h.m.page p).homepid = pid) (hopen : OpenAt h.m p) (h₁ : startCache cfg h.m = .ok m₁)
    (h₂ : startHomes cfg barr m₁ = .ok m₂) : OpenAt m₂ p := by
  have hkeep := (startCache_ok hok.tables.cache h₁).1
  exact openAt_startHomes (hkeep.tables hok.tables.home) (hkeep.compact hc) hp
    (by rwa [hkeep.homepid]) (openAt_startCache hi hp hhome hopen h₁) h₂

theorem main_openAt {a : Act} (hoff : cfg.hMig = false) (hi : CacheInverse cfg pid h.m)
    (hok : PagesOk cfg pid h) (hrem : RemoteOk cfg pid h) (hp : p < cfg.npages)
    (hhome : (h.m.page p).homepid = pid) (hopen : OpenAt h.m p) (hm : Main cfg pid h a h' out) :
    OpenAt h'.m p := by
  have hstart : ∀ {m₁ m₂ : MemState} {barr : Bool}, startCache cfg h.m = .ok m₁ →
      startHomes cfg barr m₁ = .ok m₂ → OpenAt m₂ p := fun h₁ h₂ =>
    openAt_startinterval hi hok (hok.compact (Or.inl hoff)) hp hhome hopen h₁ h₂
  cases hm with
  | store => exact hopen.congr ⟨rfl, rfl, rfl⟩ rfl
  | homeFault hpc hq hfault hhome' hm =>
      exact openAt_homeFault hok.tables.home hp hq hhome hhome' hopen hm
  | @cacheFault q seti write m w out hpc hq hfault haway hm =>
      have hpq : p ≠ q := by
        rintro rfl
        exact haway hhome
      rcases cacheFault_other hi hp hq hpq hm with hsame | ⟨hc, -⟩
      · exact hopen.congr hsame (by rw [wtnt_cacheFault hm])
      · have hslot := hi.home p hp hhome
        omega
  | @faultEnd w m hpc hwait hm =>
      obtain ⟨hlt, haway⟩ := hrem.fault w hpc
      have hwp : w.page ≠ p := by
        intro heq
        rw [heq] at haway
        exact haway hhome
      obtain ⟨c, hat⟩ := hrem.page w.page hlt haway
      obtain rfl := hat.of_fault hpc rfl
      cases hat with
      | faulting _ hc _ _ _ _ _ hslot =>
          have hpslot := hi.home p hp hhome
          refine hopen.congr (faultEnd_other hwp ?_ hm) (by rw [home_faultEnd hm])
          omega
  | start hpc hhost ha hop hm =>
      obtain ⟨y, dm, -, -, rfl⟩ := endinterval_ok hm
      exact hopen.congr ⟨rfl, rfl, rfl⟩ rfl
  | @scan op i n h₁ hpc hlt hm =>
      have hscan : OpenAt h₁.m p := hopen.congr (sameSlot_scanHome hm) (by rw [wtnt_scanHome hm])
      exact hscan
  | acquired hpc hwait hm =>
      obtain ⟨m₁, m₂, h₁, h₂, rfl⟩ := startinterval_ok hm
      exact hstart h₁ h₂
  | release hpc hwait hout hm =>
      obtain ⟨m₁, m₂, h₁, h₂, rfl⟩ := startinterval_ok hm
      exact hstart h₁ h₂
  | arrive hpc hwait hm =>
      obtain ⟨cs, -, -, rfl⟩ := arrive_ok hm
      exact hopen
  | leave hpc hm =>
      obtain ⟨m₁, m₂, h₁, h₂, rfl⟩ := leaveBarrier_ok hm
      exact hstart h₁ h₂
  | _ => exact hopen

theorem bit0_or_four : ∀ w : BitVec 8, (w ||| 4) &&& 1 = w &&& 1 := by decide

/-- A copy that is taken away is one of a page of another host. -/
theorem sameSlot_invalidateCopy {n : GrantNotice} {m m' : MemState} (hi : CacheInverse cfg pid m)
    (hn : cfg.IsPage n.addr) (hp : p < cfg.npages) (hhome : (m.page p).homepid = pid)
    (hm : invalidateCopy cfg pid m n = .ok m') : SameSlot p m m' ∧ m'.home = m.home := by
  obtain ⟨q, hq, ha⟩ := hn
  unfold invalidateCopy at hm
  simp only [cachepage, homehost, ha, cfg.pagei_pageAddr hq] at hm
  split at hm
  · rename_i hcond
    obtain ⟨-, haway, hc, -⟩ := hcond
    obtain ⟨-, rfl⟩ := memprotect_eq_ok.mp hm
    have hpq : p ≠ q := by
      rintro rfl
      exact haway hhome
    have haddr := ((hi.slot q hq _ hc).mp rfl).2
    refine ⟨(sameSlot_setCache (cachei_ne hi hp hq hpq hc)).trans ⟨rfl, rfl, ?_⟩, rfl⟩
    simp [haddr, cfg.pagei_pageAddr hq, hpq]
  · rw [← Except.ok.inj hm]
    exact ⟨SameSlot.refl m, rfl⟩

/-- Marking a page of this host sets bit 2. -/
theorem sameSlot_markRemote {lock homepid : Nat} {n : GrantNotice} {m m' : MemState}
    (hm : markRemote cfg pid lock homepid m n = .ok m') :
    SameSlot p m m' ∧ ∀ j, (m'.home j).wtnt &&& 1 = (m.home j).wtnt &&& 1 := by
  unfold markRemote at hm
  split at hm
  · simp only [bind_eq_ok, pure, Except.pure, Except.ok.injEq] at hm
    obtain ⟨-, -, rfl⟩ := hm
    refine ⟨⟨rfl, rfl, rfl⟩, ?_⟩
    intro j
    rw [setHome_home, upd_apply]
    split
    · rename_i hj
      subst hj
      exact bit0_or_four _
    · rfl
  · rw [← Except.ok.inj hm]
    exact ⟨SameSlot.refl _, fun _ => rfl⟩

/-- The notices of a grant are about cached pages, which are pages of other hosts. -/
theorem openAt_invalidate {lock : Nat} {ns : List GrantNotice} {m m' : MemState}
    (hoff : cfg.hMig = false) (hi : CacheInverse cfg pid m) (hp : p < cfg.npages)
    (hhome : (m.page p).homepid = pid) (hns : ∀ n ∈ ns, cfg.IsPage n.addr) (hopen : OpenAt m p)
    (hm : invalidate cfg pid lock m ns = .ok m') : OpenAt m' p := by
  induction ns generalizing m with
  | nil =>
      simp only [invalidate, Except.ok.injEq] at hm
      exact hm ▸ hopen
  | cons n ns ih =>
      simp only [invalidate, bind_eq_ok] at hm
      obtain ⟨m₁, hone, hrest⟩ := hm
      have hn := hns n List.mem_cons_self
      have hi₁ : CacheInverse cfg pid m₁ := hi.invalidateNotice hn hone
      simp only [invalidateNotice, bind_eq_ok] at hone
      obtain ⟨m₂, hcopy, m₃, hmig, hmark⟩ := hone
      unfold migrateNotice at hmig
      rw [if_neg (by simp [hoff])] at hmig
      obtain rfl := Except.ok.inj hmig
      obtain ⟨hfirst, hhome₂⟩ := sameSlot_invalidateCopy hi hn hp hhome hcopy
      obtain ⟨hlast, hbit⟩ := sameSlot_markRemote hmark
      have hopen₂ : OpenAt m₂ p := hopen.congr hfirst (by rw [hhome₂])
      have hopen₁ : OpenAt m₁ p := hopen₂.congr hlast (hbit _)
      have hpage : m₁.page p = m.page p := hlast.page.trans hfirst.page
      exact ih hi₁ (by rwa [hpage]) (fun x hx => hns x (List.mem_cons_of_mem _ hx)) hopen₁ hrest

theorem served_openAt {src : Nat} {rnd : List Nat} {msg : Msg} (hb : cfg.Basic)
    (hi : CacheInverse cfg pid h.m) (hok : PagesOk cfg pid h) (hmsg : CopyMsg cfg pid h msg)
    (hall : ∀ q < cfg.npages, (h.m.page q).homepid = pid → OpenAt h.m q) (hp : p < cfg.npages)
    (hhome : (h.m.page p).homepid = pid) (hs : Served cfg pid h src rnd msg h' out) :
    OpenAt h'.m p := by
  have hopen := hall p hp hhome
  have hinv : ∀ {lock : Nat} {ns : List GrantNotice} {m : MemState},
      (∀ n ∈ ns, cfg.IsPage n.addr) → invalidate cfg pid lock h.m ns = .ok m → OpenAt m p :=
    fun hns hm => openAt_invalidate hb.hMig hi hp hhome hns hopen hm
  cases hs with
  | diff hm => exact openAt_applyDiffs hok.tables.home hp hhome hopen hm
  | diffgrant => exact hopen.congr ⟨rfl, rfl, rfl⟩ rfl
  | @getp addr temp m out hm =>
      obtain ⟨q, hq, rfl⟩ := hmsg.pages
      have hhome' := (getpserver_steps hm).1
      rw [homehost, cfg.pagei_pageAddr hq] at hhome'
      rw [getpserver_basic hb hok.tables.home hq hhome' (hall q hq hhome').readable,
        Except.ok.injEq, Prod.mk.injEq] at hm
      rw [← hm.1]
      refine hopen.congr ⟨rfl, rfl, rfl⟩ ?_
      rw [wtnt_setHome (by rfl)]
  | getpgrant hm =>
      obtain ⟨rfl, -⟩ := hmsg.reply _ _ _ _ rfl
      obtain rfl := getpgrantserver_one hb.wVec hm
      exact hopen.congr ⟨rfl, rfl, rfl⟩ rfl
  | acqgrant hm => exact hinv hmsg.pages.1 hm
  | invld hm => exact hinv hmsg.pages.1 hm
  | barrgrant hm =>
      obtain ⟨m, hm', rfl⟩ := barrgrantserver_ok hm
      have hopen' := hinv hmsg.pages.1 hm'
      simpa [hb.hMig] using hopen'
  | _ => exact hopen

/-! ## Runs -/

/-- Every host has its own pages open in every run. -/
theorem reach_openAt (hb : cfg.Basic) {s : State} (hs : (system cfg).Reach s) (i : Nat) :
    ∀ p < cfg.npages, ((s.host i).m.page p).homepid = i → OpenAt (s.host i).m p := by
  revert i
  refine hs.invariant (I := fun s => ∀ i, ∀ p < cfg.npages,
    ((s.host i).m.page p).homepid = i → OpenAt (s.host i).m p) ?_ ?_
  · intro i p hp hhome
    change ((initmem cfg i).page p).homepid = i at hhome
    have howner : cfg.layout.owner p = i := by simpa [initmem, hp] using hhome
    constructor
    · change (initmem cfg i).Readable p
      unfold Readable
      simp only [initmem, hp, howner, and_self, if_true]
      split
      · exact Or.inr rfl
      · exact Or.inl rfl
    · intro hw
      change (0 : BitVec 8) &&& 1 = 1 at hw
      exact absurd hw (by decide)
  · intro s e s' hreach hinv hnext j p hp
    have hcache := reach_cacheInverse (reach_cacheSystem hb.prefetchFlag hreach j)
    have hok := (reach_pages hreach).host j
    have hnew := reach_homepid hb.hMig (hreach.step hnext) j hp
    have hold := reach_homepid hb.hMig hreach j hp
    intro hhome
    rw [hnew, ← hold] at hhome
    have hopen := hinv j p hp hhome
    rcases step_view hnext with ⟨i, act, hst, out, -, hi, hm, -, rfl⟩ |
      ⟨src, dst, rnd, msg, rest, hst, out, -, hnet, hm, -, rfl⟩
    · by_cases hj : j = i
      · subst hj
        rw [State.put_host_same]
        exact main_openAt hb.hMig hcache hok (reach_remoteOk hb hreach j) hp hhome hopen hm
      · rw [State.put_host_of_ne _ _ _ hj]
        exact hopen
    · by_cases hj : j = dst
      · subst hj
        rw [State.put_host_same]
        exact served_openAt hb hcache hok (reach_copyMsg hb hreach hnet) (hinv j) hp hhome hm
      · rw [State.put_host_of_ne _ _ _ hj]
        exact hopen

/-- A page is readable on its home, and writable there exactly while the write bit of its entry
is set. -/
theorem reach_homeMapped (hb : cfg.Basic) (hhost : cfg.hostc ≠ 1) {s : State}
    (hs : (system cfg).Reach s) {p i : Nat} (hp : p < cfg.npages) (hown : cfg.layout.owner p = i) :
    ((s.host i).m.page p).homei < Homepages ∧
      ((s.host i).m.home ((s.host i).m.page p).homei).addr = cfg.pageAddr p ∧
      (s.host i).m.prot p =
        if ((s.host i).m.home ((s.host i).m.page p).homei).wtnt &&& 1 = 1 then .readWrite
        else .read := by
  have hhome : ((s.host i).m.page p).homepid = i := by rw [reach_homepid hb.hMig hs i hp, hown]
  have hentry := ((reach_pages hs).host i).tables.home.home p hp hhome
  have hopen := reach_openAt hb hs i p hp hhome
  refine ⟨hentry.1, hentry.2, ?_⟩
  split
  · rename_i hw
    exact hopen.writable hw
  · rename_i hw
    rcases hopen.readable with hread | hwrite
    · exact hread
    · -- a page that is writable is marked
      have hnot : ¬ Reading (s.host i) p := by
        rintro ⟨w, hpc, -, rfl⟩
        exact ((reach_remoteOk hb hs i).fault w hpc).2 hhome
      have hmarked := (reach_runOk hhost hs i).1.detects.marked p hp hwrite hnot
      exact absurd (hmarked.1 hhome) hw

end Jiajia
