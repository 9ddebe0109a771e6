import Jiajia.Tables

/-!
# Migration keeps the page tables

What `migpage`, `migarrangehome` and `invalidate` do to the tables of a host.
-/

namespace Jiajia

namespace MemState

variable {cfg : Config} {pid : Nat} {m m' m'' : MemState}

/-! ## `migpage` -/

/-- The home of page `p` becomes `modifypid` on host `pid`. -/
structure Migrated (cfg : Config) (pid p modifypid : Nat) (m m' : MemState) : Prop where
  tables : m'.Tables cfg pid
  homepid : ∀ q, (m'.page q).homepid = if q = p then modifypid else (m.page q).homepid
  rdnt : ∀ q < cfg.npages, q ≠ p → (m.page q).homepid = pid → m'.rdnt q = m.rdnt q
  flag : modifypid = pid → m'.rdnt p = false → (m.page p).homepid = pid ∧ m.rdnt p = false
  cached : ∀ q < cfg.npages, m'.Cached cfg q → m.Cached cfg q ∨
    (q = p ∧ (m.page p).homepid = pid ∧ modifypid ≠ pid)
  homesize : m'.homesize = m.homesize
  getpwait : m'.getpwait = m.getpwait

/-- The page tables of a page that keeps its slot, with another home. -/
theorem HomeTables.rehome (ht : m.HomeTables cfg pid) {p modifypid : Nat} (hp : p < cfg.npages)
    (hpid : ∀ q, (m'.page q).homepid = if q = p then modifypid else (m.page q).homepid)
    (hhomei : ∀ q, q ≠ p → (m'.page q).homei = (m.page q).homei)
    (haddr : ∀ q < cfg.npages, q ≠ p → ∀ i < Homepages,
      (m'.home i).addr = cfg.pageAddr q ↔ (m.home i).addr = cfg.pageAddr q)
    (hentry : ∀ i < Homepages, (m'.home i).addr ≠ 0 →
      (m'.home i).addr = (m.home i).addr ∨ (m'.home i).addr = cfg.pageAddr p)
    (hown : modifypid = pid → (m'.page p).homei < Homepages ∧
      (m'.home (m'.page p).homei).addr = cfg.pageAddr p)
    (hgone : modifypid ≠ pid → (m'.page p).homei = Homepages)
    (honly : ∀ i < Homepages, (m'.home i).addr = cfg.pageAddr p → (m'.page p).homei = i) :
    m'.HomeTables cfg pid where
  home q hq hqpid := by
    rw [hpid] at hqpid
    by_cases hqp : q = p
    · subst hqp
      rw [if_pos rfl] at hqpid
      exact hown hqpid
    · rw [if_neg hqp] at hqpid
      obtain ⟨hlt, ha⟩ := ht.home q hq hqpid
      rw [hhomei q hqp]
      exact ⟨hlt, (haddr q hq hqp _ hlt).mpr ha⟩
  away q hq hqpid := by
    rw [hpid] at hqpid
    by_cases hqp : q = p
    · subst hqp
      rw [if_pos rfl] at hqpid
      exact hgone hqpid
    · rw [if_neg hqp] at hqpid
      rw [hhomei q hqp]
      exact ht.away q hq hqpid
  entry i hi hne := by
    by_cases ha : (m'.home i).addr = cfg.pageAddr p
    · exact ⟨p, hp, ha, honly i hi ha⟩
    · rcases hentry i hi hne with heq | heq
      · rw [heq] at hne
        obtain ⟨q, hq, haq, hqi⟩ := ht.entry i hi hne
        have hqp : q ≠ p := by
          rintro rfl
          exact ha (heq.trans haq)
        exact ⟨q, hq, heq.trans haq, (hhomei q hqp).trans hqi⟩
      · exact absurd heq ha
  outside q hq := by
    have hqp : q ≠ p := by omega
    rw [hhomei q hqp]
    exact ht.outside q hq

theorem migNewHome_fields {p : Nat} (hp : p < cfg.npages)
    (h : m.migNewHome cfg (cfg.pageAddr p) = .ok m') :
    ∃ idx < Homepages, (m.home idx).addr = 0 ∧ (m.page p).cachei < cfg.cachepages ∧
      (∀ q, m'.page q = if q = p then
        { m.page p with homei := idx, cachei := cfg.cachepages } else m.page q) ∧
      (∀ i, (m'.home i).addr = if i = idx then cfg.pageAddr p else (m.home i).addr) ∧
      (∀ i, (m'.home i).rdnt = if i = idx then true else (m.home i).rdnt) ∧
      (∀ c, m'.cache c = if c = (m.page p).cachei then
        { m.cache c with state := .unmap, wtnt := false, addr := 0 } else m.cache c) ∧
      m'.homesize = m.homesize ∧ m'.getpwait = m.getpwait := by
  simp only [migNewHome, bind_eq_ok, jiaAssert_eq_ok, pure, Except.pure, Except.ok.injEq,
    cfg.pagei_pageAddr hp] at h
  obtain ⟨-, ⟨hlt, -⟩, -, hfree, rfl⟩ := h
  generalize hidx : firstIdx (fun i => (m.home i).addr == 0) Homepages 0 = idx at hfree
  have hzero : (m.home idx).addr = 0 := by
    have hfound := firstIdx_found (P := fun i => (m.home i).addr == 0) (k := Homepages) (i := 0)
      (by rw [hidx]; omega)
    rw [hidx] at hfound
    simpa using hfound
  refine ⟨idx, hfree, hzero, hlt, ?_, ?_, ?_, ?_, ?_, ?_⟩
  · intro q
    by_cases hv : cfg.wVec = true
    · by_cases hq : q = p
      · subst hq
        simp [hv, setwtvect]
      · simp [hv, setwtvect, hq]
    · by_cases hq : q = p
      · subst hq
        simp [hv]
      · simp [hv, hq]
  · intro i
    by_cases hv : cfg.wVec = true
    · by_cases hi : i = idx
      · simp [hv, setwtvect, hi]
      · simp [hv, setwtvect, hi]
    · by_cases hi : i = idx
      · simp [hv, hi]
      · simp [hv, hi]
  · intro i
    by_cases hv : cfg.wVec = true
    · by_cases hi : i = idx
      · simp [hv, setwtvect, hi]
      · simp [hv, setwtvect, hi]
    · by_cases hi : i = idx
      · simp [hv, hi]
      · simp [hv, hi]
  · intro c
    by_cases hv : cfg.wVec = true
    · by_cases hc : c = (m.page p).cachei
      · simp [hv, setwtvect, hc]
      · simp [hv, setwtvect, hc]
    · by_cases hc : c = (m.page p).cachei
      · simp [hv, hc]
      · simp [hv, hc]
  · by_cases hv : cfg.wVec = true
    · simp [hv, setwtvect]
    · simp [hv]
  · by_cases hv : cfg.wVec = true
    · simp [hv, setwtvect]
    · simp [hv]

theorem migNewHome_ok (ht : m.Tables cfg pid) {p : Nat} (hp : p < cfg.npages)
    (haway : (m.page p).homepid ≠ pid) (h : m.migNewHome cfg (cfg.pageAddr p) = .ok m') :
    Migrated cfg pid p pid m (m'.setPage p { m'.page p with homepid := pid }) := by
  obtain ⟨idx, hidx, hzero, hlt, hpage, haddr, hrdnt, hcache, hsize, hwait⟩ :=
    migNewHome_fields hp h
  have hpi := ht.home.away p hp haway
  have hne0 : ∀ q < cfg.npages, cfg.pageAddr q ≠ 0 := fun q hq => cfg.pageAddr_ne_zero hq
  have hown := (ready_kept ht.cache hp hlt).free
  have hhomei : ∀ q, q ≠ p → (m'.page q).homei = (m.page q).homei := by
    intro q hqp
    rw [hpage, if_neg hqp]
  have hpid : ∀ q, ((m'.setPage p { m'.page p with homepid := pid }).page q).homepid =
      if q = p then pid else (m.page q).homepid := by
    intro q
    by_cases hqp : q = p
    · simp [hqp]
    · simp [hqp, hpage]
  have hpage' : ∀ q, q ≠ p →
      (m'.setPage p { m'.page p with homepid := pid }).page q = m.page q := by
    intro q hqp
    simp [hqp, hpage]
  refine ⟨⟨⟨?_, ?_⟩, ?_⟩, hpid, ?_, ?_, ?_, hsize, hwait⟩
  · intro q hq hqlt
    by_cases hqp : q = p
    · subst hqp
      simp [hpage] at hqlt
    · rw [hpage' q hqp] at hqlt ⊢
      rw [setPage_cache, hcache, if_neg (hown q hq hqp hqlt)]
      exact ht.cache.slot q hq hqlt
  · intro c hc hw
    rw [setPage_cache, hcache] at hw ⊢
    by_cases hcp : c = (m.page p).cachei
    · rw [if_pos hcp] at hw
      cases hw
    · rw [if_neg hcp] at hw ⊢
      exact ht.cache.dirty c hc hw
  · refine ht.home.rehome hp hpid ?_ ?_ ?_ ?_ ?_ ?_
    · intro q hqp
      rw [hpage' q hqp]
    · intro q hq hqp i hi
      rw [setPage_home, haddr]
      by_cases hii : i = idx
      · rw [if_pos hii, hii, hzero]
        constructor
        · exact fun heq => absurd (cfg.pageAddr_inj hp hq heq) (Ne.symm hqp)
        · exact fun heq => absurd heq.symm (hne0 q hq)
      · rw [if_neg hii]
    · intro i hi _
      rw [setPage_home, haddr]
      by_cases hii : i = idx
      · rw [if_pos hii]
        exact Or.inr rfl
      · rw [if_neg hii]
        exact Or.inl rfl
    · intro _
      simp [hpage, haddr, hidx]
    · exact fun hne => absurd rfl hne
    · intro i hi ha
      rw [setPage_home, haddr] at ha
      by_cases hii : i = idx
      · simp [hpage, hii]
      · rw [if_neg hii] at ha
        -- the page had no entry before
        obtain ⟨q, hq, haq, hqi⟩ := ht.home.entry i hi (by rw [ha]; exact hne0 p hp)
        rw [ha] at haq
        obtain rfl := cfg.pageAddr_inj hp hq haq
        omega
  · intro q hq hqp hqpid
    obtain ⟨hqlt, haq⟩ := ht.home.home q hq hqpid
    have hqi : (m.page q).homei ≠ idx := by
      intro heq
      rw [heq, hzero] at haq
      exact hne0 q hq haq.symm
    unfold MemState.rdnt
    rw [hpage' q hqp, setPage_home, hrdnt, if_neg hqi]
  · intro _ hr
    simp [MemState.rdnt, hpage, hrdnt] at hr
  · intro q hq hcq
    left
    obtain ⟨hqlt, hst⟩ := hcq
    by_cases hqp : q = p
    · subst hqp
      simp [hpage] at hqlt
    · rw [hpage' q hqp] at hqlt hst
      rw [setPage_cache, hcache, if_neg (hown q hq hqp hqlt)] at hst
      exact ⟨hqlt, hst⟩

/-- The copy the old home keeps, if the cache has room for it. -/
def demote (cfg : Config) (m : MemState) (addr : Addr) : MemState :=
  let p := cfg.pagei addr
  let homei := (m.page p).homei
  let cachei := firstIdx (fun i => (m.cache i).state == .unmap || (m.cache i).state == .inv)
    cfg.cachepages 0
  if cachei < cfg.cachepages then
    let m := if (m.cache cachei).state = .inv then m.flushpage cfg cachei else m
    let m := m.setCache cachei
      { m.cache cachei with
        state := .ro, wtnt := (m.home homei).wtnt &&& 1 = 1, addr := addr }
    m.setPage p { m.page p with cachei := cachei }
  else m.memunmap p

theorem demote_ok (ht : m.CacheTables cfg) {p : Nat} (hp : p < cfg.npages) :
    Recached cfg (fun q => q = p) m (demote cfg m (cfg.pageAddr p)) ∧
      (demote cfg m (cfg.pageAddr p)).getpwait = m.getpwait := by
  unfold demote
  simp only [cfg.pagei_pageAddr hp]
  generalize hidx : firstIdx (fun i => (m.cache i).state == .unmap || (m.cache i).state == .inv)
    cfg.cachepages 0 = s
  split
  · rename_i hlt
    -- the slot is ready once a stale copy in it is gone
    have hplace : ∀ (m₁ : MemState) (e : CacheEntry), m₁.getpwait = m.getpwait →
        Ready cfg p s m (m₁.setPage p { m₁.page p with cachei := s }) →
        e.addr = cfg.pageAddr p → e.state = .ro →
        Recached cfg (fun q => q = p) m ((m₁.setCache s e).setPage p
          { (m₁.setCache s e).page p with cachei := s }) ∧
          ((m₁.setCache s e).setPage p
            { (m₁.setCache s e).page p with cachei := s }).getpwait = m.getpwait := by
      intro m₁ e hwait hready ha hst
      obtain ⟨hhome, hcache, hcached⟩ := hready.place hp ha (Or.inl hst)
      refine ⟨⟨hhome, hcache, ?_⟩, hwait⟩
      intro q hq hc
      by_cases hqp : q = p
      · exact Or.inr hqp
      · exact Or.inl (hcached q hq hqp hc)
    by_cases hinv : (m.cache s).state = .inv
    · simp only [hinv, if_true]
      exact hplace (m.flushpage cfg s) _ rfl (flushed_ready ht p s) rfl rfl
    · simp only [hinv, if_false]
      refine hplace m _ rfl (Ready.of_unmapped ht p ?_) rfl rfl
      have hfound := firstIdx_found
        (P := fun i => (m.cache i).state == .unmap || (m.cache i).state == .inv)
        (k := cfg.cachepages) (i := 0) (by rw [hidx]; omega)
      rw [hidx] at hfound
      simpa [hinv] using hfound
  · exact ⟨⟨⟨fun _ => rfl, fun _ => rfl, fun _ => rfl, fun _ => rfl, rfl⟩,
      ⟨ht.slot, ht.dirty⟩, fun q hq hc => Or.inl hc⟩, rfl⟩

/-- The home entry the old home gives up. -/
def retire (m : MemState) (p homei : Nat) : MemState :=
  let m := m.setPage p { m.page p with homei := Homepages }
  m.setHome homei { m.home homei with wtnt := 0, rdnt := false, addr := 0 }

theorem migOldHome_eq (m : MemState) (addr : Addr) : m.migOldHome cfg addr = (do
    let p := cfg.pagei addr
    let homei := (m.page p).homei
    jiaAssert (homei < Homepages ∧ (m.home homei).addr = addr)
      "MIG ERROR -- home is not right for this addr"
    let m := (demote cfg m addr).retire p homei
    return if cfg.wVec then m.setwtvect cfg homei WVFULL else m) := rfl

theorem migOldHome_fields {p : Nat} (hp : p < cfg.npages)
    (h : m.migOldHome cfg (cfg.pageAddr p) = .ok m') :
    (m.page p).homei < Homepages ∧ (m.home (m.page p).homei).addr = cfg.pageAddr p ∧
      (∀ q, m'.page q = if q = p then
        { (demote cfg m (cfg.pageAddr p)).page p with homei := Homepages }
        else (demote cfg m (cfg.pageAddr p)).page q) ∧
      (∀ i, (m'.home i).addr = if i = (m.page p).homei then 0 else
        ((demote cfg m (cfg.pageAddr p)).home i).addr) ∧
      (∀ i, i ≠ (m.page p).homei →
        (m'.home i).rdnt = ((demote cfg m (cfg.pageAddr p)).home i).rdnt) ∧
      m'.cache = (demote cfg m (cfg.pageAddr p)).cache ∧
      m'.homesize = (demote cfg m (cfg.pageAddr p)).homesize ∧
      m'.getpwait = (demote cfg m (cfg.pageAddr p)).getpwait := by
  rw [migOldHome_eq] at h
  simp only [bind_eq_ok, jiaAssert_eq_ok, pure, Except.pure, Except.ok.injEq,
    cfg.pagei_pageAddr hp] at h
  obtain ⟨-, ⟨hlt, ha⟩, h⟩ := h
  generalize demote cfg m (cfg.pageAddr p) = d at h ⊢
  subst h
  refine ⟨hlt, ha, ?_, ?_, ?_, ?_, ?_, ?_⟩
  · intro q
    by_cases hv : cfg.wVec = true
    · by_cases hq : q = p
      · simp [hv, retire, setwtvect, hq]
      · simp [hv, retire, setwtvect, hq]
    · by_cases hq : q = p
      · simp [hv, retire, hq]
      · simp [hv, retire, hq]
  · intro i
    by_cases hv : cfg.wVec = true
    · by_cases hi : i = (m.page p).homei
      · simp [hv, retire, setwtvect, hi]
      · simp [hv, retire, setwtvect, hi]
    · by_cases hi : i = (m.page p).homei
      · simp [hv, retire, hi]
      · simp [hv, retire, hi]
  · intro i hi
    by_cases hv : cfg.wVec = true
    · simp [hv, retire, setwtvect, hi]
    · simp [hv, retire, hi]
  · by_cases hv : cfg.wVec = true
    · simp [hv, retire, setwtvect]
    · simp [hv, retire]
  · by_cases hv : cfg.wVec = true
    · simp [hv, retire, setwtvect]
    · simp [hv, retire]
  · by_cases hv : cfg.wVec = true
    · simp [hv, retire, setwtvect]
    · simp [hv, retire]

theorem migOldHome_ok (ht : m.Tables cfg pid) {p modifypid : Nat} (hp : p < cfg.npages)
    (hhome : (m.page p).homepid = pid) (hne : modifypid ≠ pid)
    (h : m.migOldHome cfg (cfg.pageAddr p) = .ok m') :
    Migrated cfg pid p modifypid m (m'.setPage p { m'.page p with homepid := modifypid }) := by
  obtain ⟨hlt, ha, hpage, haddr, hrdnt, hcache, hsize, hwait⟩ := migOldHome_fields hp h
  obtain ⟨hd, hdwait⟩ := demote_ok ht.cache hp
  generalize demote cfg m (cfg.pageAddr p) = d at hd hdwait hpage haddr hrdnt hcache hsize hwait
  have hne0 : ∀ q < cfg.npages, cfg.pageAddr q ≠ 0 := fun q hq => cfg.pageAddr_ne_zero hq
  have hpage' : ∀ q, q ≠ p →
      (m'.setPage p { m'.page p with homepid := modifypid }).page q = d.page q := by
    intro q hqp
    simp [hqp, hpage]
  have hpid : ∀ q, ((m'.setPage p { m'.page p with homepid := modifypid }).page q).homepid =
      if q = p then modifypid else (m.page q).homepid := by
    intro q
    by_cases hqp : q = p
    · simp [hqp]
    · rw [hpage' q hqp, if_neg hqp, hd.home.homepid]
  have hsame : SameCache d (m'.setPage p { m'.page p with homepid := modifypid }) := by
    refine ⟨?_, ?_⟩
    · intro q
      by_cases hqp : q = p
      · subst hqp
        simp [hpage]
      · rw [hpage' q hqp]
    · intro c
      rw [setPage_cache, hcache]
  -- no other page has the entry
  have hother : ∀ q < cfg.npages, q ≠ p → ∀ i < Homepages,
      (m.home i).addr = cfg.pageAddr q → i ≠ (m.page p).homei := by
    rintro q hq hqp i hi haq rfl
    rw [ha] at haq
    exact hqp (cfg.pageAddr_inj hq hp haq.symm)
  refine ⟨⟨hsame.tables hd.cache, ?_⟩, hpid, ?_, ?_, ?_, hsize.trans hd.home.homesize,
    hwait.trans hdwait⟩
  · refine ht.home.rehome hp hpid ?_ ?_ ?_ ?_ ?_ ?_
    · intro q hqp
      rw [hpage' q hqp, hd.home.homei]
    · intro q hq hqp i hi
      rw [setPage_home, haddr, hd.home.addr]
      by_cases hii : i = (m.page p).homei
      · rw [if_pos hii]
        constructor
        · exact fun heq => absurd heq.symm (hne0 q hq)
        · exact fun heq => absurd hii (hother q hq hqp i hi heq)
      · rw [if_neg hii]
    · intro i hi hnz
      rw [setPage_home, haddr, hd.home.addr] at hnz ⊢
      by_cases hii : i = (m.page p).homei
      · rw [if_pos hii] at hnz
        exact absurd rfl hnz
      · rw [if_neg hii]
        exact Or.inl rfl
    · exact fun heq => absurd heq hne
    · intro _
      simp [hpage]
    · intro i hi hai
      rw [setPage_home, haddr, hd.home.addr] at hai
      by_cases hii : i = (m.page p).homei
      · rw [if_pos hii] at hai
        exact absurd hai.symm (hne0 p hp)
      · rw [if_neg hii] at hai
        obtain ⟨q, hq, haq, hqi⟩ := ht.home.entry i hi (by rw [hai]; exact hne0 p hp)
        rw [hai] at haq
        obtain rfl := cfg.pageAddr_inj hp hq haq
        exact absurd hqi.symm hii
  · intro q hq hqp hqpid
    obtain ⟨hqlt, haq⟩ := ht.home.home q hq hqpid
    have hqi := hother q hq hqp _ hqlt haq
    unfold MemState.rdnt
    rw [hpage' q hqp, setPage_home, hd.home.homei, hrdnt _ hqi, hd.home.rdnt]
  · exact fun heq => absurd heq hne
  · intro q hq hc
    rcases hd.cached q hq ((hsame.cached q).mp hc) with hc | hqp
    · exact Or.inl hc
    · exact Or.inr ⟨hqp, hhome, hne⟩

theorem migpage_ok (ht : m.Tables cfg pid) {p modifypid : Nat} (hp : p < cfg.npages)
    (h : m.migpage cfg pid (cfg.pageAddr p) (m.page p).homepid modifypid = .ok m') :
    Migrated cfg pid p modifypid m m' := by
  simp only [migpage, bind_eq_ok, pure, Except.pure, Except.ok.injEq,
    cfg.pagei_pageAddr hp] at h
  obtain ⟨m₁, hrole, rfl⟩ := h
  unfold migRole at hrole
  split at hrole
  · rename_i hnew
    rw [hnew.1]
    exact migNewHome_ok ht hp hnew.2 hrole
  · rename_i hnew
    split at hrole
    · rename_i hold
      exact migOldHome_ok ht hp hold.2 hold.1 hrole
    · -- a bystander, or the home stays where it is
      rename_i hold
      obtain rfl := Except.ok.inj hrole
      have hiff : modifypid = pid ↔ (m.page p).homepid = pid := by
        constructor
        · intro h₁
          by_contra h₂
          exact hnew ⟨h₁, h₂⟩
        · intro h₁
          by_contra h₂
          exact hold ⟨h₂, h₁⟩
      have hpid : ∀ q, ((m.setPage p { m.page p with homepid := modifypid }).page q).homepid =
          if q = p then modifypid else (m.page q).homepid := by
        intro q
        by_cases hqp : q = p
        · simp [hqp]
        · simp [hqp]
      have hhomei : ∀ q, ((m.setPage p { m.page p with homepid := modifypid }).page q).homei =
          (m.page q).homei := by
        intro q
        by_cases hqp : q = p
        · simp [hqp]
        · simp [hqp]
      have hsame : SameCache m (m.setPage p { m.page p with homepid := modifypid }) := by
        refine ⟨?_, fun _ => rfl⟩
        intro q
        by_cases hqp : q = p
        · simp [hqp]
        · simp [hqp]
      refine ⟨⟨hsame.tables ht.cache, ?_⟩, hpid, ?_, ?_, ?_, rfl, rfl⟩
      · refine ht.home.rehome hp hpid ?_ ?_ ?_ ?_ ?_ ?_
        · exact fun q _ => hhomei q
        · exact fun q hq hqp i hi => Iff.rfl
        · exact fun i hi hne => Or.inl rfl
        · intro h₁
          rw [hhomei]
          exact ht.home.home p hp (hiff.mp h₁)
        · intro h₁
          rw [hhomei]
          exact ht.home.away p hp fun h₂ => h₁ (hiff.mpr h₂)
        · intro i hi ha
          rw [hhomei]
          obtain ⟨q, hq, haq, hqi⟩ := ht.home.entry i hi
            (by rw [show (m.home i).addr = _ from ha]; exact cfg.pageAddr_ne_zero hp)
          rw [show (m.home i).addr = _ from ha] at haq
          obtain rfl := cfg.pageAddr_inj hp hq haq
          exact hqi
      · intro q hq hqp hqpid
        unfold MemState.rdnt
        rw [hhomei]
        rfl
      · intro h₁ hr
        refine ⟨hiff.mp h₁, ?_⟩
        unfold MemState.rdnt at hr ⊢
        rw [hhomei] at hr
        exact hr
      · exact fun q hq hc => Or.inl ((hsame.cached q).mp hc)

/-! ## `migarrangehome` -/

/-- What moving home entries leaves alone. -/
structure Arranged (cfg : Config) (pid : Nat) (m m' : MemState) : Prop where
  home : m'.HomeTables cfg pid
  cache : SameCache m m'
  homepid : ∀ p, (m'.page p).homepid = (m.page p).homepid
  rdnt : ∀ p < cfg.npages, (m.page p).homepid = pid → m'.rdnt p = m.rdnt p
  getpwait : m'.getpwait = m.getpwait

theorem Arranged.refl (ht : m.HomeTables cfg pid) : Arranged cfg pid m m :=
  ⟨ht, SameCache.refl m, fun _ => rfl, fun _ _ _ => rfl, rfl⟩

theorem Arranged.trans (h : Arranged cfg pid m m') (h' : Arranged cfg pid m' m'') :
    Arranged cfg pid m m'' where
  home := h'.home
  cache := h.cache.trans h'.cache
  homepid p := (h'.homepid p).trans (h.homepid p)
  rdnt p hp hpid := (h'.rdnt p hp ((h.homepid p).trans hpid)).trans (h.rdnt p hp hpid)
  getpwait := h'.getpwait.trans h.getpwait

/-- A free entry takes the place of a later one. -/
theorem moveHome_ok (ht : m.HomeTables cfg pid) {i homei : Nat} (hi : i < Homepages)
    (hhomei : homei < Homepages) (hfree : (m.home i).addr = 0)
    (hused : (m.home homei).addr ≠ 0) :
    Arranged cfg pid m (m.moveHome cfg i homei) ∧
      ∀ j, j ≠ homei → ((m.moveHome cfg i homei).home j).addr =
        if j = i then (m.home homei).addr else (m.home j).addr := by
  obtain ⟨p, hp, ha, hpi⟩ := ht.entry homei hhomei hused
  have hne : i ≠ homei := by
    rintro rfl
    exact hused hfree
  have hpage : ∀ q, (m.moveHome cfg i homei).page q =
      if q = p then { m.page p with homei := i } else m.page q := by
    intro q
    unfold moveHome
    simp only [ha, cfg.pagei_pageAddr hp, setHome_page, setPage_page, upd_apply]
  have haddr : ∀ j, ((m.moveHome cfg i homei).home j).addr =
      if j = homei then 0 else if j = i then cfg.pageAddr p else (m.home j).addr := by
    intro j
    unfold moveHome
    simp only [ha, setHome_home, setPage_home, upd_apply]
    by_cases hj : j = homei
    · simp [hj]
    · by_cases hji : j = i
      · simp [hji, hne]
      · simp [hj, hji]
  have hrdnt : ∀ j, ((m.moveHome cfg i homei).home j).rdnt =
      if j = i then (m.home homei).rdnt else (m.home j).rdnt := by
    intro j
    unfold moveHome
    simp only [setHome_home, setPage_home, upd_apply]
    by_cases hj : j = homei
    · subst hj
      simp [hne.symm]
    · by_cases hji : j = i
      · simp [hji, hne]
      · simp [hj, hji]
  have hpid : ∀ q, ((m.moveHome cfg i homei).page q).homepid = (m.page q).homepid := by
    intro q
    rw [hpage]
    by_cases hq : q = p
    · simp [hq]
    · simp [hq]
  -- the page moves with its entry, since another home has none here
  have hown : (m.page p).homepid = pid := by
    by_contra hcon
    have haway := ht.away p hp hcon
    omega
  have hother : ∀ q < cfg.npages, q ≠ p → (m.page q).homepid = pid →
      (m.page q).homei ≠ homei ∧ (m.page q).homei ≠ i := by
    intro q hq hqp hqpid
    obtain ⟨-, haq⟩ := ht.home q hq hqpid
    constructor
    · intro heq
      rw [heq, ha] at haq
      exact hqp (cfg.pageAddr_inj hq hp haq.symm)
    · intro heq
      rw [heq, hfree] at haq
      exact cfg.pageAddr_ne_zero hq haq.symm
  refine ⟨⟨⟨?_, ?_, ?_, ?_⟩, ?_, hpid, ?_, rfl⟩, ?_⟩
  · intro q hq hqpid
    rw [hpid] at hqpid
    by_cases hqp : q = p
    · subst hqp
      simp [hpage, haddr, hne, hi]
    · obtain ⟨h₁, h₂⟩ := hother q hq hqp hqpid
      rw [hpage, if_neg hqp, haddr, if_neg h₁, if_neg h₂]
      exact ht.home q hq hqpid
  · intro q hq hqpid
    rw [hpid] at hqpid
    have hqp : q ≠ p := by
      rintro rfl
      exact hqpid hown
    rw [hpage, if_neg hqp]
    exact ht.away q hq hqpid
  · intro j hj hnz
    rw [haddr] at hnz ⊢
    by_cases hjh : j = homei
    · rw [if_pos hjh] at hnz
      exact absurd rfl hnz
    · rw [if_neg hjh] at hnz ⊢
      by_cases hji : j = i
      · rw [if_pos hji]
        refine ⟨p, hp, rfl, ?_⟩
        simp [hpage, hji]
      · rw [if_neg hji] at hnz ⊢
        obtain ⟨q, hq, haq, hqi⟩ := ht.entry j hj hnz
        have hqp : q ≠ p := by
          rintro rfl
          omega
        exact ⟨q, hq, haq, by rw [hpage, if_neg hqp, hqi]⟩
  · intro q hq
    have hqp : q ≠ p := by omega
    rw [hpage, if_neg hqp]
    exact ht.outside q hq
  · refine ⟨?_, fun _ => rfl⟩
    intro q
    rw [hpage]
    by_cases hq : q = p
    · simp [hq]
    · simp [hq]
  · intro q hq hqpid
    unfold MemState.rdnt
    by_cases hqp : q = p
    · subst hqp
      simp [hpage, hrdnt, hpi]
    · obtain ⟨h₁, h₂⟩ := hother q hq hqp hqpid
      rw [hpage, if_neg hqp, hrdnt, if_neg h₂]
  · intro j hj
    rw [haddr, if_neg hj, ha]

/-- Induction along the loop of `migarrangehome`: an entry that is free takes the next one
in use, or ends the loop when there is none; an entry in use is left. -/
theorem arrangeLoop_induct {Q : Nat → MemState → MemState × Nat → Prop}
    (done : ∀ m, Q Homepages m (m, Homepages))
    (move : ∀ i j m r, i < j → j < Homepages → (m.home i).addr = 0 → (m.home j).addr ≠ 0 →
      Q (i + 1) (m.moveHome cfg i j) r → Q i m r)
    (stop : ∀ i m, i < Homepages → (∀ j, i ≤ j → j < Homepages → (m.home j).addr = 0) →
      Q i m (m, i + 1))
    (skip : ∀ i m r, i < Homepages → (m.home i).addr ≠ 0 → Q (i + 1) m r → Q i m r)
    {k i : Nat} (hk : i + k = Homepages) : Q i m (arrangeLoop cfg k i m) := by
  induction k generalizing i m with
  | zero =>
      obtain rfl : i = Homepages := by omega
      exact done m
  | succ k ih =>
      unfold arrangeLoop
      by_cases hfree : (m.home i).addr = 0
      · rw [if_pos hfree]
        simp only
        split
        · rename_i hlt
          have hle := le_firstIdx (fun j => (m.home j).addr != 0) k (i + 1)
          have hnext : (m.home (firstIdx (fun j => (m.home j).addr != 0) k (i + 1))).addr ≠ 0 := by
            have hfound := firstIdx_found (P := fun j => (m.home j).addr != 0) (k := k)
              (i := i + 1) (by omega)
            simpa using hfound
          exact move i _ m _ (by omega) hlt hfree hnext (ih (by omega))
        · rename_i hnone
          apply stop i m (by omega)
          intro j hij hj
          by_cases hji : j = i
          · rw [hji]
            exact hfree
          · have hbefore := firstIdx_before (P := fun j => (m.home j).addr != 0) (k := k)
              (i := i + 1) (j := j) (by omega) (by omega)
            simpa using hbefore
      · rw [if_neg hfree]
        exact skip i m _ (by omega) hfree (ih (by omega))

/-- The entries below `i` stay in use when the next one is taken. -/
theorem moveHome_used {i j : Nat} (hij : i < j) (hnext : (m.home j).addr ≠ 0)
    (haddr : ∀ l, l ≠ j → ((m.moveHome cfg i j).home l).addr =
      if l = i then (m.home j).addr else (m.home l).addr)
    (hused : ∀ l < i, (m.home l).addr ≠ 0) :
    ∀ l < i + 1, ((m.moveHome cfg i j).home l).addr ≠ 0 := by
  intro l hl
  rw [haddr l (by omega)]
  by_cases hli : l = i
  · rw [if_pos hli]
    exact hnext
  · rw [if_neg hli]
    exact hused l (by omega)

theorem used_succ {i : Nat} (hi : (m.home i).addr ≠ 0) (hused : ∀ l < i, (m.home l).addr ≠ 0) :
    ∀ l < i + 1, (m.home l).addr ≠ 0 := by
  intro l hl
  by_cases hli : l = i
  · rw [hli]
    exact hi
  · exact hused l (by omega)

/-- After the loop the entries below the last index it saw are in use. -/
theorem arrangeLoop_ok {k i : Nat} (ht : m.HomeTables cfg pid) (hk : i + k = Homepages)
    (hused : ∀ j < i, (m.home j).addr ≠ 0) :
    Arranged cfg pid m (arrangeLoop cfg k i m).1 ∧ (arrangeLoop cfg k i m).2 ≤ Homepages ∧
      ∀ j < (arrangeLoop cfg k i m).2 - 1, ((arrangeLoop cfg k i m).1.home j).addr ≠ 0 := by
  revert ht hused
  refine arrangeLoop_induct (Q := fun i m r => m.HomeTables cfg pid →
    (∀ j < i, (m.home j).addr ≠ 0) → Arranged cfg pid m r.1 ∧ r.2 ≤ Homepages ∧
      ∀ j < r.2 - 1, (r.1.home j).addr ≠ 0) ?_ ?_ ?_ ?_ hk
  · intro m ht hused
    exact ⟨Arranged.refl ht, le_refl _, fun j hj => hused j (by omega)⟩
  · intro i j m r hij hj hfree hnext ih ht hused
    obtain ⟨hmove, haddr⟩ := moveHome_ok ht (hij.trans hj) hj hfree hnext
    obtain ⟨hrest, hle, hlow⟩ := ih hmove.home (moveHome_used hij hnext haddr hused)
    exact ⟨hmove.trans hrest, hle, hlow⟩
  · intro i m hi _ ht hused
    exact ⟨Arranged.refl ht, hi, hused⟩
  · intro i m r _ hi ih ht hused
    exact ih ht (used_succ hi hused)

theorem migarrangehome_ok (ht : m.HomeTables cfg pid) :
    Arranged cfg pid m (m.migarrangehome cfg) ∧ (m.migarrangehome cfg).Compact := by
  obtain ⟨harr, hle, hlow⟩ := arrangeLoop_ok (k := Homepages) (i := 0) ht rfl (by omega)
  have hpages : (m.migarrangehome cfg).hpages = (arrangeLoop cfg Homepages 0 m).2 - 1 := by
    simp [MemState.hpages, migarrangehome]
  refine ⟨⟨?_, ?_, harr.homepid, harr.rdnt, harr.getpwait⟩, ?_, ?_⟩
  · exact ⟨harr.home.home, harr.home.away, harr.home.entry, harr.home.outside⟩
  · exact ⟨harr.cache.cachei, harr.cache.cache⟩
  · omega
  · intro j hj
    rw [hpages] at hj
    exact hlow j hj

/-! ## `invalidate` -/

/-- A notice of a barrier that moves the home of its page. -/
def moves (cfg : Config) (n : GrantNotice) : Bool :=
  decide (cfg.hMig = true ∧ n.fromPid ≠ Maxhosts ∧ n.mig ≠ 0)

/-- The home of a page after a notice about it, if there is one. -/
def homeAfter (cfg : Config) (nt : Option GrantNotice) (homepid : Nat) : Nat :=
  match nt with
  | none => homepid
  | some n => if moves cfg n then n.fromPid else homepid

/-- What the notices of a barrier do to page `p` on host `pid`; `nt` is the one
about the page. -/
structure Noticed (cfg : Config) (pid : Nat) (nt : Option GrantNotice) (p : Nat)
    (m m' : MemState) : Prop where
  homepid : (m'.page p).homepid = homeAfter cfg nt (m.page p).homepid
  flag : (m'.page p).homepid = pid → m'.rdnt p = false →
    (m.page p).homepid = pid ∧ m.rdnt p = false
  cached : m'.Cached cfg p →
    (m.Cached cfg p ∧ ∀ n, nt = some n → n.fromPid = pid ∨ (m.page p).homepid = pid) ∨
      ((m.page p).homepid = pid ∧ (m'.page p).homepid ≠ pid)

theorem Noticed.then_none {nt : Option GrantNotice} {p : Nat} (h : Noticed cfg pid nt p m m')
    (h' : Noticed cfg pid none p m' m'') : Noticed cfg pid nt p m m'' where
  homepid := h'.homepid.trans h.homepid
  flag hpid hr := by
    obtain ⟨h₁, h₂⟩ := h'.flag hpid hr
    exact h.flag h₁ h₂
  cached hc := by
    have hsame : (m''.page p).homepid = (m'.page p).homepid := h'.homepid
    rw [hsame]
    rcases h'.cached hc with ⟨hc, -⟩ | ⟨h₁, h₂⟩
    · exact h.cached hc
    · exact absurd (hsame.trans h₁) h₂

theorem Noticed.none_then {nt : Option GrantNotice} {p : Nat} (h : Noticed cfg pid none p m m')
    (h' : Noticed cfg pid nt p m' m'') : Noticed cfg pid nt p m m'' := by
  have hsame : (m'.page p).homepid = (m.page p).homepid := h.homepid
  refine ⟨?_, ?_, ?_⟩
  · rw [h'.homepid, hsame]
  · intro hpid hr
    obtain ⟨h₁, h₂⟩ := h'.flag hpid hr
    exact h.flag h₁ h₂
  · intro hc
    have hcached := h'.cached hc
    rw [hsame] at hcached
    rcases hcached with ⟨hc, hw⟩ | hgone
    · rcases h.cached hc with ⟨hc, -⟩ | ⟨h₁, h₂⟩
      · exact Or.inl ⟨hc, hw⟩
      · exact absurd (hsame.trans h₁) h₂
    · exact Or.inr hgone

theorem SameHome.noticed {p : Nat} (h : SameHome m m')
    (hc : m'.Cached cfg p → m.Cached cfg p) : Noticed cfg pid none p m m' where
  homepid := h.homepid p
  flag hpid hr := ⟨(h.homepid p).symm.trans hpid, (h.rdnt_eq p).symm.trans hr⟩
  cached hcp := Or.inl ⟨hc hcp, fun _ hn => by cases hn⟩

theorem markRemote_same {lock homepid : Nat} {n : GrantNotice}
    (h : Host.markRemote cfg pid lock homepid m n = .ok m') : Still m m' := by
  unfold Host.markRemote at h
  split at h
  · simp only [bind_eq_ok, defined_eq_ok, pure, Except.pure, Except.ok.injEq] at h
    obtain ⟨-, -, rfl⟩ := h
    exact still_setHome rfl rfl
  · exact Except.ok.inj h ▸ Still.refl m

theorem invalidateNotice_ok (ht : m.Tables cfg pid) {n : GrantNotice} {p : Nat}
    (hp : p < cfg.npages) (hn : n.addr = cfg.pageAddr p)
    (h : Host.invalidateNotice cfg pid hidelock m n = .ok m') :
    m'.Tables cfg pid ∧ m'.getpwait = m.getpwait ∧ (cfg.hMig = false → SameHome m m') ∧
      Noticed cfg pid (some n) p m m' ∧
      ∀ q < cfg.npages, q ≠ p → Noticed cfg pid none q m m' := by
  simp only [Host.invalidateNotice, bind_eq_ok] at h
  obtain ⟨m₁, hcopy, m₂, hmig, hmark⟩ := h
  obtain ⟨hre, hwait, hdrop⟩ := invalidateCopy_ok ht.cache hp hn hcopy
  have ht₁ : m₁.Tables cfg pid := ⟨hre.cache, hre.home.tables ht.home⟩
  have hstill := markRemote_same hmark
  have hkept : ∀ q < cfg.npages, m₁.Cached cfg q → m.Cached cfg q :=
    fun q hq hc => (hre.cached q hq hc).resolve_right id
  -- a copy that survives the first branch
  have hstay : m₁.Cached cfg p → m.Cached cfg p ∧ ∀ n', some n = some n' →
      n'.fromPid = pid ∨ (m.page p).homepid = pid := by
    intro hc
    refine ⟨hkept p hp hc, ?_⟩
    intro n' hn'
    obtain rfl := Option.some.inj hn'
    by_contra hnone
    rw [not_or] at hnone
    exact hdrop hnone.1 hnone.2 hc
  unfold Host.migrateNotice at hmig
  split at hmig
  · rename_i hm
    have hmoves : moves cfg n = true := by
      simp only [moves, decide_eq_true_eq]
      exact ⟨hm.1, hm.2.2.1, hm.2.2.2⟩
    rw [hn, homehost, cfg.pagei_pageAddr hp] at hmig
    have hmg := migpage_ok ht₁ hp hmig
    have htail : ∀ q, m'.Cached cfg q ↔ m₂.Cached cfg q := hstill.cache.cached
    refine ⟨⟨hstill.cache.tables hmg.tables.cache, hstill.home.tables hmg.tables.home⟩,
      hstill.getpwait.trans (hmg.getpwait.trans hwait), ?_, ⟨?_, ?_, ?_⟩, ?_⟩
    · intro hoff
      rw [hm.1] at hoff
      cases hoff
    · rw [hstill.home.homepid, hmg.homepid, if_pos rfl, homeAfter, if_pos hmoves]
    · intro hpid hr
      rw [hstill.home.homepid, hmg.homepid, if_pos rfl] at hpid
      rw [hstill.home.rdnt_eq] at hr
      obtain ⟨h₁, h₂⟩ := hmg.flag hpid hr
      exact ⟨(hre.home.homepid p).symm.trans h₁, (hre.home.rdnt_eq p).symm.trans h₂⟩
    · intro hc
      rw [hstill.home.homepid, hmg.homepid, if_pos rfl]
      rcases hmg.cached p hp ((htail p).mp hc) with hc | ⟨-, h₁, h₂⟩
      · exact Or.inl (hstay hc)
      · exact Or.inr ⟨(hre.home.homepid p).symm.trans h₁, h₂⟩
    · intro q hq hqp
      refine ⟨?_, ?_, ?_⟩
      · rw [hstill.home.homepid, hmg.homepid, if_neg hqp, hre.home.homepid]
        rfl
      · intro hpid hr
        rw [hstill.home.homepid, hmg.homepid, if_neg hqp] at hpid
        rw [hstill.home.rdnt_eq, hmg.rdnt q hq hqp hpid, hre.home.rdnt_eq] at hr
        exact ⟨(hre.home.homepid q).symm.trans hpid, hr⟩
      · intro hc
        rcases hmg.cached q hq ((htail q).mp hc) with hc | ⟨hqp', -⟩
        · exact Or.inl ⟨hkept q hq hc, fun _ hn => by cases hn⟩
        · exact absurd hqp' hqp
  · rename_i hm
    obtain rfl := Except.ok.inj hmig
    have hmoves : moves cfg n = false := by
      simp only [moves, decide_eq_false_iff_not]
      exact fun hcon => hm ⟨hcon.1, rfl, hcon.2.1, hcon.2.2⟩
    have hhome := hre.home.trans hstill.home
    refine ⟨⟨hstill.cache.tables hre.cache, hhome.tables ht.home⟩,
      hstill.getpwait.trans hwait, fun _ => hhome, ⟨?_, ?_, ?_⟩, ?_⟩
    · rw [hhome.homepid]
      simp [homeAfter, hmoves]
    · exact fun hpid hr => ⟨(hhome.homepid p).symm.trans hpid, (hhome.rdnt_eq p).symm.trans hr⟩
    · exact fun hc => Or.inl (hstay ((hstill.cache.cached p).mp hc))
    · intro q hq _
      exact hhome.noticed fun hc => hkept q hq ((hstill.cache.cached q).mp hc)

/-- The notice about page `p` in a list. -/
def noticeOf (cfg : Config) (p : Nat) (ns : List GrantNotice) : Option GrantNotice :=
  ns.find? fun n => n.addr = cfg.pageAddr p

theorem noticeOf_cons (p : Nat) (n : GrantNotice) (ns : List GrantNotice) :
    noticeOf cfg p (n :: ns) = if n.addr = cfg.pageAddr p then some n else noticeOf cfg p ns := by
  unfold noticeOf
  by_cases h : n.addr = cfg.pageAddr p
  · rw [if_pos h, List.find?_cons_of_pos (by simpa using h)]
  · rw [if_neg h, List.find?_cons_of_neg (by simpa using h)]

theorem noticeOf_eq_none {p : Nat} {ns : List GrantNotice} :
    noticeOf cfg p ns = none ↔ ∀ n ∈ ns, n.addr ≠ cfg.pageAddr p := by
  simp [noticeOf]

theorem noticeOf_some {p : Nat} {ns : List GrantNotice} {n : GrantNotice}
    (h : noticeOf cfg p ns = some n) : n ∈ ns ∧ n.addr = cfg.pageAddr p :=
  ⟨List.mem_of_find?_eq_some h, by simpa using List.find?_some h⟩

theorem invalidate_ok {ns : List GrantNotice} (ht : m.Tables cfg pid)
    (hpages : ∀ n ∈ ns, cfg.IsPage n.addr) (hnodup : (ns.map GrantNotice.addr).Nodup)
    (h : Host.invalidate cfg pid hidelock m ns = .ok m') :
    m'.Tables cfg pid ∧ m'.getpwait = m.getpwait ∧ (cfg.hMig = false → SameHome m m') ∧
      ∀ p < cfg.npages, Noticed cfg pid (noticeOf cfg p ns) p m m' := by
  induction ns generalizing m with
  | nil =>
      simp only [Host.invalidate, Except.ok.injEq] at h
      subst h
      exact ⟨ht, rfl, fun _ => SameHome.refl m, fun p hp => (SameHome.refl m).noticed id⟩
  | cons n ns ih =>
      simp only [Host.invalidate, bind_eq_ok] at h
      obtain ⟨m₁, hone, hrest⟩ := h
      obtain ⟨p, hp, hn⟩ := hpages n List.mem_cons_self
      rw [List.map_cons, List.nodup_cons] at hnodup
      obtain ⟨ht₁, hw₁, hs₁, hnt, hother⟩ := invalidateNotice_ok ht hp hn hone
      obtain ⟨ht₂, hw₂, hs₂, hall⟩ :=
        ih ht₁ (fun x hx => hpages x (List.mem_cons_of_mem _ hx)) hnodup.2 hrest
      refine ⟨ht₂, hw₂.trans hw₁, fun hoff => (hs₁ hoff).trans (hs₂ hoff), ?_⟩
      intro q hq
      rw [noticeOf_cons]
      by_cases hqp : q = p
      · subst hqp
        rw [if_pos hn]
        -- no other notice is about the same page
        have hnone : noticeOf cfg q ns = none := by
          rw [noticeOf_eq_none]
          intro x hx heq
          apply hnodup.1
          rw [hn, ← heq]
          exact List.mem_map_of_mem hx
        have hlater := hall q hq
        rw [hnone] at hlater
        exact hnt.then_none hlater
      · have hne : n.addr ≠ cfg.pageAddr q := by
          intro heq
          rw [hn] at heq
          exact hqp (cfg.pageAddr_inj hp hq heq).symm
        rw [if_neg hne]
        exact (hother q hq hqp).none_then (hall q hq)

theorem invalidate_lock_ok {lock : Nat} {ns : List GrantNotice} (hlock : lock ≠ hidelock)
    (ht : m.CacheTables cfg) (hpages : ∀ n ∈ ns, cfg.IsPage n.addr)
    (h : Host.invalidate cfg pid lock m ns = .ok m') :
    Recached cfg (fun _ => False) m m' ∧ m'.getpwait = m.getpwait := by
  induction ns generalizing m with
  | nil =>
      simp only [Host.invalidate, Except.ok.injEq] at h
      exact h ▸ ⟨Recached.refl ht, rfl⟩
  | cons n ns ih =>
      simp only [Host.invalidate, Host.invalidateNotice, bind_eq_ok] at h
      obtain ⟨m₃, ⟨m₁, hcopy, m₂, hmig, hmark⟩, hrest⟩ := h
      obtain ⟨p, hp, hn⟩ := hpages n List.mem_cons_self
      obtain ⟨hre, hwait, -⟩ := invalidateCopy_ok ht hp hn hcopy
      have h₂ : m₂ = m₁ := by
        unfold Host.migrateNotice at hmig
        rw [if_neg fun hcon => hlock hcon.2.1] at hmig
        exact (Except.ok.inj hmig).symm
      subst h₂
      have h₃ : m₃ = m₂ := by
        unfold Host.markRemote at hmark
        rw [if_neg fun hcon => hlock hcon.2.1] at hmark
        exact (Except.ok.inj hmark).symm
      subst h₃
      obtain ⟨hre', hwait'⟩ := ih hre.cache (fun x hx => hpages x (List.mem_cons_of_mem _ hx)) hrest
      exact ⟨hre.trans hre', hwait'.trans hwait⟩

end MemState

end Jiajia
