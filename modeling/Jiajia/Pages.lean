import Jiajia.Migrate
import Jiajia.Barrier

/-!
# The page tables in every run

Every address in a notice, a request or a reply is that of an allocated page, so
the tables of every host stay in order, whatever the messages in flight are.
-/

namespace Jiajia

open Fifo Transition Host MemState

variable {cfg : Config}

/-! ## Addresses in lists and messages -/

/-- Every entry of a list is about an allocated page. -/
def WtntList.Pages (cfg : Config) (l : WtntList) : Prop := ∀ e ∈ l.entries, cfg.IsPage e.addr

namespace WtntList

variable {l : WtntList} {addr : Addr}

theorem pages_empty : empty.Pages cfg := by
  intro e he
  cases he

theorem Pages.save (h : l.Pages cfg) (ha : cfg.IsPage addr) (mig : BitVec 32) (fromPid : Nat)
    (scope : BitVec 32) : (l.save addr mig fromPid scope).Pages cfg := by
  intro e he
  rcases of_mem_save he with ⟨hold, -⟩ | ⟨-, rfl⟩ | ⟨e₀, hold, -, rfl⟩
  · exact h e hold
  · exact ha
  · exact h e₀ hold

theorem Pages.setMig (h : l.Pages cfg) (f : WtntEntry → BitVec 32) : (l.setMig f).Pages cfg := by
  intro e he
  rw [entries_setMig, List.mem_map] at he
  obtain ⟨e₀, hold, rfl⟩ := he
  exact h e₀ hold

/-- A list has one entry for a page. -/
theorem Pages.length_le (h : l.Pages cfg) : l.entries.length ≤ cfg.npages := by
  have hsub : l.nums ⊆ (List.range cfg.npages).map fun p => pageNum (cfg.pageAddr p) := by
    intro n hn
    obtain ⟨e, he, rfl⟩ := mem_nums.mp hn
    obtain ⟨p, hlt, ha⟩ := h e he
    exact List.mem_map.mpr ⟨p, List.mem_range.mpr hlt, by rw [WtntEntry.num, ha]⟩
  have hle := (l.nums_nodup.subperm hsub).length_le
  simpa [nums] using hle

/-- One message of a stream holds entries of the list, each page once. -/
theorem chunk_pages {k : Packing} {cs : List (List WtntEntry)} (h : k.stream l = .ok cs)
    {c : List WtntEntry} (hc : c ∈ cs) : (∀ e ∈ c, e ∈ l.entries) ∧ (c.map WtntEntry.num).Nodup := by
  have hsub : c.Sublist l.entries := by
    have hflat : cs.flatten = l.entries.filter k.sel := Packing.chunks_flatten h
    exact (List.sublist_flatten_of_mem hc).trans (hflat ▸ List.filter_sublist)
  exact ⟨fun e he => hsub.subset he, (hsub.map _).nodup l.nodup⟩

end WtntList

namespace SynState

/-- Every notice a host keeps is about an allocated page. -/
structure Pages (cfg : Config) (y : SynState) : Prop where
  top : y.top.wtntp.Pages cfg
  below : ∀ t ∈ y.below, t.wtntp.Pages cfg
  locks : ∀ l, (y.locks l).wtntp.Pages cfg

variable {y y' : SynState}

theorem pages_initsyn : initsyn.Pages cfg where
  top := WtntList.pages_empty
  below t ht := by cases ht
  locks _ := WtntList.pages_empty

theorem Pages.saveTop (h : y.Pages cfg) {addr : Addr} (ha : cfg.IsPage addr) (pid : Nat) :
    (y.saveTop addr pid).Pages cfg :=
  ⟨h.top.save ha _ _ _, h.below, h.locks⟩

/-- Only the lists count. -/
theorem Pages.congr (h : y.Pages cfg) (htop : y'.top.wtntp = y.top.wtntp)
    (hbelow : y'.below = y.below) (hlocks : ∀ l, (y'.locks l).wtntp = (y.locks l).wtntp) :
    y'.Pages cfg where
  top := htop ▸ h.top
  below := hbelow ▸ h.below
  locks l := hlocks l ▸ h.locks l

theorem pages_mergeNotices {es : List WtntEntry} {l : WtntList} (hl : l.Pages cfg)
    (hes : ∀ e ∈ es, cfg.IsPage e.addr) : (mergeNotices es l).Pages cfg := by
  unfold mergeNotices
  induction es generalizing l with
  | nil => exact hl
  | cons e es ih =>
      exact ih (hl.save (hes e List.mem_cons_self) _ _ _) fun x hx =>
        hes x (List.mem_cons_of_mem _ hx)

theorem Pages.recordwtnts (h : y.Pages cfg) {lock src : Nat} {ns : List StackNotice}
    (hns : ∀ n ∈ ns, cfg.IsPage n.addr) : (y.recordwtnts lock src ns).Pages cfg := by
  have hfold : ∀ (l : WtntList) (scope : BitVec 32), l.Pages cfg →
      (ns.foldl (fun l n => l.save n.addr (n.addr.setWidth 32) src scope) l).Pages cfg := by
    intro l scope hl
    induction ns generalizing l with
    | nil => exact hl
    | cons n ns ih =>
        exact ih (fun x hx => hns x (List.mem_cons_of_mem _ hx)) _
          (hl.save (hns n List.mem_cons_self) _ _ _)
  refine ⟨h.top, h.below, ?_⟩
  intro l
  by_cases hl : l = lock
  · subst hl
    simp only [SynState.recordwtnts, setLock, upd_same]
    exact hfold _ _ (h.locks l)
  · simp only [SynState.recordwtnts, setLock, upd_of_ne _ _ hl]
    exact h.locks l

theorem Pages.setLock (h : y.Pages cfg) {l : Nat} {lk : Lock} (hlk : lk.wtntp.Pages cfg) :
    (y.setLock l lk).Pages cfg := by
  refine ⟨h.top, h.below, ?_⟩
  intro l'
  by_cases hl : l' = l
  · subst hl
    simpa [SynState.setLock] using hlk
  · simpa [SynState.setLock, hl] using h.locks l'

theorem Pages.endBarrier (h : y.Pages cfg) (pid : Nat) : (y.endBarrier cfg pid).Pages cfg := by
  unfold SynState.endBarrier
  split
  · exact h
  · refine ⟨h.top, h.below, ?_⟩
    intro l
    simp only [clearlocks]
    split
    · exact WtntList.pages_empty
    · exact h.locks l

theorem Pages.recordRelease (h : y.Pages cfg) {src lock : Nat} {scope : BitVec 32}
    {ns : List StackNotice} (hns : ∀ n ∈ ns, cfg.IsPage n.addr) :
    (recordRelease y src lock scope ns).Pages cfg := by
  have hnote : (noteScope y scope).Pages cfg := by
    rw [noteScope_eq]
    exact h.congr rfl rfl fun _ => rfl
  have hrec : ((noteScope y scope).recordwtnts lock src ns).Pages cfg := hnote.recordwtnts hns
  exact hrec.setLock (hrec.locks lock)

end SynState

/-- Every address in a message is that of an allocated page, and the notices for a
host name each page once. -/
def Msg.Pages (cfg : Config) : Msg → Prop
  | .getp addr _ => cfg.IsPage addr
  | .getpgrant addr _ _ xs => cfg.IsPage addr ∧ ∀ x ∈ xs, cfg.IsPage x.addr
  | .acqgrant _ _ ns => (∀ n ∈ ns, cfg.IsPage n.addr) ∧ (ns.map GrantNotice.addr).Nodup
  | .invld _ ns => (∀ n ∈ ns, cfg.IsPage n.addr) ∧ (ns.map GrantNotice.addr).Nodup
  | .barrgrant _ _ ns => (∀ n ∈ ns, cfg.IsPage n.addr) ∧ (ns.map GrantNotice.addr).Nodup
  | .barr _ _ ns => ∀ n ∈ ns, cfg.IsPage n.addr
  | .rel _ _ ns => ∀ n ∈ ns, cfg.IsPage n.addr
  | .wtnt _ ns => ∀ n ∈ ns, cfg.IsPage n.addr
  | .bcast _ _ msg => msg.Pages cfg
  | _ => True

/-! ## One host -/

/-- The tables and lists of host `pid` are in order. -/
structure PagesOk (cfg : Config) (pid : Nat) (h : Host) : Prop where
  tables : h.m.Tables cfg pid
  lists : h.y.Pages cfg
  compact : cfg.hMig = false ∨ h.y.barrwait = false → h.m.Compact
  scan : ∀ op i n, h.pc = .scan op i n → n = h.m.hpages

theorem tables_initmem (pid : Nat) : (initmem cfg pid).Tables cfg pid where
  cache := ⟨fun q _ hlt => absurd hlt (lt_irrefl _), fun c _ hw => by cases hw⟩
  home := by
    refine ⟨?_, ?_, ?_, ?_⟩
    · intro p hp hown
      have howner : cfg.layout.owner p = pid := by simpa [initmem, hp] using hown
      have hlt := cfg.layout.homei_lt p hp
      have hcount := cfg.layout.count_lt pid
      have hat := cfg.layout.pageAt_homei p hp
      rw [howner] at hlt hat
      have hidx : ((initmem cfg pid).page p).homei = cfg.layout.homei p := by
        simp [initmem, hp, howner]
      rw [hidx]
      refine ⟨by omega, ?_⟩
      simp only [initmem, if_pos hlt, hat]
    · intro p hp haway
      have howner : ¬ cfg.layout.owner p = pid := by simpa [initmem, hp] using haway
      simp [initmem, howner]
    · intro i hi hne
      by_cases hlt : i < cfg.layout.count pid
      · obtain ⟨hat, howner, hidx⟩ := cfg.layout.pageAt_spec pid i hlt
        refine ⟨cfg.layout.pageAt pid i, hat, ?_, ?_⟩
        · simp only [initmem, if_pos hlt]
        · simp [initmem, hat, howner, hidx]
      · simp [initmem, hlt] at hne
    · intro p hp
      have hlt : ¬ p < cfg.npages := by omega
      simp [initmem, hlt]

theorem compact_initmem (pid : Nat) : (initmem cfg pid).Compact := by
  have hpages : (initmem cfg pid).hpages = cfg.layout.count pid := by
    simp [hpages, initmem]
  have hcount := cfg.layout.count_lt pid
  unfold Compact
  rw [hpages]
  refine ⟨by omega, ?_⟩
  intro i hi
  simp only [initmem, if_pos hi]
  exact cfg.pageAddr_ne_zero (cfg.layout.pageAt_spec pid i hi).1

theorem pagesOk_init (pid : Nat) : PagesOk cfg pid (initHost cfg pid) where
  tables := tables_initmem pid
  lists := SynState.pages_initsyn
  compact _ := compact_initmem pid
  scan _ _ _ hpc := by cases hpc

section Main

variable {pid : Nat} {h h' : Host} {out : Out}

theorem savepages_pages {m : MemState} (ht : m.CacheTables cfg) {y y' : SynState}
    {dm dm' : Nat → List PageDiff} {cs : List Nat} (hcs : ∀ c ∈ cs, c < cfg.cachepages)
    (hy : y.Pages cfg) (h : savepages cfg pid m y dm cs = .ok (y', dm')) : y'.Pages cfg := by
  induction cs generalizing y dm with
  | nil =>
      simp only [savepages, Except.ok.injEq, Prod.mk.injEq] at h
      exact h.1 ▸ hy
  | cons c cs ih =>
      have hrest : ∀ c ∈ cs, c < cfg.cachepages := fun x hx => hcs x (List.mem_cons_of_mem _ hx)
      simp only [savepages] at h
      split at h
      · rename_i hw
        rw [bind_eq_ok] at h
        obtain ⟨dm₁, -, h⟩ := h
        exact ih hrest (hy.saveTop (ht.dirty c (hcs c List.mem_cons_self) hw).1 pid) h
      · exact ih hrest hy h

/-- What one turn of the home loop of `endinterval` does. -/
structure Scanned (pid : Nat) (op : SynOp) (i : Nat) (h h' : Host) : Prop where
  pc : h'.pc = h.pc
  top : SameButTop h.y h'.y
  page : h'.m.page = h.m.page
  cache : h'.m.cache = h.m.cache
  addr : ∀ j, (h'.m.home j).addr = (h.m.home j).addr
  homesize : h'.m.homesize = h.m.homesize
  getpwait : h'.m.getpwait = h.m.getpwait
  rdnt : ∀ j, (h'.m.home j).rdnt = (h.m.home j).rdnt ∨
    (j = i ∧ op = .barr ∧ (h.m.home i).rdnt = true)
  saved : h'.y = h.y ∨ ((h.m.home i).wtnt &&& 1 ≠ 0 ∧ h'.y = h.y.saveTop (h.m.home i).addr pid)
  noted : (h.m.home i).wtnt &&& 1 ≠ 0 → (h.m.home i).rdnt = true →
    h'.y = h.y.saveTop (h.m.home i).addr pid

theorem scanHome_spec {op : SynOp} {i : Nat} (hs : h.scanHome cfg pid op i = .ok h') :
    Scanned pid op i h h' := by
  have htop := scanHome_ok hs
  unfold scanHome at hs
  split at hs
  · rename_i hw
    simp only [bind_eq_ok, pure, Except.pure, Except.ok.injEq] at hs
    obtain ⟨m, hvec, rfl⟩ := hs
    have hstill := still_vectorHome hvec
    have hpage : m.page = (h.saveHome pid op i).m.page := by
      funext p
      have h₁ := hstill.cache.cachei p
      have h₂ := hstill.home.homei p
      have h₃ := hstill.home.homepid p
      cases hp : m.page p
      cases hq : (h.saveHome pid op i).m.page p
      simp_all
    have hcache : m.cache = (h.saveHome pid op i).m.cache := funext hstill.cache.cache
    by_cases hr : (h.m.home i).rdnt = true
    · have hsave : h.saveHome pid op i = { h with
          m := if op = .barr then h.m.setHome i { h.m.home i with rdnt := false } else h.m
          y := h.y.saveTop (h.m.home i).addr pid } := by
        unfold saveHome
        rw [if_pos hr]
      rw [hsave] at hpage hcache hstill htop ⊢
      by_cases hop : op = .barr
      · simp only [hop, if_true] at hpage hcache hstill
        refine ⟨rfl, htop.2, hpage, hcache, ?_, hstill.home.homesize, hstill.getpwait, ?_,
          Or.inr ⟨hw, rfl⟩, fun _ _ => rfl⟩
        · intro j
          rw [hstill.home.addr]
          by_cases hj : j = i
          · simp [hj]
          · simp [hj]
        · intro j
          by_cases hj : j = i
          · exact Or.inr ⟨hj, hop, hr⟩
          · left
            rw [hstill.home.rdnt]
            simp [hj]
      · simp only [hop, if_false] at hpage hcache hstill
        exact ⟨rfl, htop.2, hpage, hcache, hstill.home.addr, hstill.home.homesize,
          hstill.getpwait, fun j => Or.inl (hstill.home.rdnt j), Or.inr ⟨hw, rfl⟩, fun _ _ => rfl⟩
    · have hsave : h.saveHome pid op i = h := by
        unfold saveHome
        rw [if_neg hr]
      rw [hsave] at hpage hcache hstill htop ⊢
      exact ⟨rfl, htop.2, hpage, hcache, hstill.home.addr, hstill.home.homesize,
        hstill.getpwait, fun j => Or.inl (hstill.home.rdnt j), Or.inl rfl,
        fun _ hr' => absurd hr' hr⟩
  · rename_i hw
    obtain rfl := Except.ok.inj hs
    exact ⟨rfl, SameButTop.refl _, rfl, rfl, fun _ => rfl, rfl, rfl, fun _ => Or.inl rfl,
      Or.inl rfl, fun hw' => absurd hw' hw⟩

/-- The main thread waits for page `p`. -/
def Host.Awaits (h : Host) (p : Nat) : Prop :=
  ∃ w, h.pc = .fault w ∧ w.page = p ∧ h.m.getpwait = true

/-- The host holds a valid copy of page `p`: it is cached, and its contents are there. -/
def Host.HoldsPage (cfg : Config) (h : Host) (p : Nat) : Prop := h.m.Cached cfg p ∧ ¬ h.Awaits p

/-- What the main thread keeps of the tables. -/
structure Kept (cfg : Config) (pid : Nat) (h h' : Host) : Prop where
  homepid : ∀ p, (h'.m.page p).homepid = (h.m.page p).homepid
  homei : ∀ p, (h'.m.page p).homei = (h.m.page p).homei
  addr : ∀ i, (h'.m.home i).addr = (h.m.home i).addr
  homesize : h'.m.homesize = h.m.homesize
  cache : h'.m.CacheTables cfg
  holds : ∀ p < cfg.npages, h'.HoldsPage cfg p → h.HoldsPage cfg p
  rdnt : ∀ j, (h'.m.home j).rdnt = (h.m.home j).rdnt ∨ ∃ n, h.pc = .scan .barr j n ∧ j < n ∧
    (h.m.home j).wtnt &&& 1 ≠ 0 ∧ (h.m.home j).rdnt = true ∧ h'.pc = .scan .barr (j + 1) n ∧
    h'.y = h.y.saveTop (h.m.home j).addr pid

theorem not_awaits {p : Nat} (hpc : ∀ w, h.pc ≠ .fault w) : ¬ h.Awaits p := by
  rintro ⟨w, hw, -⟩
  exact hpc w hw

/-- A step that leaves the home side alone and makes no copies. -/
theorem kept_of_still (hpc : ∀ w, h.pc = .fault w → h.m.getpwait = false)
    (hhome : SameHome h.m h'.m) (hcache : h'.m.CacheTables cfg)
    (hcached : ∀ q, h'.m.Cached cfg q → h.m.Cached cfg q) : Kept cfg pid h h' where
  homepid := hhome.homepid
  homei := hhome.homei
  addr := hhome.addr
  homesize := hhome.homesize
  cache := hcache
  holds p _ hp := by
    refine ⟨hcached p hp.1, ?_⟩
    rintro ⟨w, hw, -, hwait⟩
    rw [hpc w hw] at hwait
    cases hwait
  rdnt j := Or.inl (hhome.rdnt j)

theorem main_kept {a : Act} (ht : h.m.Tables cfg pid) (hm : Main cfg pid h a h' out) :
    Kept cfg pid h h' := by
  have hsame : SameHome h.m h'.m → h'.m.CacheTables cfg →
      (∀ q, h'.m.Cached cfg q → h.m.Cached cfg q) →
      (∀ w, h.pc = .fault w → h.m.getpwait = false) → Kept cfg pid h h' :=
    fun hhome hcache hcached hpc => kept_of_still hpc hhome hcache hcached
  have hstart : ∀ {m₁ m₂ : MemState} {barr : Bool}, startCache cfg h.m = .ok m₁ →
      startHomes cfg barr m₁ = .ok m₂ → (∀ w, h.pc ≠ .fault w) → h'.m = m₂ →
      Kept cfg pid h h' := by
    intro m₁ m₂ barr h₁ h₂ hpc heq
    obtain ⟨hhome, hcache, hcached, -⟩ := startCache_ok ht.cache h₁
    have hstill := still_startHomes h₂
    subst heq
    exact hsame (hhome.trans hstill.home) (hstill.cache.tables hcache)
      (fun q hq => hcached q ((hstill.cache.cached q).mp hq)) fun w hw => absurd hw (hpc w)
  have hid : h'.m = h.m → (∀ w, h.pc ≠ .fault w) → Kept cfg pid h h' := by
    intro heq hpc
    refine hsame ?_ ?_ ?_ fun w hw => absurd hw (hpc w)
    · exact heq ▸ SameHome.refl h.m
    · exact heq ▸ ht.cache
    · exact fun q hq => heq ▸ hq
  cases hm with
  | load hpc => exact hid rfl (by simp [hpc])
  | store hpc hp hprot =>
      exact hsame ⟨fun _ => rfl, fun _ => rfl, fun _ => rfl, fun _ => rfl, rfl⟩
        ⟨ht.cache.slot, ht.cache.dirty⟩ (fun _ hq => hq) (by simp [hpc])
  | homeFault hpc hp hfault hhome hm =>
      have hstill := still_homeFault hm
      exact hsame hstill.home (hstill.cache.tables ht.cache)
        (fun q hq => (hstill.cache.cached q).mp hq) (by simp [hpc])
  | @cacheFault p seti write m w out hpc hp hfault hhome hm =>
      obtain ⟨hsh, hcache, hcached, hpage, hask⟩ := cacheFault_ok ht.cache hp hm
      refine ⟨hsh.homepid, hsh.homei, hsh.addr, hsh.homesize, hcache, ?_,
        fun j => Or.inl (hsh.rdnt j)⟩
      rintro q hq ⟨hcq, hwait⟩
      refine ⟨?_, not_awaits (by simp [hpc])⟩
      by_cases hqp : q = p
      · subst hqp
        rcases hask with ⟨-, hc, -⟩ | ⟨temp, -, hset⟩
        · exact hc
        · exact absurd ⟨w, rfl, hpage, hset⟩ hwait
      · exact hcached q hq hqp hcq
  | faultEnd hpc hwait hm =>
      obtain ⟨hhome, hcache, hcached, -⟩ := faultEnd_ok ht.cache hm
      exact hsame hhome hcache hcached fun _ _ => hwait
  | single hpc => exact hid rfl (by simp [hpc])
  | start hpc hhost ha hop hm =>
      obtain ⟨y, dm, -, -, rfl⟩ := endinterval_ok hm
      exact hsame ⟨fun _ => rfl, fun _ => rfl, fun _ => rfl, fun _ => rfl, rfl⟩
        ⟨ht.cache.slot, ht.cache.dirty⟩ (fun _ hq => hq) (by simp [hpc])
  | @scan op i n h₁ hpc hi hm =>
      have hs := scanHome_spec hm
      refine ⟨fun p => by rw [hs.page], fun p => by rw [hs.page], hs.addr, hs.homesize,
        ⟨?_, ?_⟩, ?_, ?_⟩
      · intro q hq
        have hslot := ht.cache.slot q hq
        unfold SlotOk at hslot ⊢
        rwa [hs.page, hs.cache]
      · intro c hc
        rw [hs.cache]
        exact ht.cache.dirty c hc
      · rintro q hq ⟨hc, -⟩
        refine ⟨?_, not_awaits (by simp [hpc])⟩
        unfold Cached at hc ⊢
        rwa [hs.page, hs.cache] at hc
      · intro j
        rcases hs.rdnt j with hr | ⟨rfl, rfl, hr⟩
        · exact Or.inl hr
        · by_cases hw : (h.m.home j).wtnt &&& 1 ≠ 0
          · exact Or.inr ⟨n, hpc, hi, hw, hr, rfl, hs.noted hw hr⟩
          · left
            unfold scanHome at hm
            rw [if_neg hw] at hm
            rw [Except.ok.inj hm]
  | scanEnd hpc => exact hid rfl (by simp [hpc])
  | acquire hpc => exact hid rfl (by simp [hpc])
  | acquired hpc hwait hm =>
      obtain ⟨m₁, m₂, h₁, h₂, rfl⟩ := startinterval_ok hm
      exact hstart h₁ h₂ (by simp [hpc]) rfl
  | release hpc hwait hout hm =>
      obtain ⟨m₁, m₂, h₁, h₂, rfl⟩ := startinterval_ok hm
      exact hstart h₁ h₂ (by simp [hpc]) rfl
  | arrive hpc hwait hm =>
      obtain ⟨cs, -, -, rfl⟩ := arrive_ok hm
      exact hid rfl (by simp [hpc])
  | barrsync hpc => exact hid rfl (by simp [hpc])
  | leave hpc hm =>
      obtain ⟨m₁, m₂, h₁, h₂, rfl⟩ := leaveBarrier_ok hm
      refine hstart h₁ h₂ ?_ rfl
      rcases hpc with ⟨hpc, -⟩ | ⟨hpc, -⟩ <;> simp [hpc]
  | wait hpc => exact hid rfl (by simp [hpc])
  | waited hpc => exact hid rfl (by simp [hpc])
  | stay hpc => exact hid rfl (by simp [hpc])

/-- The lists of the main thread hold page addresses only. -/
theorem main_lists {a : Act} (hok : PagesOk cfg pid h) (hst : StackOk h)
    (hm : Main cfg pid h a h' out) : h'.y.Pages cfg := by
  have hy := hok.lists
  cases hm with
  | start hpc hhost ha hop hm =>
      obtain ⟨y, dm, hsave, -, rfl⟩ := endinterval_ok hm
      exact savepages_pages hok.tables.cache (fun c hc => List.mem_range.mp hc) hy hsave
  | @scan op i n h₁ hpc hi hm =>
      have hs := scanHome_spec hm
      rcases hs.saved with heq | ⟨hw, heq⟩
      · exact heq ▸ hy
      · -- the home table has no holes outside a barrier
        have hdown := (hst.flags_down (by simp [hpc]) (by simp [hpc]) (by simp [hpc])).2.1
        obtain ⟨hle, hused⟩ := hok.compact (Or.inr hdown)
        have hn := hok.scan op i n hpc
        obtain ⟨p, hp, ha, -⟩ := hok.tables.home.entry i (by omega) (hused i (by omega))
        exact heq ▸ hy.saveTop ⟨p, hp, ha⟩ pid
  | acquire => exact hy.congr rfl rfl fun _ => rfl
  | acquired hpc hwait hm hpush =>
      rw [pushstack_ok hpush]
      refine ⟨WtntList.pages_empty, ?_, hy.locks⟩
      intro t htm
      rcases List.mem_cons.mp htm with rfl | htm
      · exact hy.top
      · exact hy.below t htm
  | release hpc hwait hout hm hpop =>
      obtain ⟨top, below, hbelow, rfl⟩ := popstack_ok hpop
      refine ⟨?_, ?_, hy.locks⟩
      · refine SynState.pages_mergeNotices (hy.below top ?_) hy.top
        rw [hbelow]
        exact List.mem_cons_self
      · intro t htm
        apply hy.below t
        rw [hbelow]
        exact List.mem_cons_of_mem _ htm
  | arrive hpc hwait hm =>
      obtain ⟨cs, -, -, rfl⟩ := arrive_ok hm
      exact ⟨WtntList.pages_empty, hy.below, hy.locks⟩
  | barrsync => exact hy.congr rfl rfl fun _ => rfl
  | leave hpc hm =>
      obtain ⟨m₁, m₂, h₁, h₂, rfl⟩ := leaveBarrier_ok hm
      exact hy
  | wait => exact hy.congr rfl rfl fun _ => rfl
  | _ => exact hy

theorem main_pagesOk {a : Act} (hok : PagesOk cfg pid h) (hst : StackOk h)
    (hm : Main cfg pid h a h' out) : PagesOk cfg pid h' := by
  have hk := main_kept hok.tables hm
  have hsame : h.m.Compact → h'.m.Compact := by
    intro hc
    unfold Compact MemState.hpages at hc ⊢
    rw [hk.homesize]
    refine ⟨hc.1, ?_⟩
    intro i hi
    rw [hk.addr]
    exact hc.2 i hi
  refine ⟨⟨hk.cache, hok.tables.home.congr hk.homepid hk.homei hk.addr⟩,
    main_lists hok hst hm, ?_, ?_⟩
  · intro hdown
    apply hsame
    apply hok.compact
    rcases hdown with hoff | hdown
    · exact Or.inl hoff
    · cases Barrier.main_flag hst hm with
      | quiet hout hflag => exact Or.inr (hflag ▸ hdown)
      | enter hflag => exact Or.inr hflag
  · intro op i n hpc'
    have hpages : h'.m.hpages = h.m.hpages := by
      unfold MemState.hpages
      rw [hk.homesize]
    rw [hpages]
    cases hm with
    | load hpc => rw [hpc] at hpc'; cases hpc'
    | store hpc => rw [hpc] at hpc'; cases hpc'
    | homeFault hpc => rw [hpc] at hpc'; cases hpc'
    | single hpc => rw [hpc] at hpc'; cases hpc'
    | start hpc hhost ha hop hm =>
        obtain ⟨y, dm, -, -, rfl⟩ := endinterval_ok hm
        cases hpc'
        rfl
    | scan hpc =>
        cases hpc'
        exact hok.scan _ _ _ hpc
    | arrive hpc hwait hm =>
        obtain ⟨cs, -, -, rfl⟩ := arrive_ok hm
        cases hpc'
    | leave hpc hm =>
        obtain ⟨m₁, m₂, h₁, h₂, rfl⟩ := leaveBarrier_ok hm
        cases hpc'
    | stay hpc => rw [hpc] at hpc'; cases hpc'
    | _ => cases hpc'

/-- The messages of the main thread hold page addresses only. -/
theorem main_messages {a : Act} (hok : PagesOk cfg pid h) (hm : Main cfg pid h a h' out)
    {d : Nat} {msg : Msg} (hmem : (d, msg) ∈ out) : msg.Pages cfg := by
  have hnotices : ∀ {l : WtntList} {cs : List (List WtntEntry)} {c : List WtntEntry},
      l.Pages cfg → appendStackWtnts.stream l = .ok cs → c ∈ cs →
      ∀ n ∈ c.map WtntEntry.toStack, cfg.IsPage n.addr := by
    intro l cs c hl hcs hc n hn
    obtain ⟨e, he, rfl⟩ := List.mem_map.mp hn
    exact hl e ((WtntList.chunk_pages hcs hc).1 e he)
  cases hm with
  | cacheFault _ hp hfault hhome hm =>
      rcases cacheFault_out hm with rfl | ⟨temp, rfl⟩
      · cases hmem
      · obtain ⟨-, rfl⟩ := Prod.mk.inj (List.mem_singleton.mp hmem)
        exact ⟨_, hp, rfl⟩
  | start _ hhost ha hop hm =>
      obtain ⟨y, dm, -, rfl, -⟩ := endinterval_ok hm
      obtain ⟨k, -, -, heq⟩ := mem_senddiffs.mp hmem
      obtain ⟨-, rfl⟩ := Prod.mk.inj heq
      trivial
  | acquire =>
      obtain ⟨-, rfl⟩ := Prod.mk.inj (List.mem_singleton.mp hmem)
      trivial
  | release hpc hwait hout =>
      obtain ⟨cs, hcs, rfl⟩ := sendwtnts_ok hout
      obtain ⟨msg', hmem', heq⟩ := List.mem_map.mp hmem
      obtain ⟨-, rfl⟩ := Prod.mk.inj heq
      obtain ⟨c, hc, rfl | rfl⟩ := mem_chunkMsgs hmem'
      · exact hnotices hok.lists.top hcs hc
      · exact hnotices hok.lists.top hcs hc
  | arrive hpc hwait hm =>
      obtain ⟨cs, hcs, rfl, -⟩ := arrive_ok hm
      have hl : (barrNotices cfg h).Pages cfg := by
        unfold barrNotices
        split
        · exact hok.lists.top.setMig _
        · exact hok.lists.top
      obtain ⟨msg', hmem', heq⟩ := List.mem_map.mp hmem
      obtain ⟨-, rfl⟩ := Prod.mk.inj heq
      obtain ⟨c, hc, rfl | rfl⟩ := mem_chunkMsgs hmem'
      · exact hnotices hl hcs hc
      · exact hnotices hl hcs hc
  | barrsync =>
      obtain ⟨-, rfl⟩ := Prod.mk.inj (List.mem_singleton.mp hmem)
      trivial
  | wait =>
      obtain ⟨-, rfl⟩ := Prod.mk.inj (List.mem_singleton.mp hmem)
      trivial
  | _ => cases hmem

end Main

/-! ## The server thread of one host -/

section Served

variable {pid src : Nat} {rnd : List Nat} {msg : Msg} {h h' : Host} {out : Out}

/-- The notices of a barrier on host `pid`. -/
structure Notices (cfg : Config) (pid : Nat) (ns : List GrantNotice) (m m' : MemState) : Prop where
  tables : m'.Tables cfg pid
  getpwait : m'.getpwait = m.getpwait
  still : cfg.hMig = false → SameHome m m'
  noticed : ∀ p < cfg.npages, Noticed cfg pid (noticeOf cfg p ns) p m m'

/-- What a message does to the memory side of a host. -/
inductive ServedMem (cfg : Config) (pid src : Nat) (m : MemState) (msg : Msg) (m' : MemState)
    (out : Out) : Prop
  | still (hstill : Still m m') (hout : ∀ y ∈ out, ∀ a wv data xs, y.2 ≠ .getpgrant a wv data xs)
      (hmsg : ∀ a wv data xs, msg ≠ .getpgrant a wv data xs)
      (hgetp : ∀ a temp, msg ≠ .getp a temp) (hdown : Barrier.down msg = false)
  | serve (addr : Addr) (temp : Bool) (hmsg : msg = .getp addr temp)
      (hs : Serves cfg pid src addr m m' out)
  | install (addr : Addr) (wv : BitVec Wvbits) (data : Page) (xs : List ExtraPage)
      (hmsg : msg = .getpgrant addr wv data xs) (hout : out = [])
      (hre : Recached cfg (fun q => ∃ x ∈ xs, x.addr = cfg.pageAddr q) m m')
      (hwait : m'.getpwait = false)
  | drop (hre : Recached cfg (fun _ => False) m m') (hwait : m'.getpwait = m.getpwait)
      (hout : out = []) (hmsg : ∀ a wv data xs, msg ≠ .getpgrant a wv data xs)
      (hgetp : ∀ a temp, msg ≠ .getp a temp) (hdown : Barrier.down msg = false)
  | invld (ns : List GrantNotice) (hmsg : msg = .invld hidelock ns) (hout : out = [])
      (hns : Notices cfg pid ns m m') (hsize : m'.homesize = m.homesize ∨ cfg.hMig = true)
  | barrgrant (scope : BitVec 32) (ns : List GrantNotice) (hmsg : msg = .barrgrant hidelock scope ns)
      (hout : out = []) (hns : Notices cfg pid ns m m') (hcompact : cfg.hMig = true → m'.Compact)

theorem served_stack (hs : Served cfg pid h src rnd msg h' out) :
    h'.pc = h.pc ∧ h'.y.top = h.y.top ∧ h'.y.below = h.y.below := by
  cases hs with
  | relNext hl hsrc hc hout =>
      rw [recordRelease, noteScope_eq]
      exact ⟨rfl, rfl, rfl⟩
  | relLast hl hsrc hc =>
      rw [recordRelease, noteScope_eq]
      exact ⟨rfl, rfl, rfl⟩
  | barrgrant hm =>
      obtain ⟨m, -, rfl⟩ := barrgrantserver_ok hm
      refine ⟨rfl, ?_, ?_⟩
      · change (h.y.endBarrier cfg pid).top = h.y.top
        rw [SynState.endBarrier_eq]
      · change (h.y.endBarrier cfg pid).below = h.y.below
        rw [SynState.endBarrier_eq]
  | _ => exact ⟨rfl, rfl, rfl⟩

theorem notices_of_invalidate (ht : h.m.Tables cfg pid) {ns : List GrantNotice} {m : MemState}
    (hp : (∀ n ∈ ns, cfg.IsPage n.addr) ∧ (ns.map GrantNotice.addr).Nodup)
    (hm : invalidate cfg pid hidelock h.m ns = .ok m) : Notices cfg pid ns h.m m := by
  obtain ⟨h₁, h₂, h₃, h₄⟩ := invalidate_ok ht hp.1 hp.2 hm
  exact ⟨h₁, h₂, h₃, h₄⟩

theorem served_mem (ht : h.m.Tables cfg pid) (hp : msg.Pages cfg) (hin : Routed cfg src pid msg)
    (hs : Served cfg pid h src rnd msg h' out) : ServedMem cfg pid src h.m msg h'.m out := by
  -- the messages of grants and broadcasts carry no pages
  have hgrant : ∀ {h₁ : Host} {l : Nat} {out : Out}, h₁.grantFirst cfg l = .ok out →
      ∀ y ∈ out, ∀ a wv data xs, y.2 ≠ .getpgrant a wv data xs := by
    intro h₁ l out hout y hy a wv data xs
    obtain ⟨cs, -, rfl⟩ := grantFirst_ok hout
    obtain ⟨msg', hmsg, rfl⟩ := List.mem_map.mp hy
    obtain ⟨c, -, rfl | rfl⟩ := mem_chunkMsgs hmsg <;> simp
  have hbcast : ∀ {r l : Nat} {m : Msg}, m.Broadcast →
      ∀ y ∈ bcastserver cfg pid r l m, ∀ a wv data xs, y.2 ≠ .getpgrant a wv data xs := by
    intro r l m hb y hy a wv data xs
    have hy' : (y.1, y.2) ∈ bcastserver cfg pid r l m := hy
    rw [mem_bcastserver hy']
    split
    · cases hb <;> simp
    · simp
  have hbroad : ∀ {m : Msg}, m.Broadcast →
      ∀ y ∈ broadcast cfg pid m, ∀ a wv data xs, y.2 ≠ .getpgrant a wv data xs := by
    intro m hb y hy a wv data xs
    unfold broadcast at hy
    split at hy
    · exact hbcast hb y hy a wv data xs
    · obtain ⟨j, -, rfl⟩ := List.mem_map.mp hy
      cases hb <;> simp
  cases hs with
  | diff hm => exact .still (still_applyDiffs hm) (by simp) (by simp) (by simp) rfl
  | diffgrant =>
      exact .still ⟨⟨fun _ => rfl, fun _ => rfl, fun _ => rfl, fun _ => rfl, rfl⟩,
        ⟨fun _ => rfl, fun _ => rfl⟩, rfl⟩ (by simp) (by simp) (by simp) rfl
  | getp hm => exact .serve _ _ rfl (getpserver_ok hm)
  | getpgrant hm =>
      obtain ⟨hre, hwait⟩ := getpgrantserver_ok ht.cache hp.2 hm
      exact .install _ _ _ _ rfl rfl hre hwait
  | acqFirst hl hc hout => exact .still (Still.refl _) (hgrant hout) (by simp) (by simp) rfl
  | acqQueue hl hc => exact .still (Still.refl _) (by simp) (by simp) (by simp) rfl
  | relNext hl hsrc hc hout => exact .still (Still.refl _) (hgrant hout) (by simp) (by simp) rfl
  | relLast hl hsrc hc => exact .still (Still.refl _) (by simp) (by simp) (by simp) rfl
  | @acqgrant l scope ns m hm =>
      have hne : l ≠ hidelock := by
        have hlt := hin.1
        simp only [hidelock]
        omega
      obtain ⟨hre, hwait⟩ := invalidate_lock_ok hne ht.cache hp.1 hm
      exact .drop hre hwait rfl (by simp) (by simp) rfl
  | @invld l ns m hm =>
      by_cases hl : l = hidelock
      · subst hl
        have hns := notices_of_invalidate ht hp hm
        refine .invld ns rfl rfl hns ?_
        by_cases hoff : cfg.hMig = true
        · exact Or.inr hoff
        · exact Or.inl (hns.still (by simpa using hoff)).homesize
      · obtain ⟨hre, hwait⟩ := invalidate_lock_ok hl ht.cache hp.1 hm
        exact .drop hre hwait rfl (by simp) (by simp) (by simpa [Barrier.down] using hl)
  | wtnt hl => exact .still (Still.refl _) (by simp) (by simp) (by simp) rfl
  | barrCount hl hc => exact .still (Still.refl _) (by simp) (by simp) (by simp) rfl
  | barrLast hl hc hout =>
      refine .still (Still.refl _) ?_ (by simp) (by simp) rfl
      intro y hy
      obtain ⟨cs, -, rfl⟩ := grantbarr_ok hout
      obtain ⟨msg', hmsg, hy⟩ := List.mem_flatMap.mp hy
      obtain ⟨c, -, rfl | rfl⟩ := mem_chunkMsgs hmsg
      · exact hbroad (.invld _) y hy
      · exact hbroad (.barrgrant _ _) y hy
  | @barrgrant l scope ns _ hm =>
      obtain rfl : l = hidelock := hin
      obtain ⟨m, hinv, rfl⟩ := barrgrantserver_ok hm
      have hns := notices_of_invalidate ht hp hinv
      by_cases hmig : cfg.hMig = true
      · obtain ⟨harr, hcompact⟩ := migarrangehome_ok hns.tables.home
        refine .barrgrant scope ns rfl rfl ⟨?_, ?_, ?_, ?_⟩ ?_
        · simp only [hmig, if_true]
          exact ⟨harr.cache.tables hns.tables.cache, harr.home⟩
        · simp only [hmig, if_true]
          exact harr.getpwait.trans hns.getpwait
        · intro hoff
          rw [hmig] at hoff
          cases hoff
        · intro p hlt
          obtain ⟨h₁, h₂, h₃⟩ := hns.noticed p hlt
          simp only [hmig, if_true]
          refine ⟨(harr.homepid p).trans h₁, ?_, ?_⟩
          · intro hpid hr
            have hpid' := (harr.homepid p).symm.trans hpid
            exact h₂ hpid' ((harr.rdnt p hlt hpid').symm.trans hr)
          · intro hc
            rw [harr.homepid p]
            exact h₃ ((harr.cache.cached p).mp hc)
        · intro _
          simpa only [hmig, if_true] using hcompact
      · refine .barrgrant scope ns rfl rfl ?_ fun hon => absurd hon hmig
        simp only [if_neg hmig]
        exact hns
  | waitCount hc => exact .still (Still.refl _) (by simp) (by simp) (by simp) rfl
  | waitLast hc => exact .still (Still.refl _) (hbroad .waitgrant) (by simp) (by simp) rfl
  | waitgrant => exact .still (Still.refl _) (by simp) (by simp) (by simp) rfl
  | bcast => exact .still (Still.refl _) (hbcast hin) (by simp) (by simp) rfl

/-- What a message that is no part of an answer leaves of the home side. -/
structure HomeKept (m m' : MemState) : Prop where
  homepid : ∀ p, (m'.page p).homepid = (m.page p).homepid
  homei : ∀ p, (m'.page p).homei = (m.page p).homei
  rdnt : ∀ p, m'.rdnt p = false → m.rdnt p = false

theorem homeKept_of_flagged {m m' : MemState} (h : Flagged m m') : HomeKept m m' := by
  refine ⟨h.homepid, h.homei, ?_⟩
  intro p hr
  unfold MemState.rdnt at hr ⊢
  rw [h.homei] at hr
  by_contra hne
  rw [h.rdnt _ (Bool.not_eq_false _ ▸ hne)] at hr
  cases hr

theorem homeKept_of_same {m m' : MemState} (h : SameHome m m') : HomeKept m m' :=
  ⟨h.homepid, h.homei, fun p hr => (h.rdnt_eq p).symm.trans hr⟩

theorem homeKept_served {m m' : MemState} (hs : ServedMem cfg pid src m msg m' out)
    (hdown : Barrier.down msg = false) : HomeKept m m' := by
  cases hs with
  | still hstill => exact homeKept_of_same hstill.home
  | serve addr temp hmsg hserves => exact homeKept_of_flagged hserves.flagged
  | install addr wv data xs hmsg hout hre hwait => exact homeKept_of_same hre.home
  | drop hre => exact homeKept_of_same hre.home
  | invld ns hmsg =>
      subst hmsg
      cases hdown
  | barrgrant scope ns hmsg =>
      subst hmsg
      cases hdown

/-- The lists after a message hold page addresses only. -/
theorem served_lists (hy : h.y.Pages cfg) (hp : msg.Pages cfg)
    (hs : Served cfg pid h src rnd msg h' out) : h'.y.Pages cfg := by
  cases hs with
  | acqFirst hl hc hout => exact hy.setLock (hy.locks _)
  | acqQueue hl hc => exact hy.setLock (hy.locks _)
  | relNext hl hsrc hc hout => exact hy.recordRelease hp
  | relLast hl hsrc hc => exact hy.recordRelease hp
  | @acqgrant l scope ns m hm =>
      have hset : (h.y.setLock l { h.y.locks l with myscope := scope }).Pages cfg :=
        hy.setLock (hy.locks l)
      exact hset.congr rfl rfl fun _ => rfl
  | wtnt hl => exact hy.recordwtnts hp
  | barrCount hl hc =>
      have hrec : (h.y.recordwtnts hidelock src _).Pages cfg := hy.recordwtnts hp
      exact hrec.setLock (hrec.locks hidelock)
  | barrLast hl hc hout => exact (hy.recordwtnts hp).setLock WtntList.pages_empty
  | @barrgrant l scope ns _ hm =>
      obtain ⟨m, -, rfl⟩ := barrgrantserver_ok hm
      have hend := hy.endBarrier pid
      have hset : ((h.y.endBarrier cfg pid).setLock l { (h.y.endBarrier cfg pid).locks l with
          myscope := scope }).Pages cfg := hend.setLock (hend.locks l)
      exact hset.congr rfl rfl fun _ => rfl
  | waitCount hc => exact hy.congr rfl rfl fun _ => rfl
  | waitLast hc => exact hy.congr rfl rfl fun _ => rfl
  | waitgrant => exact hy.congr rfl rfl fun _ => rfl
  | _ => exact hy

/-- The messages a server thread sends hold page addresses only. -/
theorem served_messages (hok : PagesOk cfg pid h) (hp : msg.Pages cfg)
    (hs : Served cfg pid h src rnd msg h' out) {d : Nat} {msg' : Msg} (hmem : (d, msg') ∈ out) :
    msg'.Pages cfg := by
  -- a chunk of a list, as the notices of a grant
  have hchunk : ∀ {l : WtntList} {k : Packing} {cs : List (List WtntEntry)} {c : List WtntEntry},
      l.Pages cfg → k.stream l = .ok cs → c ∈ cs →
      (∀ n ∈ c.map WtntEntry.toGrant, cfg.IsPage n.addr) ∧
        ((c.map WtntEntry.toGrant).map GrantNotice.addr).Nodup := by
    intro l k cs c hl hcs hc
    obtain ⟨hsub, hnodup⟩ := WtntList.chunk_pages hcs hc
    constructor
    · intro n hn
      obtain ⟨e, he, rfl⟩ := List.mem_map.mp hn
      exact hl e (hsub e he)
    · rw [List.map_map]
      refine List.Nodup.of_map pageNum ?_
      rw [List.map_map]
      exact hnodup
  have hgrant : ∀ {h₁ : Host} {l : Nat} {out : Out}, (h₁.y.locks l).wtntp.Pages cfg →
      h₁.grantFirst cfg l = .ok out → (d, msg') ∈ out → msg'.Pages cfg := by
    intro h₁ l out hl hout hmem
    obtain ⟨cs, hcs, rfl⟩ := grantFirst_ok hout
    obtain ⟨msg₁, hmsg, heq⟩ := List.mem_map.mp hmem
    obtain ⟨-, rfl⟩ := Prod.mk.inj heq
    obtain ⟨c, hc, rfl | rfl⟩ := mem_chunkMsgs hmsg
    · exact hchunk hl hcs hc
    · exact hchunk hl hcs hc
  have hbcast : ∀ {r l : Nat} {m : Msg}, m.Pages cfg → (d, msg') ∈ bcastserver cfg pid r l m →
      msg'.Pages cfg := by
    intro r l m hm hmem
    rw [mem_bcastserver hmem]
    split
    · exact hm
    · exact hm
  have hbroad : ∀ {m : Msg}, m.Pages cfg → (d, msg') ∈ broadcast cfg pid m → msg'.Pages cfg := by
    intro m hm hmem
    unfold broadcast at hmem
    split at hmem
    · exact hbcast hm hmem
    · obtain ⟨j, -, heq⟩ := List.mem_map.mp hmem
      obtain ⟨-, rfl⟩ := Prod.mk.inj heq
      exact hm
  have hlists := hok.lists
  cases hs with
  | diff hm =>
      obtain ⟨-, rfl⟩ := Prod.mk.inj (List.mem_singleton.mp hmem)
      trivial
  | @getp addr temp m out hm =>
      obtain ⟨hflag, hown, hr, wv, data, xs, rfl, hxs⟩ := getpserver_ok hm
      obtain ⟨-, rfl⟩ := Prod.mk.inj (List.mem_singleton.mp hmem)
      refine ⟨hp, ?_⟩
      intro x hx
      obtain ⟨q, ha, hq, hi, -⟩ := hxs x hx
      -- pages that are not allocated have no home entry
      refine ⟨q, ?_, ha⟩
      by_contra hlt
      have hout := hok.tables.home.outside q (by omega)
      omega
  | @acqFirst l scope out hl hc hout =>
      have hset : (h.y.setLock l (pushAcq (h.y.locks l) src scope)).Pages cfg :=
        hlists.setLock (hlists.locks l)
      exact hgrant (hset.locks l) hout hmem
  | relNext hl hsrc hc hout => exact hgrant ((hlists.recordRelease hp).locks _) hout hmem
  | @barrLast scope ns out hl hc hout =>
      have hrec : (h.y.recordwtnts hidelock src ns).Pages cfg := hlists.recordwtnts hp
      obtain ⟨cs, hcs, rfl⟩ := grantbarr_ok hout
      have hset : ((h.y.recordwtnts hidelock src ns).setLock hidelock (nextBarr (countBarr
          ((h.y.recordwtnts hidelock src ns).locks hidelock)))).Pages cfg :=
        hrec.setLock (hrec.locks hidelock)
      have hl := hset.locks hidelock
      obtain ⟨msg₁, hmsg, hmem⟩ := List.mem_flatMap.mp hmem
      obtain ⟨c, hc, rfl | rfl⟩ := mem_chunkMsgs hmsg
      · have hm : (Msg.invld hidelock (c.map WtntEntry.toGrant)).Pages cfg := hchunk hl hcs hc
        exact hbroad hm hmem
      · have hm : ∀ scope, (Msg.barrgrant hidelock scope (c.map WtntEntry.toGrant)).Pages cfg :=
          fun _ => hchunk hl hcs hc
        exact hbroad (hm _) hmem
  | waitLast hc =>
      have hwait : Msg.waitgrant.Pages cfg := trivial
      exact hbroad hwait hmem
  | @bcast root l m =>
      have hm : m.Pages cfg := hp
      exact hbcast hm hmem
  | _ => cases hmem

/-- Only the end of a barrier lowers the flag. -/
theorem served_barrwait (hin : Routed cfg src pid msg) (hdown : Barrier.down msg = false)
    (hs : Served cfg pid h src rnd msg h' out) : h'.y.barrwait = h.y.barrwait := by
  cases hs with
  | relNext hl hsrc hc hout => exact Barrier.barrwait_recordRelease _ _ _ _
  | relLast hl hsrc hc => exact Barrier.barrwait_recordRelease _ _ _ _
  | @barrgrant l scope ns _ hm =>
      obtain rfl : l = hidelock := hin
      cases hdown
  | _ => rfl

/-- Setting reader flags keeps the tables in order. -/
theorem PagesOk.flagged {m : MemState} (hok : PagesOk cfg pid h) (hf : Flagged h.m m) :
    PagesOk cfg pid { h with m := m } where
  tables := ⟨hf.cache.tables hok.tables.cache,
    hok.tables.home.congr hf.homepid hf.homei hf.addr⟩
  lists := hok.lists
  compact hd := by
    obtain ⟨hle, hused⟩ := hok.compact hd
    have hpages : m.hpages = h.m.hpages := by
      unfold MemState.hpages
      rw [hf.homesize]
    unfold Compact
    rw [hpages]
    exact ⟨hle, fun i hi => by rw [hf.addr]; exact hused i hi⟩
  scan op i n hscan := by
    unfold MemState.hpages
    rw [hf.homesize]
    exact hok.scan op i n hscan

theorem served_pagesOk (hok : PagesOk cfg pid h) (hst : StackOk h) (hp : msg.Pages cfg)
    (hin : Routed cfg src pid msg) (hwaits : Barrier.down msg = true → h.y.barrwait = true)
    (hs : Served cfg pid h src rnd msg h' out) : PagesOk cfg pid h' := by
  have hlists := served_lists hok.lists hp hs
  have hpc := (served_stack hs).1
  -- a message that leaves the addresses of the home table
  have hkeep : h'.m.Tables cfg pid → (∀ i, (h'.m.home i).addr = (h.m.home i).addr) →
      h'.m.homesize = h.m.homesize → h'.y.barrwait = h.y.barrwait → PagesOk cfg pid h' := by
    intro ht haddr hsize hflag
    have hpages : h'.m.hpages = h.m.hpages := by
      unfold MemState.hpages
      rw [hsize]
    refine ⟨ht, hlists, ?_, ?_⟩
    · intro hd
      rw [hflag] at hd
      unfold Compact
      rw [hpages]
      obtain ⟨hle, hused⟩ := hok.compact hd
      exact ⟨hle, fun i hi => by rw [haddr]; exact hused i hi⟩
    · intro op i n hscan
      rw [hpages]
      exact hok.scan op i n (hpc ▸ hscan)
  have hflag : Barrier.down msg = false → h'.y.barrwait = h.y.barrwait :=
    fun hd => served_barrwait hin hd hs
  cases served_mem hok.tables hp hin hs with
  | still hstill hout hmsg hgetp hdown =>
      exact hkeep ⟨hstill.cache.tables hok.tables.cache, hstill.home.tables hok.tables.home⟩
        hstill.home.addr hstill.home.homesize (hflag hdown)
  | serve addr temp hmsg hserve =>
      have hf := hserve.flagged
      subst hmsg
      exact hkeep ⟨hf.cache.tables hok.tables.cache,
        hok.tables.home.congr hf.homepid hf.homei hf.addr⟩ hf.addr hf.homesize (hflag rfl)
  | install addr wv data xs hmsg hout hre hwait =>
      subst hmsg
      exact hkeep ⟨hre.cache, hre.home.tables hok.tables.home⟩ hre.home.addr hre.home.homesize
        (hflag rfl)
  | drop hre hwait hout hmsg hgetp hdown =>
      exact hkeep ⟨hre.cache, hre.home.tables hok.tables.home⟩ hre.home.addr hre.home.homesize
        (hflag hdown)
  | invld ns hmsg hout hns =>
      subst hmsg
      have hup := hwaits rfl
      have hbarr := hst.barrwait hup
      have hup' : h'.y.barrwait = true := by
        cases hs
        exact hup
      refine ⟨hns.tables, hlists, ?_, ?_⟩
      · rintro (hoff | hd)
        · exact (hns.still hoff).compact (hok.compact (Or.inl hoff))
        · rw [hup'] at hd
          cases hd
      · intro op i n hscan
        rw [hpc, hbarr] at hscan
        cases hscan
  | barrgrant scope ns hmsg hout hns hcompact =>
      subst hmsg
      have hbarr := hst.barrwait (hwaits rfl)
      refine ⟨hns.tables, hlists, ?_, ?_⟩
      · intro _
        by_cases hmig : cfg.hMig = true
        · exact hcompact hmig
        · have hoff : cfg.hMig = false := by simpa using hmig
          exact (hns.still hoff).compact (hok.compact (Or.inl hoff))
      · intro op i n hscan
        rw [hpc, hbarr] at hscan
        cases hscan

end Served

/-! ## Runs -/

/-- A host that gets the answer of a barrier waits for it. -/
theorem reach_down_waiting {s : State} (hs : (system cfg).Reach s) {src dst : Nat} {msg : Msg}
    {rest : List Msg} (hnet : s.net src dst = msg :: rest) (hdown : Barrier.down msg = true) :
    dst < cfg.hostc ∧ (s.host dst).y.barrwait = true := by
  obtain ⟨log, hlog⟩ := hs.exists_hist (Barrier.rounds cfg).history
  have hok := (Barrier.rounds cfg).reach_ok hlog
  have hmem : msg ∈ s.net src dst := by
    rw [hnet]
    exact List.mem_cons_self
  obtain ⟨hdst, -, hflag⟩ := hok.hearing hnet (reach_relayed hs hmem) hdown
  exact ⟨hdst, hflag⟩

/-- The tables of every host and the addresses in every message are in order. -/
structure AllPages (cfg : Config) (s : State) : Prop where
  host : ∀ i, PagesOk cfg i (s.host i)
  net : ∀ {a b msg}, msg ∈ s.net a b → msg.Pages cfg

theorem AllPages.main {s : State} {i : Nat} {a : Act} {hst : Host} {out : Out}
    (hall : AllPages cfg s) (hstack : StackOk (s.host i)) (hm : Main cfg i (s.host i) a hst out) :
    AllPages cfg (s.put i hst out) where
  host j := by
    by_cases hj : j = i
    · subst hj
      rw [State.put_host_same]
      exact main_pagesOk (hall.host j) hstack hm
    · rw [State.put_host_of_ne _ _ _ hj]
      exact hall.host j
  net := by
    intro x y msg hmem
    rw [State.put_net] at hmem
    rcases mem_send.mp hmem with hold | ⟨rfl, hnew⟩
    · exact hall.net hold
    · exact main_messages (hall.host x) hm hnew

theorem AllPages.served {s : State} {src dst : Nat} {rnd : List Nat} {msg : Msg} {rest : List Msg}
    {hst : Host} {out : Out} (hall : AllPages cfg s) (hstack : StackOk (s.host dst))
    (hnet : s.net src dst = msg :: rest) (hin : Routed cfg src dst msg)
    (hwaits : Barrier.down msg = true → (s.host dst).y.barrwait = true)
    (hm : Served cfg dst (s.host dst) src rnd msg hst out) :
    AllPages cfg ({ s with net := drop s.net src dst }.put dst hst out) := by
  have hfirst : msg.Pages cfg := by
    apply hall.net (a := src) (b := dst)
    rw [hnet]
    exact List.mem_cons_self
  constructor
  · intro j
    by_cases hj : j = dst
    · subst hj
      rw [State.put_host_same]
      exact served_pagesOk (hall.host j) hstack hfirst hin hwaits hm
    · rw [State.put_host_of_ne _ _ _ hj]
      exact hall.host j
  · intro x y msg' hmem
    rw [State.put_net] at hmem
    rcases mem_send.mp hmem with hold | ⟨rfl, hnew⟩
    · exact hall.net (mem_of_mem_drop hold)
    · exact served_messages (hall.host x) hfirst hm hnew

theorem reach_pages {s : State} (hs : (system cfg).Reach s) : AllPages cfg s := by
  refine hs.invariant (I := AllPages cfg) ⟨fun i => pagesOk_init i, ?_⟩ ?_
  · intro a b msg hm
    cases hm
  intro s e s' hreach hok hnext
  rcases step_view hnext with ⟨i, act, hst, out, -, hi, hm, -, rfl⟩ |
    ⟨src, dst, rnd, msg, rest, hst, out, -, hnet, hm, -, rfl⟩
  · exact hok.main (reach_stackOk hreach i) hm
  · have hfirst : msg ∈ s.net src dst := by
      rw [hnet]
      exact List.mem_cons_self
    exact hok.served (reach_stackOk hreach dst) hnet (reach_routed hreach hfirst)
      (fun hd => (reach_down_waiting hreach hnet hd).2) hm

end Jiajia
