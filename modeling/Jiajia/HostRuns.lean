import Jiajia.WriteBits
import Jiajia.Locks

/-!
# The runs of one host

A host whose main thread takes its steps and whose server threads handle the
messages that come in, with `AD_WD` switched at any time.
-/

namespace Jiajia

open Fifo Transition

/-- The same run with another setting of `AD_WD`. -/
def Config.withAdWd (cfg : Config) (b : Bool) : Config := { cfg with adWd := b }

variable {cfg : Config} {pid : Nat}

namespace MemState

variable {m : MemState}

theorem tables_withAdWd {b : Bool} : m.Tables (cfg.withAdWd b) pid ↔ m.Tables cfg pid := by
  constructor
  · rintro ⟨hc, hh⟩
    exact ⟨⟨hc.slot, hc.dirty⟩, ⟨hh.home, hh.away, hh.entry, hh.outside⟩⟩
  · rintro ⟨hc, hh⟩
    exact ⟨⟨hc.slot, hc.dirty⟩, ⟨hh.home, hh.away, hh.entry, hh.outside⟩⟩

end MemState

namespace Host

open MemState

variable {h h' : Host} {out : Out}

theorem pagesOk_withAdWd {b : Bool} : PagesOk (cfg.withAdWd b) pid h ↔ PagesOk cfg pid h := by
  constructor
  · rintro ⟨ht, hl, hc, hs⟩
    exact ⟨tables_withAdWd.mp ht, ⟨hl.top, hl.below, hl.locks⟩, hc, hs⟩
  · rintro ⟨ht, hl, hc, hs⟩
    exact ⟨tables_withAdWd.mpr ht, ⟨hl.top, hl.below, hl.locks⟩, hc, hs⟩

theorem detects_withAdWd {b : Bool} : Detects (cfg.withAdWd b) pid h ↔ Detects cfg pid h :=
  ⟨fun hd => ⟨hd.bits, hd.marked⟩, fun hd => ⟨hd.bits, hd.marked⟩⟩

theorem pages_withAdWd {b : Bool} (msg : Msg) : msg.Pages (cfg.withAdWd b) ↔ msg.Pages cfg := by
  induction msg with
  | bcast root level msg ih => exact ih
  | _ => exact Iff.rfl

theorem routed_withAdWd {b : Bool} {src : Nat} {msg : Msg} :
    Routed (cfg.withAdWd b) src pid msg ↔ Routed cfg src pid msg := by
  cases msg <;> exact Iff.rfl

end Host

/-! ## Recorded writes -/

namespace MemState

variable {m m' m'' : MemState}

/-- A slot of page `q` was written in this interval. -/
def Written (cfg : Config) (m : MemState) (q : Nat) : Prop :=
  ∃ c < cfg.cachepages, (m.cache c).wtnt = true ∧ (m.cache c).state = .rw ∧
    (m.cache c).addr = cfg.pageAddr q

/-- The next `endinterval` deals with page `q`: step 1 saves the slot of a copy, and
step 3 comes to the entry of a home page. -/
def Recorded (cfg : Config) (pid : Nat) (m : MemState) (q : Nat) : Prop :=
  ((m.page q).homepid = pid →
    (m.home (m.page q).homei).wtnt &&& 1 = 1 ∧ (m.page q).homei < m.hpages) ∧
  ((m.page q).homepid ≠ pid → Written cfg m q)

/-- A written slot is in state RW. -/
def WrittenRw (cfg : Config) (m : MemState) : Prop :=
  ∀ c < cfg.cachepages, (m.cache c).wtnt = true → (m.cache c).state = .rw

/-- What an operation inside an interval keeps of the writes. -/
structure Keeps (cfg : Config) (pid : Nat) (m m' : MemState) : Prop where
  homepid : ∀ q, (m'.page q).homepid = (m.page q).homepid
  written : ∀ q < cfg.npages, Written cfg m q → Written cfg m' q
  recorded : ∀ q < cfg.npages, Recorded cfg pid m q → Recorded cfg pid m' q
  rw : WrittenRw cfg m → WrittenRw cfg m'

theorem Keeps.refl (m : MemState) : Keeps cfg pid m m :=
  ⟨fun _ => rfl, fun _ _ h => h, fun _ _ h => h, id⟩

theorem Keeps.trans (h : Keeps cfg pid m m') (h' : Keeps cfg pid m' m'') : Keeps cfg pid m m'' :=
  ⟨fun q => (h'.homepid q).trans (h.homepid q),
    fun q hq hw => h'.written q hq (h.written q hq hw),
    fun q hq hr => h'.recorded q hq (h.recorded q hq hr), fun hw => h'.rw (h.rw hw)⟩

theorem keeps_of_cache (hhome : SameHome m m') (hbit : ∀ i, (m'.home i).wtnt = (m.home i).wtnt)
    (hwritten : ∀ q < cfg.npages, Written cfg m q → Written cfg m' q)
    (hrw : WrittenRw cfg m → WrittenRw cfg m') : Keeps cfg pid m m' where
  homepid := hhome.homepid
  written := hwritten
  recorded q hq hr := by
    unfold Recorded at hr ⊢
    rw [hhome.homepid, hhome.homei, hhome.hpages, hbit]
    exact ⟨hr.1, fun hpid => hwritten q hq (hr.2 hpid)⟩
  rw := hrw

theorem Opens.keeps (h : Opens cfg pid m m') (hf : Flagged m m') : Keeps cfg pid m m' := by
  have hcache : m'.cache = m.cache := funext hf.cache.cache
  have hpages : m'.hpages = m.hpages := by
    unfold MemState.hpages
    rw [hf.homesize]
  refine ⟨hf.homepid, ?_, ?_, ?_⟩
  · intro q _ hw
    unfold Written
    rwa [hcache]
  · intro q _ hr
    unfold Recorded Written at hr ⊢
    rw [hf.homepid, hf.homei, hpages, hcache]
    exact ⟨fun hpid => ⟨h.grows _ (hr.1 hpid).1, (hr.1 hpid).2⟩, hr.2⟩
  · intro hw
    unfold WrittenRw
    rwa [hcache]

/-- A slot that `findposition` hands out was not written. -/
theorem findposition_handed (ht : m.CacheTables cfg) {p seti s : Nat}
    (h : m.findposition cfg p seti = some (s, m')) :
    (m.cache s).state ≠ .rw ∧ (m'.cache s).wtnt = false ∧ ∀ c, c ≠ s → m'.cache c = m.cache c := by
  obtain ⟨hs, hnrw, m₁, rfl, hm₁⟩ := findposition_cases h
  have hlt : s < cfg.cachepages := hs ▸ (findSlot_settles cfg m seti).1
  refine ⟨hnrw, ?_⟩
  rw [setPage_cache]
  rcases hm₁ with ⟨rfl, hst⟩ | rfl
  · refine ⟨?_, fun _ _ => rfl⟩
    by_contra hw
    rw [Bool.not_eq_false] at hw
    rcases (ht.dirty s hlt hw).2 with hro | hrw
    · rw [hst] at hro
      cases hro
    · exact hnrw hrw
  · refine ⟨by simp [flushpage], ?_⟩
    intro c hcs
    simp [flushpage, memunmap, hcs]

/-- The slot handed out gets an entry that is unwritten, or RW. -/
theorem keeps_of_handed (hhome : SameHome m m') (hbit : ∀ i, (m'.home i).wtnt = (m.home i).wtnt)
    {s : Nat} (hs : (m.cache s).state ≠ .rw) (hother : ∀ c, c ≠ s → m'.cache c = m.cache c)
    (hentry : (m'.cache s).wtnt = true → (m'.cache s).state = .rw) : Keeps cfg pid m m' := by
  refine keeps_of_cache hhome hbit ?_ ?_
  · rintro q - ⟨c, hc, hw, hrw, ha⟩
    have hcs : c ≠ s := by
      rintro rfl
      exact hs hrw
    refine ⟨c, hc, ?_⟩
    rw [hother c hcs]
    exact ⟨hw, hrw, ha⟩
  · intro hw c hc hwc
    by_cases hcs : c = s
    · subst hcs
      exact hentry hwc
    · rw [hother c hcs] at hwc ⊢
      exact hw c hc hwc

theorem keeps_cacheFault (ht : m.CacheTables cfg) {p seti : Nat} {w : FaultWait} {out : Out}
    (hp : p < cfg.npages) (h : m.cacheFault cfg p seti = .ok (m', w, out)) :
    Keeps cfg pid m m' := by
  have hhome := (cacheFault_ok ht hp h).home
  have hbit := wtnt_cacheFault h
  obtain ⟨m₁, s, hslot, rfl, -⟩ := (cacheFault_eq_ok cfg m).mp h
  rcases faultSlot_cases cfg m hslot with ⟨hc, rfl, hmap, wait, hm₁, -⟩ | ⟨hc, m₂, hpos, hm₁, -⟩
  · -- the page has a slot, so this is a write fault
    have hcache : m₁.cache = m.cache := by
      rw [hm₁]
      rfl
    have hwrite : m.writefault p = true := by simpa [writefault] using hmap
    have hentry : ((m₁.setCache (m.page p).cachei
        (m.faultEntry cfg p (m₁.cache (m.page p).cachei))).cache (m.page p).cachei).wtnt = true ∧
        ((m₁.setCache (m.page p).cachei
          (m.faultEntry cfg p (m₁.cache (m.page p).cachei))).cache (m.page p).cachei).state = .rw ∧
        ((m₁.setCache (m.page p).cachei
          (m.faultEntry cfg p (m₁.cache (m.page p).cachei))).cache (m.page p).cachei).addr =
            cfg.pageAddr p := by
      simp [faultEntry, hwrite]
    have hother : ∀ c, c ≠ (m.page p).cachei → (m₁.setCache (m.page p).cachei
        (m.faultEntry cfg p (m₁.cache (m.page p).cachei))).cache c = m.cache c := by
      intro c hcs
      simp [hcs, hcache]
    refine keeps_of_cache hhome hbit ?_ ?_
    · rintro q hq ⟨c, hclt, hw, hrw, ha⟩
      by_cases hcs : c = (m.page p).cachei
      · subst hcs
        rw [(ht.slot p hp hc).1] at ha
        obtain rfl := cfg.pageAddr_inj hp hq ha
        exact ⟨_, hc, hentry⟩
      · refine ⟨c, hclt, ?_⟩
        rw [hother c hcs]
        exact ⟨hw, hrw, ha⟩
    · intro hw c hclt hwc
      by_cases hcs : c = (m.page p).cachei
      · subst hcs
        exact hentry.2.1
      · rw [hother c hcs] at hwc ⊢
        exact hw c hclt hwc
  · subst hm₁
    obtain ⟨hs, hclean, hother⟩ := findposition_handed ht hpos
    refine keeps_of_handed hhome hbit hs ?_ ?_
    · intro c hcs
      simp [memmap, hcs, hother]
    · simp only [setCache_cache, upd_same]
      unfold faultEntry
      split
      · exact fun _ => rfl
      · intro hw
        have hclean' : (m₂.cache s).wtnt = true := hw
        rw [hclean] at hclean'
        cases hclean'

theorem keeps_faultEnd (ht : m.CacheTables cfg) {w : FaultWait} (h : m.faultEnd w = .ok m') :
    Keeps cfg pid m m' := by
  have hhome := (faultEnd_ok ht h).1
  unfold faultEnd at h
  split at h
  · simp only [pure, Except.pure, Except.ok.injEq] at h
    subst h
    have hsame : ∀ c, ((m.setCache w.cachei { m.cache w.cachei with
        twin := some (m.mem w.page) }).cache c).wtnt = (m.cache c).wtnt ∧
        ((m.setCache w.cachei { m.cache w.cachei with
          twin := some (m.mem w.page) }).cache c).state = (m.cache c).state ∧
        ((m.setCache w.cachei { m.cache w.cachei with
          twin := some (m.mem w.page) }).cache c).addr = (m.cache c).addr := by
      intro c
      by_cases hc : c = w.cachei
      · simp [hc]
      · simp [hc]
    refine keeps_of_cache hhome (fun _ => rfl) ?_ ?_
    · rintro q - ⟨c, hc, hw⟩
      refine ⟨c, hc, ?_⟩
      rw [(hsame c).1, (hsame c).2.1, (hsame c).2.2]
      exact hw
    · intro hw c hc
      rw [(hsame c).1, (hsame c).2.1]
      exact hw c hc
  · obtain ⟨-, rfl⟩ := memprotect_eq_ok.mp h
    exact keeps_of_cache hhome (fun _ => rfl) (fun _ _ hw => hw) fun hw => hw

theorem keeps_installExtra (ht : m.CacheTables cfg) {x : ExtraPage} {seti : Nat}
    (hx : cfg.IsPage x.addr) (h : m.installExtra cfg x seti = .ok m') : Keeps cfg pid m m' := by
  have hhome := (installExtra_ok ht hx h).1.home
  unfold installExtra at h
  simp only at h
  split at h
  · exact Except.ok.inj h ▸ Keeps.refl m
  · split at h
    · exact Except.ok.inj h ▸ Keeps.refl m
    · rename_i s m₁ hpos
      obtain ⟨-, rfl⟩ := memprotect_eq_ok.mp h
      obtain ⟨hs, hclean, hother⟩ := findposition_handed ht hpos
      have hbit : ∀ i, (m₁.home i).wtnt = (m.home i).wtnt := wtnt_findposition hpos
      refine keeps_of_handed hhome hbit hs ?_ ?_
      · intro c hcs
        simp [memmap, hcs, hother]
      · intro hw
        simp [memmap, hclean] at hw

theorem keeps_installExtras {xs : List ExtraPage} {rnd : List Nat} (ht : m.CacheTables cfg)
    (hxs : ∀ x ∈ xs, cfg.IsPage x.addr) (h : installExtras cfg m xs rnd = .ok m') :
    Keeps cfg pid m m' := by
  induction xs generalizing m rnd with
  | nil =>
      simp only [installExtras, Except.ok.injEq] at h
      exact h ▸ Keeps.refl m
  | cons x xs ih =>
      simp only [installExtras, bind_eq_ok] at h
      obtain ⟨m₁, hone, hrest⟩ := h
      have hpage := hxs x List.mem_cons_self
      obtain ⟨hre, -⟩ := installExtra_ok ht hpage hone
      exact (keeps_installExtra ht hpage hone).trans
        (ih hre.cache (fun y hy => hxs y (List.mem_cons_of_mem _ hy)) hrest)

theorem keeps_getpgrantserver {addr : Addr} {wv : BitVec Wvbits} {data : Page}
    {xs : List ExtraPage} {rnd : List Nat} (ht : m.CacheTables cfg)
    (hxs : ∀ x ∈ xs, cfg.IsPage x.addr)
    (h : m.getpgrantserver cfg addr wv data xs rnd = .ok m') : Keeps cfg pid m m' := by
  simp only [getpgrantserver, bind_eq_ok, pure, Except.pure, Except.ok.injEq] at h
  obtain ⟨-, -, m₁, hinst, rfl⟩ := h
  have hkeep : Keeps cfg pid (m.setMem (cfg.pagei addr) _) m₁ :=
    keeps_installExtras ⟨ht.slot, ht.dirty⟩ hxs hinst
  exact ⟨hkeep.homepid, hkeep.written, hkeep.recorded, hkeep.rw⟩

/-- The page of a notice has no written copy. -/
def Clean (cfg : Config) (m : MemState) (n : GrantNotice) : Prop :=
  m.cachepage cfg n.addr < cfg.cachepages → (m.cache (m.cachepage cfg n.addr)).wtnt = false

theorem keeps_invalidateCopy (ht : m.CacheTables cfg) {n : GrantNotice} {p : Nat}
    (hp : p < cfg.npages) (hn : n.addr = cfg.pageAddr p) (hclean : Clean cfg m n)
    (h : Host.invalidateCopy cfg pid m n = .ok m') :
    Keeps cfg pid m m' ∧ ∀ n', Clean cfg m n' → Clean cfg m' n' := by
  have hhome := (invalidateCopy_ok ht hp hn h).1.home
  unfold Host.invalidateCopy at h
  simp only at h
  split at h
  · rename_i hcond
    obtain ⟨-, rfl⟩ := memprotect_eq_ok.mp h
    have hfalse := hclean hcond.2.2.1
    constructor
    · refine keeps_of_cache hhome (fun _ => rfl) ?_ ?_
      · rintro q - ⟨c, hc, hw, hrw, ha⟩
        have hcs : c ≠ m.cachepage cfg n.addr := by
          rintro rfl
          rw [hfalse] at hw
          cases hw
        exact ⟨c, hc, by simp [hcs, hw, hrw, ha]⟩
      · intro hall c hc hw
        by_cases hcs : c = m.cachepage cfg n.addr
        · simp [hcs] at hw
        · simp only [setProt_cache, setCache_cache, upd_of_ne _ _ hcs] at hw ⊢
          exact hall c hc hw
    · intro n' hclean' hlt
      by_cases hcs : m.cachepage cfg n'.addr = m.cachepage cfg n.addr
      · simp [cachepage] at hcs ⊢
        simp [hcs]
      · have hkept := hclean' hlt
        simp only [cachepage, setProt_page, setCache_page, setProt_cache, setCache_cache] at hcs ⊢
        rw [upd_of_ne _ _ hcs]
        exact hkept
  · obtain rfl := Except.ok.inj h
    exact ⟨Keeps.refl m, fun _ h' => h'⟩

theorem keeps_invalidate_lock {lock : Nat} {ns : List GrantNotice} (hlock : lock ≠ hidelock)
    (ht : m.CacheTables cfg) (hpages : ∀ n ∈ ns, cfg.IsPage n.addr)
    (hclean : ∀ n ∈ ns, Clean cfg m n) (h : Host.invalidate cfg pid lock m ns = .ok m') :
    Keeps cfg pid m m' := by
  induction ns generalizing m with
  | nil =>
      simp only [Host.invalidate, Except.ok.injEq] at h
      exact h ▸ Keeps.refl m
  | cons n ns ih =>
      simp only [Host.invalidate, Host.invalidateNotice, bind_eq_ok] at h
      obtain ⟨m₃, ⟨m₁, hcopy, m₂, hmig, hmark⟩, hrest⟩ := h
      obtain ⟨p, hp, hn⟩ := hpages n List.mem_cons_self
      obtain ⟨hre, -, -⟩ := invalidateCopy_ok ht hp hn hcopy
      obtain ⟨hkeep, hstay⟩ :=
        keeps_invalidateCopy ht hp hn (hclean n List.mem_cons_self) hcopy
      have h₂ : m₂ = m₁ := by
        unfold Host.migrateNotice at hmig
        rw [if_neg fun hcon => hlock hcon.2.1] at hmig
        exact (Except.ok.inj hmig).symm
      subst h₂
      have h₃ : m₃ = m₂ := by
        unfold Host.markRemote at hmark
        rw [if_neg fun hcon => hlock hcon.2.1] at hmark
        exact (Except.ok.inj hmark).symm
      subst h₃
      exact hkeep.trans (ih hre.cache (fun x hx => hpages x (List.mem_cons_of_mem _ hx))
        (fun x hx => hstay x (hclean x (List.mem_cons_of_mem _ hx))) hrest)

/-- After step 1 of `startinterval` no slot is written. -/
theorem startCache_clean (h : Host.startCache cfg m = .ok m') :
    ∀ c < cfg.cachepages, (m'.cache c).wtnt = false := by
  simp only [Host.startCache, bind_eq_ok, jiaAssert_eq_ok, pure, Except.pure, Except.ok.injEq] at h
  obtain ⟨-, -, rfl⟩ := h
  intro c hc
  simp only
  split
  · rfl
  · rename_i hno
    simpa [hc] using hno

end MemState

/-! ## Steps -/

/-- The notices a message invalidates copies with. -/
def Msg.invalidates : Msg → List GrantNotice
  | .acqgrant _ _ ns => ns
  | msg => msg.grantNotices

/-- What host `pid` does next. -/
inductive HostEvent
  /-- An action of the main thread. -/
  | main (adWd : Bool) (a : Act)
  /-- A server thread handles a message. -/
  | serve (adWd : Bool) (src : Nat) (rnd : List Nat) (msg : Msg)

namespace Host

open MemState

variable {h h' : Host} {out : Out}

/-- The main thread waits for an answer that carries notices. -/
def Waits (h : Host) : Prop := (∃ l, h.pc = .acqwait l) ∨ h.pc = .barrwait

/-- The main thread is between two synchronisations. -/
def Running (h : Host) : Prop := h.pc = .app ∨ (∃ w, h.pc = .fault w) ∨ h.pc = .waitwait

/-- What the other hosts promise about the messages they send: the addresses are
those of pages, the answers of a barrier come while the host waits for them, and
so do the notices about copies it has written. -/
structure Expected (cfg : Config) (pid src : Nat) (h : Host) (msg : Msg) : Prop where
  pages : msg.Pages cfg
  routed : Routed cfg src pid msg
  barrier : Barrier.down msg = true → h.y.barrwait = true
  clean : h.Waits ∨ ∀ n ∈ msg.invalidates, Clean cfg h.m n

/-- One step of host `pid`, and the messages it sends. -/
def hostStep (cfg : Config) (pid : Nat) (h : Host) : HostEvent → Result (Host × Out)
  | .main b a => h.act (cfg.withAdWd b) pid a
  | .serve b src rnd msg => h.msgHandle (cfg.withAdWd b) pid src rnd msg

/-- The messages that come in are expected. -/
def Comes (cfg : Config) (pid : Nat) (h : Host) : HostEvent → Prop
  | .main _ _ => True
  | .serve _ src _ msg => Expected cfg pid src h msg

end Host

open Host MemState

/-- The runs of host `pid`. -/
def hostSystem (cfg : Config) (pid : Nat) : System Host HostEvent where
  start := initHost cfg pid
  next h e h' := Comes cfg pid h e ∧ ∃ out, hostStep cfg pid h e = .ok (h', out)

namespace Host

variable {h h' : Host} {out : Out}

/-- The tables, the stack and the write bits of the host are in order. -/
structure RunOk (cfg : Config) (pid : Nat) (h : Host) : Prop where
  pages : PagesOk cfg pid h
  stack : StackOk h
  detects : Detects cfg pid h

theorem runOk_withAdWd {b : Bool} : RunOk (cfg.withAdWd b) pid h ↔ RunOk cfg pid h :=
  ⟨fun hok => ⟨pagesOk_withAdWd.mp hok.pages, hok.stack, detects_withAdWd.mp hok.detects⟩,
    fun hok => ⟨pagesOk_withAdWd.mpr hok.pages, hok.stack, detects_withAdWd.mpr hok.detects⟩⟩

theorem Expected.withAdWd {src : Nat} {msg : Msg} (hexp : Expected cfg pid src h msg) (b : Bool) :
    Expected (cfg.withAdWd b) pid src h msg :=
  ⟨(pages_withAdWd msg).mpr hexp.pages, routed_withAdWd.mpr hexp.routed, hexp.barrier,
    hexp.clean⟩

theorem RunOk.main {a : Act} (hok : RunOk cfg pid h) (hm : Main cfg pid h a h' out) :
    RunOk cfg pid h' :=
  ⟨main_pagesOk hok.pages hok.stack hm, stackOk_main hok.stack hm,
    main_detects hok.pages hok.stack hok.detects hm⟩

theorem RunOk.served {src : Nat} {rnd : List Nat} {msg : Msg} (hok : RunOk cfg pid h)
    (hexp : Expected cfg pid src h msg) (hs : Served cfg pid h src rnd msg h' out) :
    RunOk cfg pid h' :=
  ⟨served_pagesOk hok.pages hok.stack hexp.pages hexp.routed hexp.barrier hs,
    stackOk_served hok.stack hs, served_detects hok.pages.tables hexp.pages hok.detects hs⟩

theorem hostStep_view {e : HostEvent} (hs : hostStep cfg pid h e = .ok (h', out)) :
    (∃ b a, e = .main b a ∧ Main (cfg.withAdWd b) pid h a h' out) ∨
      ∃ b src rnd msg, e = .serve b src rnd msg ∧
        Served (cfg.withAdWd b) pid h src rnd msg h' out := by
  cases e with
  | main b a => exact Or.inl ⟨b, a, rfl, act_main hs⟩
  | serve b src rnd msg => exact Or.inr ⟨b, src, rnd, msg, rfl, msgHandle_served hs⟩

theorem RunOk.step {e : HostEvent} (hok : RunOk cfg pid h) (hcomes : Comes cfg pid h e)
    (hs : hostStep cfg pid h e = .ok (h', out)) : RunOk cfg pid h' := by
  rcases hostStep_view hs with ⟨b, a, -, hm⟩ | ⟨b, src, rnd, msg, rfl, hm⟩
  · exact runOk_withAdWd.mp ((runOk_withAdWd.mpr hok).main hm)
  · have hexp : Expected (cfg.withAdWd b) pid src h msg := Expected.withAdWd hcomes b
    exact runOk_withAdWd.mp ((runOk_withAdWd.mpr hok).served hexp hm)

theorem runOk_init (hhost : cfg.hostc ≠ 1) : RunOk cfg pid (initHost cfg pid) :=
  ⟨pagesOk_init pid, stackOk_init, detects_init hhost⟩

/-! ## Inside an interval -/

theorem Running.not_waits (hrun : Running h) : ¬ h.Waits := by
  rintro (⟨l, hl⟩ | hl) <;> rcases hrun with hpc | ⟨w, hpc⟩ | hpc <;> rw [hpc] at hl <;> cases hl

/-- The places of the main thread between two synchronisations. -/
def runs : Pc → Bool
  | .app | .fault _ | .waitwait => true
  | _ => false

theorem running_iff_runs : Running h ↔ runs h.pc = true := by
  unfold Running
  cases h.pc <;> simp [runs]

theorem not_running {pc : Pc} (hpc : h.pc = pc) (hno : runs pc = false) : ¬ Running h := by
  rw [running_iff_runs, hpc, hno]
  exact Bool.false_ne_true

/-- Only the end of an interval leaves it. -/
theorem main_stays {a : Act} (hm : Main cfg pid h a h' out) (ha : Act.starts a = none) :
    Running h → Running h' := by
  have hout : ∀ {pc : Pc}, h.pc = pc → runs pc = false → Running h → Running h' :=
    fun hpc hno hr => absurd hr (not_running hpc hno)
  cases hm with
  | cacheFault => exact fun _ => Or.inr (Or.inl ⟨_, rfl⟩)
  | faultEnd => exact fun _ => Or.inl rfl
  | waited => exact fun _ => Or.inl rfl
  | wait => exact fun _ => Or.inr (Or.inr rfl)
  | start _ _ hop =>
      rw [ha] at hop
      cases hop
  | scan hpc => exact hout hpc rfl
  | scanEnd hpc => exact hout hpc rfl
  | acquire hpc => exact hout hpc rfl
  | acquired hpc => exact hout hpc rfl
  | release hpc => exact hout hpc rfl
  | arrive hpc => exact hout hpc rfl
  | barrsync hpc => exact hout hpc rfl
  | leave hpc => exact hpc.elim (fun hpc => hout hpc.1 rfl) (fun hpc => hout hpc.1 rfl)
  | _ => exact id

theorem main_keeps {a : Act} (ht : h.m.Tables cfg pid) (hm : Main cfg pid h a h' out)
    (hrun : Running h) (hrun' : Running h') : Keeps cfg pid h.m h'.m := by
  have hnot : ∀ {pc : Pc}, h.pc = pc → runs pc = false → Keeps cfg pid h.m h'.m :=
    fun hpc hno => absurd hrun (not_running hpc hno)
  cases hm with
  | store hpc hp hprot => exact ⟨fun _ => rfl, fun _ _ hw => hw, fun _ _ hr => hr, fun hw => hw⟩
  | homeFault hpc hp hfault hhome hm =>
      exact (opens_homeFault hhome hm).keeps (still_homeFault hm).flagged
  | cacheFault hpc hp hfault hhome hm => exact keeps_cacheFault ht.cache hp hm
  | faultEnd hpc hwait hm => exact keeps_faultEnd ht.cache hm
  | start hpc hhost ha hop hm =>
      obtain ⟨y, dm, -, -, rfl⟩ := endinterval_ok hm
      exact absurd hrun' (not_running rfl rfl)
  | scan hpc => exact hnot hpc rfl
  | acquired hpc => exact hnot hpc rfl
  | release hpc => exact hnot hpc rfl
  | arrive hpc => exact hnot hpc rfl
  | leave hpc =>
      rcases hpc with ⟨hpc, -⟩ | ⟨hpc, -⟩
      · exact hnot hpc rfl
      · exact hnot hpc rfl
  | _ => exact Keeps.refl h.m

theorem main_resumes {a : Act} (hm : Main cfg pid h a h' out) (hno : ¬ Running h)
    (hrun' : Running h') : ∀ c < cfg.cachepages, (h'.m.cache c).wtnt = false := by
  have happ : ∀ {pc : Pc}, h'.pc = pc → runs pc = false →
      ∀ c < cfg.cachepages, (h'.m.cache c).wtnt = false :=
    fun hpc hno => absurd hrun' (not_running hpc hno)
  have hstart : ∀ {m₁ m₂ : MemState} {barr : Bool}, startCache cfg h.m = .ok m₁ →
      startHomes cfg barr m₁ = .ok m₂ → ∀ c < cfg.cachepages, (m₂.cache c).wtnt = false := by
    intro m₁ m₂ barr h₁ h₂ c hc
    rw [(still_startHomes h₂).cache.cache]
    exact startCache_clean h₁ c hc
  cases hm with
  | load hpc => exact absurd (Or.inl hpc) hno
  | store hpc => exact absurd (Or.inl hpc) hno
  | homeFault hpc => exact absurd (Or.inl hpc) hno
  | cacheFault hpc => exact absurd (Or.inl hpc) hno
  | faultEnd hpc => exact absurd (Or.inr (Or.inl ⟨_, hpc⟩)) hno
  | single hpc => exact absurd (Or.inl hpc) hno
  | start hpc => exact absurd (Or.inl hpc) hno
  | wait hpc => exact absurd (Or.inl hpc) hno
  | waited hpc => exact absurd (Or.inr (Or.inr hpc)) hno
  | scan hpc => exact happ rfl rfl
  | scanEnd hpc => exact happ rfl rfl
  | acquire hpc => exact happ rfl rfl
  | acquired hpc hwait hm =>
      obtain ⟨m₁, m₂, h₁, h₂, rfl⟩ := startinterval_ok hm
      exact hstart h₁ h₂
  | release hpc hwait hout hm =>
      obtain ⟨m₁, m₂, h₁, h₂, rfl⟩ := startinterval_ok hm
      exact hstart h₁ h₂
  | arrive hpc hwait hm =>
      obtain ⟨cs, -, -, rfl⟩ := arrive_ok hm
      exact happ rfl rfl
  | barrsync hpc => exact happ rfl rfl
  | leave hpc hm =>
      obtain ⟨m₁, m₂, h₁, h₂, rfl⟩ := leaveBarrier_ok hm
      exact hstart h₁ h₂
  | stay hpc => exact happ hpc rfl

theorem served_keeps {src : Nat} {rnd : List Nat} {msg : Msg} (hok : RunOk cfg pid h)
    (hexp : Expected cfg pid src h msg) (hrun : Running h)
    (hs : Served cfg pid h src rnd msg h' out) : Keeps cfg pid h.m h'.m := by
  have ht := hok.pages.tables
  have hclean := hexp.clean.resolve_left hrun.not_waits
  have hdown : Barrier.down msg = false := by
    by_contra hup
    rw [Bool.not_eq_false] at hup
    exact hrun.not_waits (Or.inr (hok.stack.barrwait (hexp.barrier hup)))
  have hp := hexp.pages
  have hrouted := hexp.routed
  cases hs with
  | diff hm => exact (opens_applyDiffs hm).keeps (still_applyDiffs hm).flagged
  | diffgrant => exact ⟨fun _ => rfl, fun _ _ hw => hw, fun _ _ hr => hr, fun hw => hw⟩
  | getp hm => exact (opens_getpserver hm).keeps (getpserver_ok hm).flagged
  | getpgrant hm => exact keeps_getpgrantserver ht.cache hp.2 hm
  | @acqgrant l scope ns m hm =>
      have hne : l ≠ hidelock := by
        have hlt := hrouted.1
        simp only [hidelock]
        omega
      exact keeps_invalidate_lock hne ht.cache hp.1 hclean hm
  | @invld l ns m hm =>
      have hne : l ≠ hidelock := by simpa [Barrier.down] using hdown
      exact keeps_invalidate_lock hne ht.cache hp.1 hclean hm
  | @barrgrant l scope ns _ hm =>
      obtain rfl : l = hidelock := hrouted
      simp [Barrier.down] at hdown
  | _ => exact Keeps.refl h.m

theorem keeps_withAdWd {b : Bool} {m m' : MemState} (hk : Keeps (cfg.withAdWd b) pid m m') :
    Keeps cfg pid m m' :=
  ⟨hk.homepid, hk.written, hk.recorded, hk.rw⟩

/-- A step inside an interval keeps the writes, whatever `AD_WD` is. -/
theorem step_keeps {e : HostEvent} (hok : RunOk cfg pid h) (hcomes : Comes cfg pid h e)
    (hs : hostStep cfg pid h e = .ok (h', out)) (hrun : Running h) (hrun' : Running h') :
    Keeps cfg pid h.m h'.m := by
  rcases hostStep_view hs with ⟨b, a, -, hm⟩ | ⟨b, src, rnd, msg, rfl, hm⟩
  · exact keeps_withAdWd (main_keeps (tables_withAdWd.mpr hok.pages.tables) hm hrun hrun')
  · have hexp : Expected (cfg.withAdWd b) pid src h msg := Expected.withAdWd hcomes b
    exact keeps_withAdWd (served_keeps (runOk_withAdWd.mpr hok) hexp hrun hm)

theorem step_writtenRw {e : HostEvent} (hok : RunOk cfg pid h) (hcomes : Comes cfg pid h e)
    (hs : hostStep cfg pid h e = .ok (h', out)) (hrw : Running h → WrittenRw cfg h.m) :
    Running h' → WrittenRw cfg h'.m := by
  intro hrun'
  by_cases hrun : Running h
  · exact (step_keeps hok hcomes hs hrun hrun').rw (hrw hrun)
  · rcases hostStep_view hs with ⟨b, a, -, hm⟩ | ⟨b, src, rnd, msg, -, hm⟩
    · intro c hc hw
      have hclean : (h'.m.cache c).wtnt = false := main_resumes hm hrun hrun' c hc
      rw [hw] at hclean
      cases hclean
    · apply absurd _ hrun
      unfold Running at hrun' ⊢
      rwa [(served_stack hm).1] at hrun'

theorem store_written (hok : RunOk cfg pid h) (hrw : WrittenRw cfg h.m) {p : Nat}
    (hp : p < cfg.npages) (hpc : h.pc = .app) (hprot : h.m.prot p = .readWrite)
    (haway : (h.m.page p).homepid ≠ pid) : Written cfg h.m p := by
  have hmark := hok.detects.marked p hp hprot (not_reading (by simp [hpc]))
  obtain ⟨hlt, hw⟩ := hmark.2 haway
  exact ⟨_, hlt, hw, hrw _ hlt hw, (hok.pages.tables.cache.slot p hp hlt).1⟩

/-! ## The runs of the program -/

/-- The INVLD messages of a lock are followed by its ACQGRANT. -/
def Followed (ms : List Msg) : Prop :=
  ∀ pre post l ns, ms = pre ++ .invld l ns :: post → l ≠ hidelock →
    ∃ msg ∈ post, msg.isGrant l = true

theorem followed_of_none {ms : List Msg} (h : ∀ l ns, .invld l ns ∈ ms → l = hidelock) :
    Followed ms := by
  intro pre post l ns hms hl
  apply absurd _ hl
  apply h l ns
  rw [hms]
  exact List.mem_append_right _ List.mem_cons_self

theorem Followed.tail {ms : List Msg} (h : Followed ms) : Followed ms.tail := by
  intro pre post l ns hms hl
  cases ms with
  | nil => simp at hms
  | cons msg ms =>
      rw [List.tail_cons] at hms
      exact h (msg :: pre) post l ns (by rw [hms]; rfl) hl

theorem Followed.append {ms ms' : List Msg} (h : Followed ms) (h' : Followed ms') :
    Followed (ms ++ ms') := by
  intro pre post l ns hms hl
  rcases List.append_eq_append_iff.mp hms with ⟨mid, rfl, hmid⟩ | ⟨mid, rfl, hmid⟩
  · exact h' mid post l ns hmid hl
  · cases mid with
    | nil => exact h' [] post l ns hmid.symm hl
    | cons msg mid =>
        rw [List.cons_append, List.cons.injEq] at hmid
        obtain ⟨rfl, rfl⟩ := hmid
        obtain ⟨x, hx, hg⟩ := h pre mid l ns rfl hl
        exact ⟨x, List.mem_append_left _ hx, hg⟩

theorem followed_grantMsgs {l : Nat} {scope : BitVec 32} {cs : List (List WtntEntry)} :
    Followed (grantMsgs l (.acqgrant l scope) cs) := by
  induction cs with
  | nil => exact followed_of_none (by simp [grantMsgs, chunkMsgs])
  | cons c cs ih =>
      cases cs with
      | nil => exact followed_of_none (by simp [grantMsgs, chunkMsgs])
      | cons c' cs =>
          have hne : c' :: cs ≠ [] := List.cons_ne_nil c' cs
          intro pre post l' ns hms hl
          cases pre with
          | nil =>
              rw [grantMsgs, chunkMsgs, List.nil_append, List.cons.injEq, Msg.invld.injEq] at hms
              · obtain ⟨⟨rfl, -⟩, rfl⟩ := hms
                rw [chunkMsgs_eq hne]
                exact ⟨_, List.mem_append_right _ (List.mem_singleton_self _), by simp [Msg.isGrant]⟩
              · exact hne
          | cons msg pre =>
              rw [grantMsgs, chunkMsgs, List.cons_append, List.cons.injEq] at hms
              · exact ih pre post l' ns hms.2 hl
              · exact hne

theorem followed_grantFirst {l : Nat} (hg : h.grantFirst cfg l = .ok out) (b : Nat) :
    Followed (outboxTo out b) := by
  obtain ⟨cs, -, rfl⟩ := grantFirst_ok hg
  by_cases hb : (h.y.locks l).acqs 0 = b
  · subst hb
    rw [outboxTo_map_same]
    exact followed_grantMsgs
  · apply followed_of_none
    intro l' ns hmem
    rw [mem_outboxTo, List.mem_map] at hmem
    obtain ⟨msg, -, heq⟩ := hmem
    exact absurd (Prod.mk.inj heq).1 hb

theorem lock_of_broadcast {l : Nat} {ns : List GrantNotice}
    (h : (Msg.invld l ns).Broadcast) : l = hidelock := by
  cases h
  rfl

theorem followed_served {src : Nat} {rnd : List Nat} {msg : Msg}
    (hin : Routed cfg src pid msg) (hs : Served cfg pid h src rnd msg h' out) (b : Nat) :
    Followed (outboxTo out b) := by
  have hbcast : ∀ {r l : Nat} {m : Msg}, m.Broadcast → ∀ l' ns,
      (b, .invld l' ns) ∈ bcastserver cfg pid r l m → l' = hidelock := by
    intro r l m hm l' ns hmem
    have heq := mem_bcastserver hmem
    split at heq
    · exact lock_of_broadcast (heq ▸ hm)
    · cases heq
  have hbroad : ∀ {m : Msg}, m.Broadcast → ∀ l' ns,
      (b, .invld l' ns) ∈ broadcast cfg pid m → l' = hidelock := by
    intro m hm l' ns hmem
    unfold broadcast at hmem
    split at hmem
    · exact hbcast hm l' ns hmem
    · obtain ⟨j, -, heq⟩ := List.mem_map.mp hmem
      exact lock_of_broadcast ((Prod.mk.inj heq).2 ▸ hm)
  cases hs with
  | acqFirst hl hc hout => exact followed_grantFirst hout b
  | relNext hl hsrc hc hout => exact followed_grantFirst hout b
  | getp hm =>
      obtain ⟨wv, data, xs, rfl⟩ := getpserver_out hm
      exact followed_of_none (by simp)
  | barrLast hl hc hout =>
      obtain ⟨cs, -, rfl⟩ := grantbarr_ok hout
      apply followed_of_none
      intro l' ns hmem
      rw [mem_outboxTo, List.mem_flatMap] at hmem
      obtain ⟨msg₁, hmsg, hmem⟩ := hmem
      obtain ⟨c, -, rfl | rfl⟩ := mem_chunkMsgs hmsg
      · exact hbroad (.invld _) l' ns hmem
      · exact hbroad (.barrgrant _ _) l' ns hmem
  | waitLast hc =>
      apply followed_of_none
      intro l' ns hmem
      exact hbroad .waitgrant l' ns (mem_outboxTo.mp hmem)
  | bcast =>
      apply followed_of_none
      intro l' ns hmem
      exact hbcast hin l' ns (mem_outboxTo.mp hmem)
  | _ => exact followed_of_none (by simp)

theorem reach_followed {s : State} (hs : (system cfg).Reach s) (a b : Nat) :
    Followed (s.net a b) := by
  revert a b
  refine hs.invariant (I := fun s => ∀ a b, Followed (s.net a b)) ?_ ?_
  · intro a b
    exact followed_of_none fun l ns hmem => by cases hmem
  intro s e s' hreach hok hnext a b
  rcases step_view hnext with ⟨i, act, hst, out, -, hi, hm, -, rfl⟩ |
    ⟨src, dst, rnd, msg₀, rest, hst, out, -, hnet, hm, -, rfl⟩
  · rw [State.put_net]
    by_cases ha : a = i
    · subst ha
      rw [send_same]
      refine (hok a b).append (followed_of_none ?_)
      intro l ns hmem
      have hkind := (main_routed (reach_stackOk hreach a) hm (mem_outboxTo.mp hmem)).1
      cases hkind
    · rw [send_of_ne _ _ _ ha]
      exact hok a b
  · have hrouted : Routed cfg src dst msg₀ := by
      apply reach_routed hreach
      rw [hnet]
      exact List.mem_cons_self
    have hdrop : Followed (drop s.net src dst a b) := by
      unfold drop
      split
      · exact (hok a b).tail
      · exact hok a b
    rw [State.put_net]
    by_cases ha : a = dst
    · subst ha
      rw [send_same]
      exact hdrop.append (followed_served hrouted hm b)
    · rw [send_of_ne _ _ _ ha]
      exact hdrop

/-- Notices that invalidate copies come while the host waits for an answer. -/
theorem reach_invalidates {s : State} (hs : (system cfg).Reach s) {src dst : Nat} {msg : Msg}
    {rest : List Msg} (hnet : s.net src dst = msg :: rest) :
    (s.host dst).Waits ∨ msg.invalidates = [] := by
  have hmem : msg ∈ s.net src dst := by
    rw [hnet]
    exact List.mem_cons_self
  have hrouted := reach_routed hs hmem
  have hbarr : Barrier.down msg = true → (s.host dst).Waits :=
    fun hd => Or.inr ((reach_stackOk hs dst).barrwait (reach_down_waiting hs hnet hd).2)
  -- a grant of a lock on the way finds the host waiting
  have hgrant : ∀ {l : Nat}, l ≠ hidelock → src = l % cfg.hostc → ∀ x ∈ s.net src dst,
      x.isGrant l = true → (s.host dst).Waits := by
    intro l hl hsrc x hx hg
    obtain ⟨log, hlog⟩ := hs.exists_hist (lockHistory cfg)
    have hinv := lockView_inv hlog hl
    have hpos : 0 < (lockView cfg s log l).down dst := by
      simp only [lockView, ← hsrc, grants]
      exact List.countP_pos_iff.mpr ⟨x, hx, hg⟩
    have hwaiting := (hinv.down_waiting hpos).1
    simp only [lockView, Host.client] at hwaiting
    left
    refine ⟨l, ?_⟩
    by_contra hpc
    rw [if_neg hpc] at hwaiting
    split at hwaiting <;> cases hwaiting
  cases msg with
  | acqgrant l scope ns =>
      have hl : l ≠ hidelock := by
        have hlt := hrouted.1
        simp only [hidelock]
        omega
      exact Or.inl (hgrant hl hrouted.2 _ hmem (by simp [Msg.isGrant]))
  | invld l ns =>
      left
      by_cases hl : l = hidelock
      · exact hbarr (by simp [Barrier.down, hl])
      · obtain ⟨x, hx, hg⟩ := reach_followed hs src dst [] rest l ns hnet hl
        refine hgrant hl (hrouted.resolve_left hl).2 x ?_ hg
        rw [hnet]
        exact List.mem_cons_of_mem _ hx
  | barrgrant l scope ns =>
      obtain rfl : l = hidelock := hrouted
      exact Or.inl (hbarr (by simp [Barrier.down]))
  | _ => exact Or.inr rfl

theorem reach_expected {s : State} (hs : (system cfg).Reach s) {src dst : Nat} {msg : Msg}
    {rest : List Msg} (hnet : s.net src dst = msg :: rest) :
    Expected cfg dst src (s.host dst) msg := by
  have hmem : msg ∈ s.net src dst := by
    rw [hnet]
    exact List.mem_cons_self
  refine ⟨(reach_pages hs).net hmem, reach_routed hs hmem,
    fun hd => (reach_down_waiting hs hnet hd).2, (reach_invalidates hs hnet).imp_right ?_⟩
  intro hnil n hn
  rw [hnil] at hn
  cases hn

end Host

/-- Every host of the program goes through a run of one host. -/
theorem reach_host_run {s : State} (hs : (system cfg).Reach s) (i : Nat) :
    (hostSystem cfg i).Reach (s.host i) := by
  revert i
  refine hs.invariant (I := fun s => ∀ i, (hostSystem cfg i).Reach (s.host i)) (fun i => .start) ?_
  intro s e s' hreach hok hnext j
  rcases step_cases hnext with ⟨i, a, hst, out, -, hi, hact, -, rfl⟩ |
    ⟨src, dst, rnd, msg, rest, hst, out, -, hnet, hmsg, -, rfl⟩
  · by_cases hj : j = i
    · subst hj
      rw [State.put_host_same]
      exact (hok j).step (e := .main cfg.adWd a) ⟨trivial, out, hact⟩
    · rw [State.put_host_of_ne _ _ _ hj]
      exact hok j
  · by_cases hj : j = dst
    · subst hj
      rw [State.put_host_same]
      exact (hok j).step (e := .serve cfg.adWd src rnd msg)
        ⟨reach_expected hreach hnet, out, hmsg⟩
    · rw [State.put_host_of_ne _ _ _ hj]
      exact hok j

end Jiajia
