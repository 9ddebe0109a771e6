import Jiajia.StackNotices

/-!
# Which copies an interval names

`sigsegv_handler` tells a write from a read by the fault code: an access to an unmapped page is
a read, any other faulting access a write.  A load from an invalidated copy, which is mapped
without rights, so counts as a write.
-/

namespace Jiajia.WrittenPages

open Transition Host MemState

variable {cfg : Config} {pid : Nat}

/-! ## Written slots -/

/-- No slot is newly written. -/
def Fewer (cfg : Config) (m m' : MemState) : Prop :=
  ∀ c < cfg.cachepages, (m'.cache c).wtnt = true →
    (m.cache c).wtnt = true ∧ (m'.cache c).addr = (m.cache c).addr

section Fewer

variable {m m' m'' : MemState}

theorem Fewer.trans (h : Fewer cfg m m') (h' : Fewer cfg m' m'') : Fewer cfg m m'' := by
  intro c hc hw
  obtain ⟨hw', ha'⟩ := h' c hc hw
  obtain ⟨hw'', ha''⟩ := h c hc hw'
  exact ⟨hw'', ha'.trans ha''⟩

theorem fewer_of_cache (h : m'.cache = m.cache) : Fewer cfg m m' := by
  intro c _ hw
  rw [h] at hw ⊢
  exact ⟨hw, rfl⟩

/-- A slot that is handed out is not written. -/
theorem fewer_of_handed {s : Nat} (hother : ∀ c, c ≠ s → m'.cache c = m.cache c)
    (hclean : (m'.cache s).wtnt = false) : Fewer cfg m m' := by
  intro c _ hw
  by_cases hc : c = s
  · subst hc
    rw [hclean] at hw
    cases hw
  · rw [hother c hc] at hw ⊢
    exact ⟨hw, rfl⟩

/-- After a fault on page `p` a newly written slot is one of page `p`, which was mapped. -/
theorem cacheFault_marks (ht : m.CacheTables cfg) {p seti : Nat} {w : FaultWait} {out : Out}
    (h : m.cacheFault cfg p seti = .ok (m', w, out)) {c : Nat} (hw : (m'.cache c).wtnt = true) :
    ((m.cache c).wtnt = true ∧ (m'.cache c).addr = (m.cache c).addr) ∨
      (m.prot p ≠ .unmapped ∧ (m'.cache c).addr = cfg.pageAddr p) := by
  obtain ⟨m₁, s, hslot, rfl, -⟩ := (cacheFault_eq_ok cfg m).mp h
  by_cases hcs : c = s
  · subst hcs
    right
    rw [setCache_cache, upd_same] at hw ⊢
    refine ⟨?_, by rw [faultEntry]; split <;> rfl⟩
    intro hunmapped
    have hread : m.writefault p = false := by
      unfold writefault
      rw [hunmapped]
      rfl
    have hclean : (m₁.cache c).wtnt = false := by
      cases faultSlot_cases cfg m hslot with
      | inl hin => exact absurd hunmapped hin.2.2.1
      | inr hout =>
          obtain ⟨_, m₂, hpos, rfl, -⟩ := hout
          exact (findposition_handed ht hpos).2.1
    rw [faultEntry, hread] at hw
    change (m₁.cache c).wtnt = true at hw
    rw [hclean] at hw
    cases hw
  · left
    rw [setCache_cache, upd_of_ne _ _ hcs] at hw ⊢
    cases faultSlot_cases cfg m hslot with
    | inl hin =>
        obtain ⟨_, _, _, wait, rfl, -⟩ := hin
        exact ⟨hw, rfl⟩
    | inr hout =>
        obtain ⟨_, m₂, hpos, rfl, -⟩ := hout
        have hsame : m₂.cache c = m.cache c := (findposition_handed ht hpos).2.2 c hcs
        change (m₂.cache c).wtnt = true at hw
        change _ ∧ (m₂.cache c).addr = _
        rw [hsame] at hw ⊢
        exact ⟨hw, rfl⟩

/-- A fault on a mapped page of another host makes it written. -/
theorem cacheFault_written {p seti : Nat} {w : FaultWait} {out : Out} (hmapped : m.prot p ≠ .unmapped)
    (h : m.cacheFault cfg p seti = .ok (m', w, out)) : Written cfg m' p := by
  have hwrite : m.writefault p = true := decide_eq_true hmapped
  obtain ⟨m₁, s, hslot, rfl, -⟩ := (cacheFault_eq_ok cfg m).mp h
  have hlt : s < cfg.cachepages := by
    cases faultSlot_cases cfg m hslot with
    | inl hin => exact hin.2.1 ▸ hin.1
    | inr hout =>
        obtain ⟨_, m₂, hpos, -⟩ := hout
        exact (findposition_cases hpos).1 ▸ (findSlot_settles cfg m seti).1
  refine ⟨s, hlt, ?_⟩
  rw [setCache_cache, upd_same, faultEntry, if_pos hwrite]
  exact ⟨rfl, rfl, rfl⟩

theorem fewer_faultEnd {w : FaultWait} (h : m.faultEnd w = .ok m') : Fewer cfg m m' := by
  unfold faultEnd at h
  split at h
  · simp only [pure, Except.pure, Except.ok.injEq] at h
    subst h
    intro c _ hw
    by_cases hc : c = w.cachei
    · subst hc
      rw [setCache_cache, upd_same] at hw ⊢
      exact ⟨hw, rfl⟩
    · rw [setCache_cache, upd_of_ne _ _ hc] at hw ⊢
      exact ⟨hw, rfl⟩
  · obtain ⟨-, rfl⟩ := memprotect_eq_ok.mp h
    exact fewer_of_cache rfl

theorem fewer_installExtra (ht : m.CacheTables cfg) {x : ExtraPage} {seti : Nat}
    (h : m.installExtra cfg x seti = .ok m') : Fewer cfg m m' := by
  unfold installExtra at h
  simp only at h
  split at h
  · exact Except.ok.inj h ▸ fewer_of_cache rfl
  · split at h
    · exact Except.ok.inj h ▸ fewer_of_cache rfl
    · rename_i s m₁ hpos
      obtain ⟨-, rfl⟩ := memprotect_eq_ok.mp h
      obtain ⟨-, hclean, hother⟩ := findposition_handed ht hpos
      refine fewer_of_handed (s := s) ?_ ?_
      · intro c hc
        show upd m₁.cache s _ c = _
        rw [upd_of_ne _ _ hc]
        exact hother c hc
      · show (upd m₁.cache s _ s).wtnt = false
        rw [upd_same]
        exact hclean

theorem fewer_installExtras {xs : List ExtraPage} {rnd : List Nat} (ht : m.CacheTables cfg)
    (hxs : ∀ x ∈ xs, cfg.IsPage x.addr) (h : installExtras cfg m xs rnd = .ok m') :
    Fewer cfg m m' := by
  induction xs generalizing m rnd with
  | nil =>
      rw [installExtras, Except.ok.injEq] at h
      exact h ▸ fewer_of_cache rfl
  | cons x xs ih =>
      rw [installExtras, bind_eq_ok] at h
      obtain ⟨m₁, hone, hrest⟩ := h
      obtain ⟨hre, -⟩ := installExtra_ok ht (hxs x List.mem_cons_self) hone
      exact (fewer_installExtra ht hone).trans
        (ih hre.cache (fun y hy => hxs y (List.mem_cons_of_mem _ hy)) hrest)

theorem fewer_getpgrantserver {addr : Addr} {wv : BitVec Wvbits} {data : Page}
    {xs : List ExtraPage} {rnd : List Nat} (ht : m.CacheTables cfg)
    (hxs : ∀ x ∈ xs, cfg.IsPage x.addr)
    (h : m.getpgrantserver cfg addr wv data xs rnd = .ok m') : Fewer cfg m m' := by
  simp only [getpgrantserver, bind_eq_ok, pure, Except.pure, Except.ok.injEq] at h
  obtain ⟨-, -, m₁, hinst, rfl⟩ := h
  have hfewer : Fewer cfg (m.setMem (cfg.pagei addr) _) m₁ :=
    fewer_installExtras ⟨ht.slot, ht.dirty⟩ hxs hinst
  exact hfewer

theorem fewer_invalidateCopy {n : GrantNotice} (h : invalidateCopy cfg pid m n = .ok m') :
    Fewer cfg m m' := by
  unfold invalidateCopy at h
  simp only at h
  split at h
  · obtain ⟨-, rfl⟩ := memprotect_eq_ok.mp h
    refine fewer_of_handed (s := m.cachepage cfg n.addr) ?_ ?_
    · intro c hc
      exact upd_of_ne _ _ hc
    · show (upd m.cache (m.cachepage cfg n.addr) _ (m.cachepage cfg n.addr)).wtnt = false
      rw [upd_same]
  · exact Except.ok.inj h ▸ fewer_of_cache rfl

theorem fewer_invalidate_lock {lock : Nat} {ns : List GrantNotice} (hlock : lock ≠ hidelock)
    (h : invalidate cfg pid lock m ns = .ok m') : Fewer cfg m m' := by
  induction ns generalizing m with
  | nil =>
      rw [invalidate, Except.ok.injEq] at h
      exact h ▸ fewer_of_cache rfl
  | cons n ns ih =>
      simp only [invalidate, invalidateNotice, bind_eq_ok] at h
      obtain ⟨m₃, ⟨m₁, hcopy, m₂, hmig, hmark⟩, hrest⟩ := h
      rw [migrateNotice, if_neg fun hcon => hlock hcon.2.1, Except.ok.injEq] at hmig
      rw [markRemote, if_neg fun hcon => hlock hcon.2.1, Except.ok.injEq] at hmark
      subst hmig hmark
      exact (fewer_invalidateCopy hcopy).trans (ih hrest)

end Fewer

/-! ## The accesses of an interval -/

/-- Since the interval began: the pages the application has stored to, a store that faults
included, and the pages of other hosts it has loaded from with a fault although they were
mapped. -/
structure Touched where
  stored : List Nat
  misread : List Nat
deriving DecidableEq

def touches (pid : Nat) (d : Touched) (h : Host) : HostEvent → Touched
  | .main _ (.store p _ _) | .main _ (.fault p true _) => { d with stored := p :: d.stored }
  | .main _ (.fault p false _) =>
      if (h.m.page p).homepid ≠ pid ∧ h.m.prot p ≠ .unmapped then
        { d with misread := p :: d.misread }
      else d
  | .main _ a => if (Act.starts a).isSome then ⟨[], []⟩ else d
  | .serve _ _ _ _ => d

def touchHistory (pid : Nat) : System.Observer Host HostEvent Touched where
  start := ⟨[], []⟩
  obs d h e _ := touches pid d h e

/-- `endinterval`, which takes the host from `h` to `h'`, puts a copy into the notices only if
the application has stored to its page. -/
structure NamesStored (cfg : Config) (h h' : Host) (d : Touched) : Prop where
  /-- `savepage` is called for pages that were stored to. -/
  saved : ∀ c < cfg.cachepages, (h.m.cache c).wtnt = true →
    ∃ p ∈ d.stored, (h.m.cache c).addr = cfg.pageAddr p
  /-- The top of the stack gets no other name. -/
  named : ∀ p < cfg.npages, h'.y.top.wtntp.Names cfg p →
    h.y.top.wtntp.Names cfg p ∨ p ∈ d.stored

/-! ## The invariant -/

structure TouchedOk (cfg : Config) (pid : Nat) (x : Host × Touched) : Prop where
  run : RunOk cfg pid x.1
  rw : Running x.1 → WrittenRw cfg x.1.m
  /-- A written slot is one of a page that was stored to or misread. -/
  marked : Running x.1 → ∀ c < cfg.cachepages, (x.1.m.cache c).wtnt = true →
    ∃ p, (p ∈ x.2.stored ∨ p ∈ x.2.misread) ∧ (x.1.m.cache c).addr = cfg.pageAddr p
  stored : ∀ p ∈ x.2.stored, p < cfg.npages
  misread : Running x.1 → ∀ p ∈ x.2.misread, p < cfg.npages ∧ Written cfg x.1.m p
  idle : ¬ Running x.1 → x.2.misread = []

section Step

variable {h h' : Host} {out : Out} {d : Touched}

/-- A step of the main thread that is no access and stays inside the interval. -/
theorem main_fewer {a : Act} (hm : Main cfg pid h a h' out) (hrun : Running h)
    (ha : ∀ p w seti, a ≠ .fault p w seti) : Fewer cfg h.m h'.m := by
  cases hm with
  | homeFault => exact absurd rfl (ha _ _ _)
  | cacheFault => exact absurd rfl (ha _ _ _)
  | store => exact fewer_of_cache rfl
  | faultEnd hpc hwait hm => exact fewer_faultEnd hm
  | start hpc hhost ha hop hm =>
      obtain ⟨y, dm, -, -, rfl⟩ := endinterval_ok hm
      exact fewer_of_cache rfl
  | scan hpc => exact absurd hrun (not_running hpc rfl)
  | acquired hpc => exact absurd hrun (not_running hpc rfl)
  | release hpc => exact absurd hrun (not_running hpc rfl)
  | arrive hpc => exact absurd hrun (not_running hpc rfl)
  | leave hpc =>
      rcases hpc with ⟨hpc, -⟩ | ⟨hpc, -⟩
      · exact absurd hrun (not_running hpc rfl)
      · exact absurd hrun (not_running hpc rfl)
  | _ => exact fewer_of_cache rfl

theorem served_fewer {src : Nat} {rnd : List Nat} {msg : Msg} (hok : RunOk cfg pid h)
    (hexp : Expected cfg pid src h msg) (hrun : Running h)
    (hs : Served cfg pid h src rnd msg h' out) : Fewer cfg h.m h'.m := by
  have ht := hok.pages.tables
  have hdown : Barrier.down msg = false := by
    by_contra hup
    rw [Bool.not_eq_false] at hup
    exact hrun.not_waits (.inr (hok.stack.barrwait (hexp.barrier hup)))
  have hp := hexp.pages
  have hrouted := hexp.routed
  cases hs with
  | diff hm => exact fewer_of_cache (funext (still_applyDiffs hm).cache.cache)
  | getp hm => exact fewer_of_cache (funext (getpserver_ok hm).flagged.cache.cache)
  | getpgrant hm => exact fewer_getpgrantserver ht.cache hp.2 hm
  | @acqgrant l scope ns m hm =>
      have hne : l ≠ hidelock := by
        have hlt := hrouted.1
        simp only [hidelock]
        omega
      exact fewer_invalidate_lock hne hm
  | @invld l ns m hm =>
      have hne : l ≠ hidelock := by simpa [Barrier.down] using hdown
      exact fewer_invalidate_lock hne hm
  | @barrgrant l scope ns _ hm =>
      obtain rfl : l = hidelock := hrouted
      simp [Barrier.down] at hdown
  | _ => exact fewer_of_cache rfl

theorem fault_marked {p seti : Nat} {write b : Bool} (ht : h.m.Tables cfg pid)
    (hm : Main cfg pid h (.fault p write seti) h' out)
    (hold : ∀ c < cfg.cachepages, (h.m.cache c).wtnt = true →
      ∃ q, (q ∈ d.stored ∨ q ∈ d.misread) ∧ (h.m.cache c).addr = cfg.pageAddr q)
    {c : Nat} (hc : c < cfg.cachepages) (hw : (h'.m.cache c).wtnt = true) :
    ∃ q, (q ∈ (touches pid d h (.main b (.fault p write seti))).stored ∨
        q ∈ (touches pid d h (.main b (.fault p write seti))).misread) ∧
      (h'.m.cache c).addr = cfg.pageAddr q := by
  have hgrow : ∀ q, q ∈ d.stored ∨ q ∈ d.misread →
      q ∈ (touches pid d h (.main b (.fault p write seti))).stored ∨
        q ∈ (touches pid d h (.main b (.fault p write seti))).misread := by
    intro q hq
    cases write with
    | true => exact hq.imp_left (List.mem_cons_of_mem p)
    | false =>
        rw [touches]
        split
        · exact hq.imp_right (List.mem_cons_of_mem p)
        · exact hq
  have hkept : (h.m.cache c).wtnt = true ∧ (h'.m.cache c).addr = (h.m.cache c).addr →
      ∃ q, (q ∈ (touches pid d h (.main b (.fault p write seti))).stored ∨
          q ∈ (touches pid d h (.main b (.fault p write seti))).misread) ∧
        (h'.m.cache c).addr = cfg.pageAddr q := by
    intro hsame
    obtain ⟨q, hq, ha⟩ := hold c hc hsame.1
    exact ⟨q, hgrow q hq, hsame.2.trans ha⟩
  cases hm with
  | homeFault hpc hp hfault hhome hm =>
      have hcache := (still_homeFault hm).cache.cache c
      apply hkept
      rw [hcache] at hw ⊢
      exact ⟨hw, rfl⟩
  | cacheFault hpc hp hfault hhome hm =>
      cases cacheFault_marks ht.cache hm hw with
      | inl hsame => exact hkept hsame
      | inr hnew =>
          refine ⟨p, ?_, hnew.2⟩
          cases write with
          | true => exact .inl List.mem_cons_self
          | false =>
              rw [touches, if_pos ⟨hhome, hnew.1⟩]
              exact .inr List.mem_cons_self
  | single _ _ ha =>
      cases ha with
      | inl ha => cases ha
      | inr ha => cases ha
  | start _ _ ha => cases ha

theorem fault_misread {p seti : Nat} {write b : Bool} (hkeep : Keeps cfg pid h.m h'.m)
    (hm : Main cfg pid h (.fault p write seti) h' out)
    (hold : ∀ q ∈ d.misread, q < cfg.npages ∧ Written cfg h.m q) :
    ∀ q ∈ (touches pid d h (.main b (.fault p write seti))).misread,
      q < cfg.npages ∧ Written cfg h'.m q := by
  intro q hq
  have hkept : q ∈ d.misread → q < cfg.npages ∧ Written cfg h'.m q := by
    intro hmem
    obtain ⟨hlt, hw⟩ := hold q hmem
    exact ⟨hlt, hkeep.written q hlt hw⟩
  cases write with
  | true => exact hkept hq
  | false =>
      rw [touches] at hq
      split at hq
      · rename_i hmis
        cases List.mem_cons.mp hq with
        | inr hmem => exact hkept hmem
        | inl heq =>
            subst heq
            cases hm with
            | homeFault hpc hp hfault hhome => exact absurd hhome hmis.1
            | cacheFault hpc hp hfault hhome hm => exact ⟨hp, cacheFault_written hmis.2 hm⟩
            | single _ _ ha =>
                cases ha with
                | inl ha => cases ha
                | inr ha => cases ha
            | start _ _ ha => cases ha
      · exact hkept hq

theorem TouchedOk.quiet {d' : Touched} (hx : TouchedOk cfg pid (h, d))
    (hrun : RunOk cfg pid h') (hrw : Running h' → WrittenRw cfg h'.m)
    (hstored : ∀ p ∈ d'.stored, p < cfg.npages) (hgrow : ∀ p ∈ d.stored, p ∈ d'.stored)
    (hmisread : d'.misread = d.misread)
    (hin : Running h → Running h' → Fewer cfg h.m h'.m ∧ Keeps cfg pid h.m h'.m)
    (hresumes : ¬ Running h → Running h' → ∀ c < cfg.cachepages, (h'.m.cache c).wtnt = false)
    (hstay : Running h → Running h') : TouchedOk cfg pid (h', d') where
  run := hrun
  rw := hrw
  marked hrun' c hc hw := by
    by_cases hr : Running h
    · obtain ⟨hw', ha⟩ := (hin hr hrun').1 c hc hw
      obtain ⟨p, hp, hpage⟩ := hx.marked hr c hc hw'
      have hp' : p ∈ d'.stored ∨ p ∈ d'.misread := by
        rw [hmisread]
        exact hp.imp_left (hgrow p)
      exact ⟨p, hp', ha.trans hpage⟩
    · have hclean := hresumes hr hrun' c hc
      change (h'.m.cache c).wtnt = true at hw
      rw [hclean] at hw
      cases hw
  stored := hstored
  misread hrun' p hp := by
    change p ∈ d'.misread at hp
    rw [hmisread] at hp
    by_cases hr : Running h
    · obtain ⟨hlt, hw⟩ := hx.misread hr p hp
      exact ⟨hlt, (hin hr hrun').2.written p hlt hw⟩
    · have hnil : d.misread = [] := hx.idle hr
      rw [hnil] at hp
      cases hp
  idle hno := by
    show d'.misread = []
    rw [hmisread]
    exact hx.idle fun hr => hno (hstay hr)

theorem TouchedOk.main {a : Act} {b : Bool} (hhost : cfg.hostc ≠ 1)
    (hx : TouchedOk cfg pid (h, d)) (hrun : RunOk cfg pid h')
    (hrw : Running h' → WrittenRw cfg h'.m) (hm : Main cfg pid h a h' out) :
    TouchedOk cfg pid (h', touches pid d h (.main b a)) := by
  have hkeep : Running h → Running h' → Keeps cfg pid h.m h'.m :=
    fun hr hr' => main_keeps hx.run.pages.tables hm hr hr'
  have hplain : Act.starts a = none → (∀ p w seti, a ≠ .fault p w seti) →
      touches pid d h (.main b a) = d → TouchedOk cfg pid (h', touches pid d h (.main b a)) := by
    intro hstarts hnofault hsame
    rw [hsame]
    exact hx.quiet hrun hrw hx.stored (fun _ hp => hp) rfl
      (fun hr hr' => ⟨main_fewer hm hr hnofault, hkeep hr hr'⟩) (main_resumes hm)
      (main_stays hm hstarts)
  -- the end of an interval
  have hend : ∀ op, Act.starts a = some op → touches pid d h (.main b a) = ⟨[], []⟩ →
      TouchedOk cfg pid (h', touches pid d h (.main b a)) := by
    intro op hop hnew
    rw [hnew]
    have hno : ¬ Running h' := by
      have hpc : h'.pc = .scan op 0 h.m.hpages := by
        cases hm with
        | single _ hone => exact absurd hone hhost
        | start _ _ hop' _ hm =>
            rw [hop, Option.some.injEq] at hop'
            obtain ⟨y, dm, -, -, rfl⟩ := endinterval_ok hm
            rw [hop']
        | _ => cases hop
      exact not_running hpc rfl
    exact ⟨hrun, hrw, fun hr => absurd hr hno, nofun, fun hr => absurd hr hno, fun _ => rfl⟩
  cases a with
  | load p u => exact hplain rfl nofun rfl
  | wait => exact hplain rfl nofun rfl
  | go => exact hplain rfl nofun rfl
  | lock l => exact hend _ rfl rfl
  | unlock l => exact hend _ rfl rfl
  | barrier => exact hend _ rfl rfl
  | store p u v =>
      have hp : p < cfg.npages := by
        cases hm with
        | store hpc hp hprot => exact hp
        | single _ hone => exact absurd hone hhost
        | start _ _ hop => cases hop
      refine hx.quiet hrun hrw ?_ (fun _ hq => List.mem_cons_of_mem p hq) rfl
        (fun hr hr' => ⟨main_fewer hm hr nofun, hkeep hr hr'⟩) (main_resumes hm)
        (main_stays hm rfl)
      intro q hq
      cases List.mem_cons.mp hq with
      | inl heq => exact heq ▸ hp
      | inr hold => exact hx.stored q hold
  | fault p write seti =>
      have hstays := main_stays hm rfl
      have hfault : Running h ∧ p < cfg.npages := by
        cases hm with
        | homeFault hpc hp => exact ⟨.inl hpc, hp⟩
        | cacheFault hpc hp => exact ⟨.inl hpc, hp⟩
        | single _ hone => exact absurd hone hhost
        | start _ _ hop => cases hop
      obtain ⟨hr, hp⟩ := hfault
      refine ⟨hrun, hrw, fun _ c hc hw => ?_, ?_, fun hr' => ?_, fun hno => absurd (hstays hr) hno⟩
      · exact fault_marked hx.run.pages.tables hm (hx.marked hr) hc hw
      · show ∀ q ∈ (touches pid d h (.main b (.fault p write seti))).stored, q < cfg.npages
        cases write with
        | true =>
            intro q hq
            cases List.mem_cons.mp hq with
            | inl heq => exact heq ▸ hp
            | inr hold => exact hx.stored q hold
        | false =>
            rw [touches]
            split
            · exact hx.stored
            · exact hx.stored
      · exact fault_misread (hkeep hr hr') hm (hx.misread hr)

theorem TouchedOk.step {e : HostEvent} (hhost : cfg.hostc ≠ 1) (hx : TouchedOk cfg pid (h, d))
    (hcomes : Comes cfg pid h e) (hs : hostStep cfg pid h e = .ok (h', out)) :
    TouchedOk cfg pid (h', touches pid d h e) := by
  have hrun := hx.run.step hcomes hs
  have hrw := step_writtenRw hx.run hcomes hs hx.rw
  rcases hostStep_view hs with ⟨b, a, rfl, hm⟩ | ⟨b, src, rnd, msg, rfl, hm⟩
  · have hx' : TouchedOk (cfg.withAdWd b) pid (h, d) :=
      ⟨runOk_withAdWd.mpr hx.run, hx.rw, hx.marked, hx.stored, hx.misread, hx.idle⟩
    have hnew := @TouchedOk.main (cfg.withAdWd b) pid h h' out d a b hhost hx'
      (runOk_withAdWd.mpr hrun) hrw hm
    exact ⟨hrun, hrw, hnew.marked, hnew.stored, hnew.misread, hnew.idle⟩
  · have hpc := (served_stack hm).1
    have hsame : Running h' ↔ Running h := by
      unfold Running
      rw [hpc]
    refine hx.quiet hrun hrw hx.stored (fun _ hp => hp) rfl (fun hr hr' => ⟨?_, ?_⟩) ?_ hsame.mpr
    · exact @served_fewer (cfg.withAdWd b) pid h h' out src rnd msg
        (runOk_withAdWd.mpr hx.run) (Expected.withAdWd hcomes b) hr hm
    · exact step_keeps hx.run hcomes hs hr hr'
    · exact fun hno hr' => absurd (hsame.mp hr') hno

end Step

theorem reach_touched (hhost : cfg.hostc ≠ 1) {x : Host × Touched}
    (hx : ((hostSystem cfg pid).withHist (touchHistory pid)).Reach x) : TouchedOk cfg pid x := by
  apply hx.invariant
  · refine ⟨runOk_init hhost, ?_, ?_, nofun, fun _ => nofun, fun _ => rfl⟩
    · intro _ c _ hw
      cases hw
    · intro _ c _ hw
      cases hw
  · intro x e x' _ hi hnext
    obtain ⟨⟨hcomes, out, hs⟩, hd⟩ := hnext
    have hnew := hi.step hhost hcomes hs
    rwa [show x' = (x'.1, touches pid x.2 x.1 e) from Prod.ext rfl hd]

/-! ## The end of an interval -/

/-- Step 1 of `endinterval` names no other page than those it saves. -/
theorem savepages_only {m : MemState} {y y' : SynState} {dm dm' : Nat → List PageDiff}
    {cs : List Nat} (h : savepages cfg pid m y dm cs = .ok (y', dm')) {p : Nat}
    (hp : y'.top.wtntp.Names cfg p) :
    y.top.wtntp.Names cfg p ∨
      ∃ c ∈ cs, (m.cache c).wtnt = true ∧ pageNum (cfg.pageAddr p) = pageNum (m.cache c).addr := by
  induction cs generalizing y dm with
  | nil =>
      rw [savepages, Except.ok.injEq, Prod.mk.injEq] at h
      exact .inl (h.1 ▸ hp)
  | cons c cs ih =>
      rw [savepages] at h
      split at h
      · rename_i hw
        rw [bind_eq_ok] at h
        obtain ⟨dm₁, -, h⟩ := h
        cases ih h with
        | inl hnamed =>
            cases SynState.names_saveTop.mp hnamed with
            | inl hnew => exact .inr ⟨c, List.mem_cons_self, hw, hnew⟩
            | inr hold => exact .inl hold
        | inr hlater =>
            obtain ⟨c', hc', hlater⟩ := hlater
            exact .inr ⟨c', List.mem_cons_of_mem c hc', hlater⟩
      · cases ih h with
        | inl hold => exact .inl hold
        | inr hlater =>
            obtain ⟨c', hc', hlater⟩ := hlater
            exact .inr ⟨c', List.mem_cons_of_mem c hc', hlater⟩

/-- An interval names stored pages only, exactly if the application stores, in the same
interval, to every page of another host it loads from with a fault while the page is mapped. -/
theorem notices_name_stores_iff (hhost : 2 ≤ cfg.hostc) {x : Host × Touched}
    (hx : ((hostSystem cfg pid).withHist (touchHistory pid)).Reach x) {a : Act} {op : SynOp}
    (ha : Act.starts a = some op) {b : Bool} {h' : Host} {out : Out}
    (hs : hostStep cfg pid x.1 (.main b a) = .ok (h', out)) :
    NamesStored cfg x.1 h' x.2 ↔ ∀ p ∈ x.2.misread, p ∈ x.2.stored := by
  have hok := reach_touched (by omega) hx
  have hstart : x.1.pc = .app ∧
      ∃ y dm, savepages (cfg.withAdWd b) pid x.1.m x.1.y (fun _ => [])
        (List.range cfg.cachepages) = .ok (y, dm) ∧ h'.y = y := by
    cases act_main hs with
    | single _ hone =>
        have hone' : cfg.hostc = 1 := hone
        omega
    | start hpc _ _ _ hm =>
        obtain ⟨y, dm, hsave, -, rfl⟩ := endinterval_ok hm
        exact ⟨hpc, y, dm, hsave, rfl⟩
    | _ => cases ha
  obtain ⟨hpc, y, dm, hsave, rfl⟩ := hstart
  have hrun : Running x.1 := .inl hpc
  constructor
  · intro hnames p hp
    obtain ⟨hlt, c, hc, hw, -, haddr⟩ := hok.misread hrun p hp
    obtain ⟨q, hq, haddr'⟩ := hnames.saved c hc hw
    have hpq : p = q := cfg.pageAddr_inj hlt (hok.stored q hq) (haddr.symm.trans haddr')
    exact hpq ▸ hq
  · intro hmisread
    have hsaved : ∀ c < cfg.cachepages, (x.1.m.cache c).wtnt = true →
        ∃ p ∈ x.2.stored, (x.1.m.cache c).addr = cfg.pageAddr p := by
      intro c hc hw
      obtain ⟨p, hp, haddr⟩ := hok.marked hrun c hc hw
      exact ⟨p, hp.elim id (hmisread p), haddr⟩
    refine ⟨hsaved, fun p hp hnamed => ?_⟩
    cases savepages_only hsave hnamed with
    | inl hold => exact .inl hold
    | inr hnew =>
        obtain ⟨c, hc, hw, hnum⟩ := hnew
        obtain ⟨q, hq, haddr⟩ := hsaved c (List.mem_range.mp hc) hw
        rw [haddr] at hnum
        exact .inr (cfg.pageNum_pageAddr_inj hp (hok.stored q hq) hnum ▸ hq)

/-! ## A load after an invalidation -/

namespace Misread

/-- Host 0 reads page 0. -/
def read : List HostEvent :=
  [.main false (.fault 0 false 0),
    .serve false 1 [] (.getpgrant (Config.fivePages.pageAddr 0) WVFULL zeroPage []),
    .main false .go]

/-- Host 0 reads page 0, loses its copy when it locks 2, and reads the page again. -/
def run : List HostEvent :=
  read ++ [.main false (.lock 2), .main false .go, .main false .go,
    .serve false 0 [] (.acqgrant 2 1 [⟨Config.fivePages.pageAddr 0, 1, 0⟩]), .main false .go] ++ read

/-- Messages of the run that are expected. -/
def Timely (h : Host) : HostEvent → Prop
  | .main _ _ => True
  | .serve _ _ _ (.getpgrant a _ _ xs) =>
      (∃ p < Config.fivePages.npages, a = Config.fivePages.pageAddr p) ∧ xs.isEmpty = true
  | .serve _ src _ (.acqgrant l _ ns) =>
      l < Maxlocks ∧ src = l % 2 ∧ h.pc = .acqwait l ∧
        (∀ n ∈ ns, ∃ p < Config.fivePages.npages, n.addr = Config.fivePages.pageAddr p) ∧
        (ns.map GrantNotice.addr).Nodup
  | _ => False

/-- The same as a test. -/
def timely (h : Host) : HostEvent → Bool
  | .main _ _ => true
  | .serve _ _ _ (.getpgrant a _ _ xs) =>
      decide (∃ p < Config.fivePages.npages, a = Config.fivePages.pageAddr p) && xs.isEmpty
  | .serve _ src _ (.acqgrant l _ ns) =>
      decide (l < Maxlocks ∧ src = l % 2 ∧ h.pc = .acqwait l) &&
        decide (∀ n ∈ ns, ∃ p < Config.fivePages.npages, n.addr = Config.fivePages.pageAddr p) &&
          decide (ns.map GrantNotice.addr).Nodup
  | _ => false

theorem timely_iff (h : Host) (e : HostEvent) : timely h e = true ↔ Timely h e := by
  unfold timely Timely
  split <;> simp [and_assoc]

instance (h : Host) : DecidablePred (Timely h) := fun e => decidable_of_iff _ (timely_iff h e)

theorem comes_of_timely {h : Host} {e : HostEvent} (he : Timely h e) : Comes .fivePages 0 h e := by
  cases e with
  | main b a => trivial
  | serve b src rnd msg =>
      cases msg with
      | acqgrant l scope ns =>
          obtain ⟨hlt, hsrc, hpc, hpages, hnodup⟩ := he
          exact ⟨⟨hpages, hnodup⟩, ⟨hlt, hsrc⟩, by simp [Barrier.down], .inl (.inl ⟨l, hpc⟩)⟩
      | getpgrant a wv data xs =>
          obtain ⟨hpage, hxs⟩ := he
          rw [List.isEmpty_iff] at hxs
          subst hxs
          exact ⟨⟨hpage, by simp⟩, trivial, by simp [Barrier.down],
            .inr (by simp [Msg.invalidates, Msg.grantNotices])⟩
      | _ => cases he

/-- One step of the run. -/
def turn (x : Host × Touched) (e : HostEvent) : Result (Host × Touched) := do
  await (Timely x.1 e)
  let (h, _) ← hostStep .fivePages 0 x.1 e
  return (h, touches 0 x.2 x.1 e)

theorem turn_next (x : Host × Touched) (e : HostEvent) (x' : Host × Touched)
    (h : turn x e = .ok x') :
    ((hostSystem .fivePages 0).withHist (touchHistory 0)).next x e x' := by
  simp only [turn, bind_eq_ok, await_eq_ok, Prod.exists, pure, Except.pure, Except.ok.injEq] at h
  obtain ⟨-, he, h', out, hs, rfl⟩ := h
  exact ⟨⟨comes_of_timely he, out, hs⟩, rfl⟩

/-- The history is `d`, and the lock can be released. -/
def Releases (d : Touched) (x : Host × Touched) : Bool :=
  x.2 == d && (hostStep .fivePages 0 x.1 (.main false (.unlock 2))).isOk

theorem exists_release {d : Touched} {x : Host × Touched} (h : Releases d x = true) :
    x.2 = d ∧ ∃ h' out, hostStep .fivePages 0 x.1 (.main false (.unlock 2)) = .ok (h', out) := by
  rw [Releases, Bool.and_eq_true, beq_iff_eq] at h
  cases hs : hostStep .fivePages 0 x.1 (.main false (.unlock 2)) with
  | ok y => exact ⟨h.1, y.1, y.2, rfl⟩
  | error e =>
      rw [hs] at h
      cases h.2

end Misread

open Misread in
/-- The second load of page 0 puts it into the notices. -/
theorem load_named : ¬ ∀ (cfg : Config) (pid : Nat), 2 ≤ cfg.hostc → ∀ x : Host × Touched,
    ((hostSystem cfg pid).withHist (touchHistory pid)).Reach x → ∀ a op, Act.starts a = some op →
      ∀ b h' out, hostStep cfg pid x.1 (.main b a) = .ok (h', out) → NamesStored cfg x.1 h' x.2 := by
  intro hall
  obtain ⟨x, hx, hend⟩ := System.exists_execBy turn_next run (Releases ⟨[], [0]⟩)
    (by decide +kernel)
  obtain ⟨hd, h', out, hs⟩ := exists_release hend
  have hnames := hall .fivePages 0 (by decide) x hx (.unlock 2) _ rfl false h' out hs
  have hok := reach_touched (by decide) hx
  have hm : Main (Config.fivePages.withAdWd false) 0 x.1 (.unlock 2) h' out := act_main hs
  have hrun : Running x.1 := by
    cases hm with
    | single hpc => exact .inl hpc
    | start hpc => exact .inl hpc
  obtain ⟨-, c, hc, hw, -⟩ := hok.misread hrun 0 (by rw [hd]; exact List.mem_cons_self)
  obtain ⟨p, hp, -⟩ := hnames.saved c hc hw
  rw [hd] at hp
  cases hp

open Misread in
/-- The page is stored to as well. -/
theorem notices_name_stores_iff_both : ∃ (x : Host × Touched) (h' : Host) (out : Out),
    hostStep .fivePages 0 x.1 (.main false (.unlock 2)) = .ok (h', out) ∧ x.2 = ⟨[0], [0]⟩ ∧
      NamesStored .fivePages x.1 h' x.2 := by
  obtain ⟨x, hx, hend⟩ := System.exists_execBy turn_next
    (run ++ [.main false (.store 0 Config.unit0 7)]) (Releases ⟨[0], [0]⟩) (by decide +kernel)
  obtain ⟨hd, h', out, hs⟩ := exists_release hend
  refine ⟨x, h', out, hs, hd, (notices_name_stores_iff (by decide) hx rfl hs).mpr ?_⟩
  rw [hd]
  exact fun p hp => hp

end Jiajia.WrittenPages
