import Jiajia.HomePages
import Jiajia.Writers
import Jiajia.Merge
import Jiajia.Locks
import Jiajia.Grants

/-!
# Every message can be handled

The asserts of the servers, and the tables and pages they touch.  The message that comes
next on a channel is handled, unless a lock is granted whose notices do not fit.
-/

namespace Jiajia

open Fifo Transition Host MemState

variable {cfg : Config} {pid : Nat}

/-! ## Notices -/

section Notices

variable {m : MemState}

theorem invalidateCopy_total (hi : CacheInverse cfg pid m)
    (hmapped : ∀ q < cfg.npages, (m.page q).cachei < cfg.cachepages → m.prot q ≠ .unmapped)
    {n : GrantNotice} (hn : cfg.IsPage n.addr) :
    ∃ m', invalidateCopy cfg pid m n = .ok m' ∧ m'.page = m.page ∧ m'.home = m.home ∧
      ∀ q, m.prot q ≠ .unmapped → m'.prot q ≠ .unmapped := by
  obtain ⟨q, hq, ha⟩ := hn
  unfold invalidateCopy
  simp only [cachepage, homehost, ha, cfg.pagei_pageAddr hq]
  split
  · rename_i hcond
    obtain ⟨-, -, hc, -⟩ := hcond
    have haddr := ((hi.slot q hq _ hc).mp rfl).2
    simp only [haddr, cfg.pagei_pageAddr hq]
    refine ⟨_, memprotect_eq_ok.mpr ⟨hmapped q hq hc, rfl⟩, rfl, rfl, ?_⟩
    intro r hr
    rw [setProt_prot, upd_apply]
    split
    · simp
    · exact hr
  · exact ⟨m, rfl, rfl, rfl, fun _ hr => hr⟩

theorem markRemote_total (ht : m.HomeTables cfg pid) {n : GrantNotice}
    (hn : cfg.IsPage n.addr) (lock : Nat) :
    ∃ m', markRemote cfg pid lock (m.homehost cfg n.addr) m n = .ok m' ∧ m'.page = m.page ∧
      (∀ i, (m'.home i).addr = (m.home i).addr) ∧ m'.prot = m.prot := by
  obtain ⟨q, hq, ha⟩ := hn
  unfold markRemote
  split
  · rename_i hcond
    have hhome := hcond.2.2.1
    rw [homehost, ha, cfg.pagei_pageAddr hq] at hhome
    have hlt : m.homepage cfg n.addr < Homepages := by
      rw [homepage, ha, cfg.pagei_pageAddr hq]
      exact (ht.home q hq hhome).1
    refine ⟨m.setHome (m.homepage cfg n.addr) { m.home (m.homepage cfg n.addr) with
      wtnt := (m.home (m.homepage cfg n.addr)).wtnt ||| 4 }, ?_, rfl, ?_, rfl⟩
    · rw [bind_eq_ok]
      exact ⟨(), defined_eq_ok.mpr hlt, rfl⟩
    · intro i
      rw [setHome_home, upd_apply]
      split
      · rename_i heq
        rw [heq]
      · rfl
  · exact ⟨m, rfl, rfl, fun _ => rfl, rfl⟩

theorem invalidateNotice_total (hoff : cfg.hMig = false) (ht : m.HomeTables cfg pid)
    (hi : CacheInverse cfg pid m)
    (hmapped : ∀ q < cfg.npages, (m.page q).cachei < cfg.cachepages → m.prot q ≠ .unmapped)
    {n : GrantNotice} (hn : cfg.IsPage n.addr) (lock : Nat) :
    ∃ m', invalidateNotice cfg pid lock m n = .ok m' ∧ m'.page = m.page ∧
      (∀ i, (m'.home i).addr = (m.home i).addr) ∧
      ∀ q, m.prot q ≠ .unmapped → m'.prot q ≠ .unmapped := by
  obtain ⟨m₁, hcopy, hpage₁, hhome₁, hprot₁⟩ := invalidateCopy_total hi hmapped hn
  have ht₁ : m₁.HomeTables cfg pid :=
    ht.congr (fun p => by rw [hpage₁]) (fun p => by rw [hpage₁]) (fun i => by rw [hhome₁])
  have hmig : migrateNotice cfg pid lock m₁ n = .ok m₁ := by
    rw [migrateNotice, if_neg (by simp [hoff])]
  obtain ⟨m₂, hmark, hpage₂, haddr₂, hprot₂⟩ := markRemote_total ht₁ hn lock
  have hown : m₁.homehost cfg n.addr = m.homehost cfg n.addr := by
    rw [homehost, homehost, hpage₁]
  rw [hown] at hmark
  refine ⟨m₂, ?_, hpage₂.trans hpage₁, ?_, ?_⟩
  · simp only [invalidateNotice, bind_eq_ok]
    exact ⟨m₁, hcopy, m₁, hmig, hmark⟩
  · intro i
    rw [haddr₂, hhome₁]
  · intro r hr
    rw [hprot₂]
    exact hprot₁ r hr

theorem invalidate_total (hoff : cfg.hMig = false) (ht : m.HomeTables cfg pid)
    (hi : CacheInverse cfg pid m)
    (hmapped : ∀ q < cfg.npages, (m.page q).cachei < cfg.cachepages → m.prot q ≠ .unmapped)
    {ns : List GrantNotice} (hns : ∀ n ∈ ns, cfg.IsPage n.addr) (lock : Nat) :
    ∃ m', invalidate cfg pid lock m ns = .ok m' := by
  induction ns generalizing m with
  | nil => exact ⟨m, rfl⟩
  | cons n ns ih =>
      have hn := hns n List.mem_cons_self
      obtain ⟨m₁, hone, hpage, haddr, hprot⟩ := invalidateNotice_total hoff ht hi hmapped hn lock
      obtain ⟨m', hrest⟩ := ih (m := m₁)
        (ht.congr (fun _ => by rw [hpage]) (fun _ => by rw [hpage]) haddr)
        (hi.invalidateNotice hn hone) (by
          intro q hq hc
          rw [hpage] at hc
          exact hprot q (hmapped q hq hc))
        fun x hx => hns x (List.mem_cons_of_mem _ hx)
      refine ⟨m', ?_⟩
      simp only [invalidate, bind_eq_ok]
      exact ⟨m₁, hone, hrest⟩

theorem RemoteOk.mapped {h : Host} (hrem : RemoteOk cfg pid h) (hi : CacheInverse cfg pid h.m)
    {q : Nat} (hq : q < cfg.npages) (hc : (h.m.page q).cachei < cfg.cachepages) :
    h.m.prot q ≠ .unmapped := by
  have haway : (h.m.page q).homepid ≠ pid := by
    intro hhome
    have hslot := hi.home q hq hhome
    omega
  obtain ⟨c, hat⟩ := hrem.page q hq haway
  cases hat with
  | absent hc' => omega
  | invalid _ _ _ hprot => rw [hprot]; simp
  | clean _ _ _ hprot => rw [hprot]; simp
  | dirty _ _ _ _ _ hprot => rw [hprot]; simp
  | faulting _ _ _ _ hprot => rw [hprot]; simp

end Notices

/-! ## Lock grants -/

section Grant

variable {h : Host} {src l : Nat} {scope : BitVec 32}

theorem grantFirst_iff : (∃ out, h.grantFirst cfg l = .ok out) ↔
    Grants.Room (appendLockWtnts (h.m.homehost cfg) ((h.y.locks l).acqs 0)
      ((h.y.locks l).acqscope 0)) Intbytes (h.y.locks l).wtntp.nodes := by
  rw [← Grants.opens_appendLockWtnts.chunks_iff (Nat.lt_succ_self _)]
  constructor
  · rintro ⟨out, hout⟩
    obtain ⟨cs, hcs, -⟩ := grantFirst_ok hout
    exact ⟨cs, hcs⟩
  · rintro ⟨cs, hcs⟩
    exact ⟨_, bind_eq_ok.mpr ⟨cs, hcs, rfl⟩⟩

/-- The notices of the lock that the message hands on fit. -/
def GrantRoom (cfg : Config) (h : Host) (src : Nat) : Msg → Prop
  | .acq l scope => (h.y.locks l).acqc = 0 →
      Grants.Room (appendLockWtnts (h.m.homehost cfg) src scope) Intbytes
        (h.y.locks l).wtntp.nodes
  | .rel l scope ns => 1 < (h.y.locks l).acqc →
      Grants.Room (appendLockWtnts (h.m.homehost cfg)
        (((recordRelease h.y src l scope ns).locks l).acqs 0)
        (((recordRelease h.y src l scope ns).locks l).acqscope 0)) Intbytes
        ((recordRelease h.y src l scope ns).locks l).wtntp.nodes
  | _ => True

/-- With few pages the notices of any lock fit into one message. -/
theorem grantRoom_of_few {msg : Msg} (hy : h.y.Pages cfg) (hmsg : msg.Pages cfg)
    (hfew : Intbytes + (Addrbytes + Intbytes + Intbytes) * cfg.npages ≤ Maxmsgsize) :
    GrantRoom cfg h src msg := by
  have hroom : ∀ {l : WtntList}, l.Pages cfg → ∀ topid scope,
      Grants.Room (appendLockWtnts (h.m.homehost cfg) topid scope) Intbytes l.nodes := by
    intro l hl topid scope
    refine Grants.room_of_length (Nat.le_refl _) ?_
    have hle : (chainEntries l.nodes).length ≤ cfg.npages := hl.length_le
    have hmul := Nat.mul_le_mul_left (Addrbytes + Intbytes + Intbytes) hle
    exact (Nat.add_le_add_left hmul _).trans hfew
  cases msg with
  | acq l scope => exact fun _ => hroom (hy.locks l) _ _
  | rel l scope ns => exact fun _ => hroom ((hy.recordRelease hmsg).locks l) _ _
  | _ => trivial

theorem acqserver_iff (hl : l % cfg.hostc = pid) (hroom : (h.y.locks l).acqc < Maxhosts) :
    (∃ r, h.acqserver cfg pid src l scope = .ok r) ↔ GrantRoom cfg h src (.acq l scope) := by
  have hacqc : ((h.y.setLock l (pushAcq (h.y.locks l) src scope)).locks l).acqc =
      (h.y.locks l).acqc + 1 := by
    simp [SynState.setLock, pushAcq]
  have hgrant := @grantFirst_iff cfg
    { h with y := h.y.setLock l (pushAcq (h.y.locks l) src scope) } l
  by_cases hc : (h.y.locks l).acqc = 0
  · have hfirst : ((h.y.setLock l (pushAcq (h.y.locks l) src scope)).locks l).acqs 0 = src ∧
        ((h.y.setLock l (pushAcq (h.y.locks l) src scope)).locks l).acqscope 0 = scope ∧
        ((h.y.setLock l (pushAcq (h.y.locks l) src scope)).locks l).wtntp =
          (h.y.locks l).wtntp := by
      simp [SynState.setLock, pushAcq, hc]
    dsimp only at hgrant
    rw [hfirst.1, hfirst.2.1, hfirst.2.2] at hgrant
    have hone : ((h.y.setLock l (pushAcq (h.y.locks l) src scope)).locks l).acqc = 1 := by omega
    rw [GrantRoom, ← hgrant]
    constructor
    · rintro ⟨r, hr⟩ -
      simp only [acqserver, bind_eq_ok] at hr
      obtain ⟨-, -, -, -, hr⟩ := hr
      rw [if_pos hone] at hr
      obtain ⟨out, hout, -⟩ := bind_eq_ok.mp hr
      exact ⟨out, hout⟩
    · intro hfits
      obtain ⟨out, hout⟩ := hfits hc
      refine ⟨({ h with y := h.y.setLock l (pushAcq (h.y.locks l) src scope) }, out), ?_⟩
      simp only [acqserver, bind_eq_ok, jiaAssert_eq_ok, defined_eq_ok]
      refine ⟨(), hl, (), hroom, ?_⟩
      rw [if_pos hone]
      exact bind_eq_ok.mpr ⟨out, hout, rfl⟩
  · refine iff_of_true
      ⟨({ h with y := h.y.setLock l (pushAcq (h.y.locks l) src scope) }, []), ?_⟩
      fun hc' => absurd hc' hc
    simp only [acqserver, bind_eq_ok, jiaAssert_eq_ok, defined_eq_ok]
    refine ⟨(), hl, (), hroom, ?_⟩
    rw [if_neg (by omega)]
    rfl

theorem relserver_iff {ns : List StackNotice} (hl : l % cfg.hostc = pid)
    (hsrc : src = (h.y.locks l).acqs 0) :
    (∃ r, h.relserver cfg pid src l scope ns = .ok r) ↔
      GrantRoom cfg h src (.rel l scope ns) := by
  have hacqc := acqc_recordRelease h.y src l scope ns
  have hgrant := @grantFirst_iff cfg { h with y := recordRelease h.y src l scope ns } l
  dsimp only at hgrant
  rw [GrantRoom, ← hgrant]
  by_cases hc : 1 < (h.y.locks l).acqc
  · have hpos : 0 < ((recordRelease h.y src l scope ns).locks l).acqc := by omega
    constructor
    · rintro ⟨r, hr⟩ -
      simp only [relserver, bind_eq_ok] at hr
      obtain ⟨-, -, -, -, hr⟩ := hr
      rw [if_pos hpos] at hr
      obtain ⟨out, hout, -⟩ := bind_eq_ok.mp hr
      exact ⟨out, hout⟩
    · intro hfits
      obtain ⟨out, hout⟩ := hfits hc
      refine ⟨({ h with y := recordRelease h.y src l scope ns }, out), ?_⟩
      simp only [relserver, bind_eq_ok, jiaAssert_eq_ok]
      refine ⟨(), hl, (), hsrc, ?_⟩
      rw [if_pos hpos]
      exact bind_eq_ok.mpr ⟨out, hout, rfl⟩
  · refine iff_of_true ⟨({ h with y := recordRelease h.y src l scope ns }, []), ?_⟩
      fun hc' => absurd hc' hc
    simp only [relserver, bind_eq_ok, jiaAssert_eq_ok]
    refine ⟨(), hl, (), hsrc, ?_⟩
    rw [if_neg (by omega)]
    rfl

theorem grantbarr_total : ∃ out, h.grantbarr cfg pid l = .ok out := by
  obtain ⟨cs, hcs⟩ := appendBarrWtnts_sound.stream_ok (h.y.locks l).wtntp
  exact ⟨_, bind_eq_ok.mpr ⟨cs, hcs, rfl⟩⟩

theorem barrserver_total {ns : List StackNotice} (hl : hidelock % cfg.hostc = pid) :
    ∃ r, h.barrserver cfg pid src hidelock ns = .ok r := by
  by_cases hc : (countBarr ((h.y.recordwtnts hidelock src ns).locks hidelock)).acqc = cfg.hostc
  · obtain ⟨out, hout⟩ := @grantbarr_total cfg pid { h with
      y := (h.y.recordwtnts hidelock src ns).setLock hidelock
        (nextBarr (countBarr ((h.y.recordwtnts hidelock src ns).locks hidelock))) } hidelock
    refine ⟨({ h with
      y := (h.y.recordwtnts hidelock src ns).setLock hidelock (resetBarr
        (nextBarr (countBarr ((h.y.recordwtnts hidelock src ns).locks hidelock)))) }, out), ?_⟩
    simp only [barrserver, bind_eq_ok, jiaAssert_eq_ok]
    refine ⟨(), hl, (), trivial, ?_⟩
    rw [if_pos hc]
    exact bind_eq_ok.mpr ⟨out, hout, rfl⟩
  · refine ⟨({ h with
      y := (h.y.recordwtnts hidelock src ns).setLock hidelock
        (countBarr ((h.y.recordwtnts hidelock src ns).locks hidelock)) }, []), ?_⟩
    simp only [barrserver, bind_eq_ok, jiaAssert_eq_ok]
    refine ⟨(), hl, (), trivial, ?_⟩
    rw [if_neg hc]
    rfl

end Grant

/-! ## Messages -/

section Messages

variable {s : State} {src dst : Nat} {msg : Msg} {rest : List Msg}

theorem reach_homeHere (hb : cfg.Basic) (hs : (system cfg).Reach s) {i q : Nat}
    (hq : q < cfg.npages) (hown : cfg.layout.owner q = i) :
    HomeHere cfg (s.host i).m (cfg.pageAddr q) := by
  have hhome : ((s.host i).m.page q).homepid = i := by rw [reach_homepid hb.hMig hs i hq, hown]
  have hopen := reach_openAt hb hs i q hq hhome
  have hlt := (((reach_pages hs).host i).tables.home.home q hq hhome).1
  refine ⟨?_, ?_, ?_⟩
  · rwa [homepage, cfg.pagei_pageAddr hq]
  · rw [cfg.pagei_pageAddr hq]
    exact hopen.mapped
  · rw [homepage, cfg.pagei_pageAddr hq, homeWtnt, if_pos hlt]
    exact hopen.writable

theorem reach_getp_home (hb : cfg.Basic) (hs : (system cfg).Reach s) {a b : Nat} {addr : Addr}
    {temp : Bool} (hmem : Msg.getp addr temp ∈ s.net a b) :
    ∃ q < cfg.npages, addr = cfg.pageAddr q ∧ cfg.layout.owner q = b := by
  have hall : Routed cfg a b (.getp addr temp) ∧ ∀ addr' temp',
      Msg.getp addr temp = .getp addr' temp' →
      ∃ q < cfg.npages, addr' = cfg.pageAddr q ∧ cfg.layout.owner q = b := by
    refine reach_net (P := fun a b msg => Routed cfg a b msg ∧ ∀ addr temp, msg = .getp addr temp →
      ∃ q < cfg.npages, addr = cfg.pageAddr q ∧ cfg.layout.owner q = b) ?_ ?_ hs hmem
    · intro s i act h' out hreach hlt hm k msg hout
      refine ⟨(main_routed (reach_stackOk hreach i) hm hout).2, ?_⟩
      rintro addr temp rfl
      cases main_fetch ((reach_pages hreach).host i).tables hm with
      | quiet _ _ hno => exact absurd (hno _ hout) (by simp [Msg.isGetp])
      | ask w b temp' hpc hpc' =>
          cases hm with
          | @cacheFault q _ _ _ _ _ _ hq _ _ hm =>
              rcases cacheFault_out hm with rfl | ⟨temp', rfl⟩
              · cases hout
              · obtain ⟨hk, hmsg⟩ := Prod.mk.inj (List.mem_singleton.mp hout)
                rw [Msg.getp.injEq] at hmsg
                exact ⟨q, hq, hmsg.1, by rw [hk, reach_homepid hb.hMig hreach i hq]⟩
          | start hpc hhost ha hop hm =>
              obtain ⟨y, dm, -, -, rfl⟩ := endinterval_ok hm
              cases hpc'
          | _ => simp_all
    · intro s src dst rnd msg h' out hreach hin hm k msg' hout
      obtain ⟨hreq, hrouted⟩ := served_routed hin.1 hm hout
      refine ⟨hrouted, ?_⟩
      rintro addr temp rfl
      cases hreq
  exact hall.2 addr temp rfl

theorem step_deliver (hnet : s.net src dst = msg :: rest) (rnd : List Nat) :
    (∃ s', step cfg s (.deliver src dst rnd) = .ok s') ↔
      ∃ r, (s.host dst).msgHandle cfg dst src rnd msg = .ok r := by
  simp only [step, hnet]
  constructor
  · rintro ⟨s', hs'⟩
    obtain ⟨r, hr, -⟩ := bind_eq_ok.mp hs'
    exact ⟨r, hr⟩
  · rintro ⟨r, hr⟩
    exact ⟨_, bind_eq_ok.mpr ⟨r, hr, rfl⟩⟩

theorem exists_silent {r : Result Host} (hr : ∃ h', r = .ok h') : ∃ x, silent r = .ok x := by
  obtain ⟨h', hr⟩ := hr
  exact ⟨_, silent_eq_ok.mpr ⟨hr, rfl⟩⟩

theorem exists_onMem {h : Host} {r : Result (MemState × Out)} (hr : ∃ x, r = .ok x) :
    ∃ x, h.onMem r = .ok x := by
  obtain ⟨⟨m', out⟩, hr⟩ := hr
  exact ⟨_, onMem_eq_ok.mpr ⟨m', hr, rfl⟩⟩

theorem reach_diffserver (hb : cfg.Basic) (hs : (system cfg).Reach s) {ds : List PageDiff}
    (hmem : Msg.diff ds ∈ s.net src dst) :
    ∃ r, (s.host dst).m.diffserver cfg src ds = .ok r := by
  have hhere : ∀ d ∈ ds, HomeHere cfg (s.host dst).m d.addr := by
    intro d hd
    obtain ⟨q, hq, ha, hown⟩ := reach_diff_home hb hs hmem d hd
    rw [ha]
    exact reach_homeHere hb hs hq hown
  obtain ⟨m', hm, -⟩ := applyDiffs_total src hhere
  exact ⟨_, bind_eq_ok.mpr ⟨m', hm, rfl⟩⟩

theorem reach_getpserver (hb : cfg.Basic) (hs : (system cfg).Reach s) {addr : Addr} {temp : Bool}
    (hmem : Msg.getp addr temp ∈ s.net src dst) :
    ∃ r, (s.host dst).m.getpserver cfg dst src addr temp = .ok r := by
  obtain ⟨q, hq, rfl, hown⟩ := reach_getp_home hb hs hmem
  have hhome : ((s.host dst).m.page q).homepid = dst := by
    rw [reach_homepid hb.hMig hs dst hq, hown]
  exact ⟨_, getpserver_basic hb ((reach_pages hs).host dst).tables.home hq hhome
    (reach_openAt hb hs dst q hq hhome).readable⟩

/-- A page that arrives has been mapped for writing by the fault handler that waits for it. -/
theorem reach_getpgrantserver (hb : cfg.Basic) (hs : (system cfg).Reach s) {addr : Addr}
    {wv : BitVec Wvbits} {data : Page} {xs : List ExtraPage}
    (hnet : s.net src dst = .getpgrant addr wv data xs :: rest) (rnd : List Nat) :
    ∃ m', (s.host dst).m.getpgrantserver cfg addr wv data xs rnd = .ok m' := by
  have hrem := reach_remoteOk hb hs dst
  obtain ⟨rfl, w, hpc, rfl⟩ := (reach_copyMsg hb hs hnet).reply _ _ _ _ rfl
  simp only [getpgrantserver, cfg.pagei_pageAddr (hrem.fault w hpc).1]
  exact ⟨_, bind_eq_ok.mpr ⟨(), defined_eq_ok.mpr (hrem.fault_writable hpc), rfl⟩⟩

theorem reach_invalidate (hb : cfg.Basic) (hs : (system cfg).Reach s) {ns : List GrantNotice}
    (hns : ∀ n ∈ ns, cfg.IsPage n.addr) (i l : Nat) :
    ∃ m', invalidate cfg i l (s.host i).m ns = .ok m' := by
  have hi := reach_cacheInverse (reach_cacheSystem hb.prefetchFlag hs i)
  have hrem := reach_remoteOk hb hs i
  exact invalidate_total hb.hMig ((reach_pages hs).host i).tables.home hi
    (fun q hq hc => hrem.mapped hi hq hc) hns l

/-- The message that comes next on a channel is handled, no assert fails and nothing
outside the tables and the mapped pages is touched, if and only if the lock grant that
it sets off has room. -/
theorem handled_iff_room (hb : cfg.Basic) (hs : (system cfg).Reach s)
    (hnet : s.net src dst = msg :: rest) (rnd : List Nat) :
    (∃ s', step cfg s (.deliver src dst rnd) = .ok s') ↔ GrantRoom cfg (s.host dst) src msg := by
  have hmem : msg ∈ s.net src dst := by
    rw [hnet]
    exact List.mem_cons_self
  have hrouted := reach_routed hs hmem
  have hcopy := reach_copyMsg hb hs hnet
  obtain ⟨log, hlog⟩ := hs.exists_hist (lockHistory cfg)
  rw [step_deliver hnet]
  cases msg with
  | diff ds =>
      exact iff_of_true (exists_onMem (reach_diffserver hb hs hmem)) trivial
  | diffgrant => exact iff_of_true ⟨_, rfl⟩ trivial
  | getp addr temp =>
      exact iff_of_true (exists_onMem (reach_getpserver hb hs hmem)) trivial
  | getpgrant addr wv data xs =>
      obtain ⟨m', hm⟩ := reach_getpgrantserver hb hs hnet rnd
      exact iff_of_true (exists_silent ⟨_, bind_eq_ok.mpr ⟨m', hm, rfl⟩⟩) trivial
  | acq l scope =>
      obtain ⟨hl, rfl⟩ := hrouted
      have hroom := acq_room hlog (Nat.ne_of_lt hl) hnet
      exact acqserver_iff rfl (lt_of_lt_of_le hroom cfg.hostc_le)
  | rel l scope ns =>
      obtain ⟨hl, rfl⟩ := hrouted
      exact relserver_iff rfl (rel_first hlog (Nat.ne_of_lt hl) hnet)
  | wtnt l ns =>
      have hassert : jiaAssert (l % cfg.hostc = dst) "Incorrect home of lock!" = .ok () :=
        jiaAssert_eq_ok.mpr hrouted.2.symm
      exact iff_of_true (exists_silent ⟨_, bind_eq_ok.mpr ⟨(), hassert, rfl⟩⟩) trivial
  | barr l scope ns =>
      obtain ⟨rfl, hdst⟩ := hrouted
      exact iff_of_true (barrserver_total hdst.symm) trivial
  | acqgrant l scope ns =>
      obtain ⟨m', hm⟩ := reach_invalidate hb hs hcopy.pages.1 dst l
      exact iff_of_true (exists_silent ⟨_, bind_eq_ok.mpr ⟨m', hm, rfl⟩⟩) trivial
  | invld l ns =>
      obtain ⟨m', hm⟩ := reach_invalidate hb hs hcopy.pages.1 dst l
      exact iff_of_true (exists_silent ⟨_, bind_eq_ok.mpr ⟨m', hm, rfl⟩⟩) trivial
  | barrgrant l scope ns =>
      obtain ⟨m', hm⟩ := reach_invalidate hb hs hcopy.pages.1 dst l
      exact iff_of_true (exists_silent ⟨_, bind_eq_ok.mpr ⟨m', hm, rfl⟩⟩) trivial
  | wait => exact iff_of_true ⟨_, rfl⟩ trivial
  | waitgrant => exact iff_of_true ⟨_, rfl⟩ trivial
  | bcast root level msg => exact iff_of_true ⟨_, rfl⟩ trivial

/-- With so few pages that the notices of all of them fit into one message, the next
message of every channel is handled. -/
theorem few_pages_handled (hb : cfg.Basic)
    (hfew : Intbytes + (Addrbytes + Intbytes + Intbytes) * cfg.npages ≤ Maxmsgsize)
    (hs : (system cfg).Reach s) (hnet : s.net src dst = msg :: rest) (rnd : List Nat) :
    ∃ s', step cfg s (.deliver src dst rnd) = .ok s' := by
  have hmem : msg ∈ s.net src dst := by
    rw [hnet]
    exact List.mem_cons_self
  have hpages := reach_pages hs
  exact (handled_iff_room hb hs hnet rnd).mpr
    (grantRoom_of_few (hpages.host dst).lists (hpages.net hmem) hfew)

/-- Host 0 handles the request of host 1. -/
theorem few_pages_handled_lock :
    ∃ s msg, (system .onePage).Reach s ∧ s.net 1 0 = [msg] ∧
      ∃ s', step .onePage s (.deliver 1 0 []) = .ok s' := by
  obtain ⟨s, hs, hcheck⟩ := System.exists_execBy (S := system .onePage) (fun _ _ _ h => h)
    [.main 1 (.lock 0), .main 1 .go, .main 1 .go]
    (fun s => decide ((s.net 1 0).length = 1)) (by decide +kernel)
  obtain ⟨msg, hnet⟩ := List.length_eq_one_iff.mp (of_decide_eq_true hcheck)
  exact ⟨s, msg, hs, hnet, few_pages_handled ⟨rfl, rfl, rfl⟩ (by decide) hs hnet []⟩

end Messages

end Jiajia
