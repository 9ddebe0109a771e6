import Jiajia.DiffAcks
import Jiajia.RemotePages

/-!
# Diffs on their way

A DIFF goes to the home of its pages.  Until it is handled its sender stays in
`endinterval`, with the page and the twin it was made from.
-/

namespace Jiajia

open Fifo Transition Host MemState

/-- Home migration, write vectors and prefetching are off: `inittools` turns off the
first two, and prefetching is on only where the configuration says so. -/
structure Config.Basic (cfg : Config) : Prop where
  hMig : cfg.hMig = false
  wVec : cfg.wVec = false
  prefetchFlag : cfg.prefetchFlag = false

variable {cfg : Config}

/-! ## What `savepages` puts into the messages -/

namespace MemState

/-- The diff of a slot. -/
def diffOf (cfg : Config) (m : MemState) (c : Nat) : PageDiff :=
  encodediff (m.cache c).addr (m.mem (cfg.pagei (m.cache c).addr)) ((m.cache c).twin.getD zeroPage)

/-- The written slots of pages whose home is host `k`. -/
def dirtySlots (cfg : Config) (m : MemState) (k : Nat) (cs : List Nat) : List Nat :=
  cs.filter fun c => (m.cache c).wtnt && m.homehost cfg (m.cache c).addr == k

end MemState

section Saving

variable {pid : Nat} {m : MemState} {y y' : SynState} {dm dm' : Nat → List PageDiff} {cs : List Nat}

theorem savediff_ok {c : Nat} (h : savediff cfg m dm c = .ok dm') :
    dm' = upd dm (m.homehost cfg (m.cache c).addr)
      (dm (m.homehost cfg (m.cache c).addr) ++ [diffOf cfg m c]) := by
  simp only [savediff, bind_eq_ok] at h
  obtain ⟨-, -, h⟩ := h
  split at h
  · cases h
  · rename_i twin htwin
    simp only [bind_eq_ok, pure, Except.pure, Except.ok.injEq] at h
    obtain ⟨-, -, rfl⟩ := h
    rw [diffOf, htwin]
    rfl

/-- Every host is sent the diffs of the pages it is the home of, in slot order. -/
theorem savepages_diffs (h : savepages cfg pid m y dm cs = .ok (y', dm')) (k : Nat) :
    dm' k = dm k ++ (dirtySlots cfg m k cs).map (diffOf cfg m) := by
  induction cs generalizing y dm with
  | nil =>
      simp only [savepages, Except.ok.injEq, Prod.mk.injEq] at h
      simp [dirtySlots, ← h.2]
  | cons c cs ih =>
      simp only [savepages] at h
      split at h
      · rename_i hw
        rw [bind_eq_ok] at h
        obtain ⟨dm₁, hdiff, h⟩ := h
        rw [ih h, savediff_ok hdiff]
        by_cases hk : k = m.homehost cfg (m.cache c).addr
        · subst hk
          simp [dirtySlots, hw]
        · have hne : ¬ m.homehost cfg (m.cache c).addr = k := fun heq => hk heq.symm
          simp [dirtySlots, hk, hne]
      · rename_i hw
        rw [ih h]
        simp [dirtySlots, hw]

theorem mem_dirtySlots {k c : Nat} : c ∈ dirtySlots cfg m k cs ↔
    c ∈ cs ∧ (m.cache c).wtnt = true ∧ m.homehost cfg (m.cache c).addr = k := by
  simp [dirtySlots]

theorem diffs_of_page (hi : CacheInverse cfg pid m) {p : Nat} (hp : p < cfg.npages) :
    ((dirtySlots cfg m (m.page p).homepid (List.range cfg.cachepages)).map (diffOf cfg m)).filter
        (fun d => cfg.pagei d.addr = p) =
      if (m.page p).cachei < cfg.cachepages ∧ (m.cache (m.page p).cachei).wtnt = true then
        [diffOf cfg m (m.page p).cachei] else [] := by
  have hpage : ∀ c < cfg.cachepages, (m.cache c).wtnt = true →
      (cfg.pagei (m.cache c).addr = p ↔ c = (m.page p).cachei) := by
    intro c hc hw
    have hused : (m.cache c).state ≠ .unmap := by
      intro hst
      rw [hi.wtnt c hc hst] at hw
      cases hw
    obtain ⟨q, hq, hqc, ha⟩ := hi.toLinked.owner hc hused
    rw [ha, cfg.pagei_pageAddr hq]
    constructor
    · rintro rfl
      exact hqc.symm
    · rintro rfl
      have hpa := ((hi.slot p hp _ hc).mp rfl).2
      rw [ha] at hpa
      exact cfg.pageAddr_inj hq hp hpa
  have haddr : ∀ c, (diffOf cfg m c).addr = (m.cache c).addr := fun _ => rfl
  rw [List.filter_map]
  have hfilter : (dirtySlots cfg m (m.page p).homepid (List.range cfg.cachepages)).filter
      ((fun d => decide (cfg.pagei d.addr = p)) ∘ diffOf cfg m) =
      (List.range cfg.cachepages).filter
        fun c => decide (c = (m.page p).cachei) && (m.cache c).wtnt := by
    rw [dirtySlots, List.filter_filter]
    refine List.filter_congr fun c hc => ?_
    have hlt := List.mem_range.mp hc
    simp only [Function.comp_apply, haddr]
    cases hw : (m.cache c).wtnt with
    | false => simp
    | true =>
        by_cases hcp : c = (m.page p).cachei
        · have hpa := (hpage c hlt hw).mpr hcp
          simp [hcp ▸ hpa, homehost, hcp]
        · simp [hcp, (hpage c hlt hw).not.mpr hcp]
  rw [hfilter]
  by_cases hdirty : (m.page p).cachei < cfg.cachepages ∧ (m.cache (m.page p).cachei).wtnt = true
  · have hsame : ∀ c, (decide (c = (m.page p).cachei) && (m.cache c).wtnt) =
        decide (c = (m.page p).cachei) := by
      intro c
      by_cases hcp : c = (m.page p).cachei
      · simp [hcp, hdirty.2]
      · simp [hcp]
    rw [if_pos hdirty]
    simp only [hsame, List.filter_eq]
    rw [List.count_eq_one_of_mem List.nodup_range (List.mem_range.mpr hdirty.1)]
    rfl
  · rw [if_neg hdirty]
    have hnone : (List.range cfg.cachepages).filter
        (fun c => decide (c = (m.page p).cachei) && (m.cache c).wtnt) = [] := by
      rw [List.filter_eq_nil_iff]
      intro c hc hcp
      rw [Bool.and_eq_true, decide_eq_true_eq] at hcp
      obtain ⟨rfl, hw⟩ := hcp
      exact hdirty ⟨List.mem_range.mp hc, hw⟩
    rw [hnone]
    rfl

end Saving

/-- The main thread sends a DIFF message in `endinterval` only: the diffs of the pages
it has written of that host. -/
theorem main_diff {pid : Nat} {h h' : Host} {a : Act} {out : Out} {b : Nat} {ds : List PageDiff}
    (hm : Main cfg pid h a h' out) (hmem : (b, .diff ds) ∈ out) :
    h.pc = .app ∧ ds ≠ [] ∧
      ds = (dirtySlots cfg h.m b (List.range cfg.cachepages)).map (diffOf cfg h.m) ∧
      h'.m.page = h.m.page ∧ h'.m.cache = h.m.cache ∧ h'.m.prot = h.m.prot ∧
      h'.m.mem = h.m.mem ∧ runs h'.pc = false := by
  rcases main_closing hm with ⟨hquiet, -⟩ | ⟨op, y, dm, hpc, hsave, rfl, rfl⟩
  · cases hquiet _ hmem
  · obtain ⟨k, hk, hne, heq⟩ := mem_senddiffs.mp hmem
    obtain ⟨rfl, hds⟩ := Prod.mk.inj heq
    obtain rfl := Msg.diff.inj hds
    exact ⟨hpc, hne, savepages_diffs hsave b, rfl, rfl, rfl, rfl, rfl⟩

/-! ## Homes and remote pages in runs -/

theorem served_homepid {pid src : Nat} {m m' : MemState} {msg : Msg} {out : Out}
    (hoff : cfg.hMig = false) (hs : ServedMem cfg pid src m msg m' out) (p : Nat) :
    (m'.page p).homepid = (m.page p).homepid := by
  cases hs with
  | still hstill => exact hstill.home.homepid p
  | serve addr temp hmsg hserves => exact hserves.flagged.homepid p
  | install addr wv data xs hmsg hout hre => exact hre.home.homepid p
  | drop hre => exact hre.home.homepid p
  | invld ns hmsg hout hns => exact (hns.still hoff).homepid p
  | barrgrant scope ns hmsg hout hns => exact (hns.still hoff).homepid p

theorem reach_homepid (hoff : cfg.hMig = false) {s : State} (hs : (system cfg).Reach s) (i : Nat)
    {p : Nat} (hp : p < cfg.npages) : ((s.host i).m.page p).homepid = cfg.layout.owner p := by
  revert i
  refine hs.invariant
    (I := fun s => ∀ i, ((s.host i).m.page p).homepid = cfg.layout.owner p) ?_ ?_
  · intro i
    change ((initmem cfg i).page p).homepid = cfg.layout.owner p
    simp [initmem, hp]
  intro s e s' hreach hinv hnext j
  rcases step_view hnext with ⟨i, act, hst, out, -, hi, hm, -, rfl⟩ |
    ⟨src, dst, rnd, msg, rest, hst, out, -, hnet, hm, -, rfl⟩
  · by_cases hj : j = i
    · subst hj
      rw [State.put_host_same, (main_kept ((reach_pages hreach).host j).tables hm).homepid]
      exact hinv j
    · rw [State.put_host_of_ne _ _ _ hj]
      exact hinv j
  · by_cases hj : j = dst
    · subst hj
      have hmem : msg ∈ s.net src j := by
        rw [hnet]
        exact List.mem_cons_self
      have hall := reach_pages hreach
      rw [State.put_host_same, (served_homepid hoff (served_mem (hall.host j).tables
        (hall.net hmem) (reach_routed hreach hmem) hm) p)]
      exact hinv j
    · rw [State.put_host_of_ne _ _ _ hj]
      exact hinv j

theorem reach_diff_home (hb : cfg.Basic) {s : State} (hs : (system cfg).Reach s) {a b : Nat}
    {ds : List PageDiff} (hmem : Msg.diff ds ∈ s.net a b) :
    ∀ d ∈ ds, ∃ q < cfg.npages, d.addr = cfg.pageAddr q ∧ cfg.layout.owner q = b := by
  have hall : ∀ {a b : Nat} {msg : Msg}, msg ∈ s.net a b → Routed cfg a b msg ∧
      ∀ ds, msg = .diff ds → ∀ d ∈ ds,
        ∃ q < cfg.npages, d.addr = cfg.pageAddr q ∧ cfg.layout.owner q = b := by
    intro a b msg hmem
    refine reach_net (P := fun a b msg => Routed cfg a b msg ∧ ∀ ds, msg = .diff ds → ∀ d ∈ ds,
      ∃ q < cfg.npages, d.addr = cfg.pageAddr q ∧ cfg.layout.owner q = b) ?_ ?_ hs hmem
    · intro s i act h' out hreach _ hm k msg hout
      refine ⟨(main_routed (reach_stackOk hreach i) hm hout).2, ?_⟩
      rintro ds rfl d hd
      obtain ⟨-, -, rfl, -⟩ := main_diff hm hout
      obtain ⟨c, hc, rfl⟩ := List.mem_map.mp hd
      obtain ⟨hlt, hw, hhome⟩ := mem_dirtySlots.mp hc
      have hi := reach_cacheInverse (reach_cacheSystem hb.prefetchFlag hreach i)
      have hcs := List.mem_range.mp hlt
      have hused : ((s.host i).m.cache c).state ≠ .unmap := by
        intro hst
        rw [hi.wtnt c hcs hst] at hw
        cases hw
      obtain ⟨q, hq, -, ha⟩ := hi.toLinked.owner hcs hused
      refine ⟨q, hq, ha, ?_⟩
      rw [homehost, ha, cfg.pagei_pageAddr hq, reach_homepid hb.hMig hreach i hq] at hhome
      exact hhome
    · intro s src dst rnd msg h' out hreach hin hm k msg' hout
      obtain ⟨hreq, hrouted⟩ := served_routed hin.1 hm hout
      refine ⟨hrouted, ?_⟩
      rintro ds rfl
      cases hreq
  exact (hall hmem).2 ds rfl

theorem reach_copyMsg (hb : cfg.Basic) {s : State} (hs : (system cfg).Reach s) {src dst : Nat}
    {msg : Msg} {rest : List Msg} (hnet : s.net src dst = msg :: rest) :
    CopyMsg cfg dst (s.host dst) msg := by
  have hmem : msg ∈ s.net src dst := by
    rw [hnet]
    exact List.mem_cons_self
  refine ⟨(reach_pages hs).net hmem, reach_invalidates hs hnet, ?_, ?_⟩
  · rintro ds rfl d hd
    obtain ⟨q, hq, ha, hown⟩ := reach_diff_home hb hs hmem d hd
    rw [ha, cfg.pagei_pageAddr hq, reach_homepid hb.hMig hs dst hq, hown]
  · rintro addr wv data xs rfl
    obtain ⟨w, hpc, -, ha⟩ := (reach_fetching hs dst).reply hmem
    exact ⟨reach_extras hb.prefetchFlag hs hmem, w, hpc, ha⟩

theorem remoteOk_init (pid : Nat) : RemoteOk cfg pid (initHost cfg pid) := by
  constructor
  · intro p hp haway
    have howner : ¬ (p < cfg.npages ∧ cfg.layout.owner p = pid) := by
      rintro ⟨-, heq⟩
      exact haway (by simp [initHost, initmem, hp, heq])
    exact ⟨.absent, .absent (Nat.le_refl _) (if_neg howner) fun _ hpc => by cases hpc⟩
  · intro w hpc
    cases hpc

theorem reach_remoteOk (hb : cfg.Basic) {s : State} (hs : (system cfg).Reach s) (i : Nat) :
    RemoteOk cfg i (s.host i) := by
  revert i
  refine hs.invariant (I := fun s => ∀ i, RemoteOk cfg i (s.host i)) remoteOk_init ?_
  intro s e s' hreach hinv hnext j
  have hcache := reach_cacheInverse (reach_cacheSystem hb.prefetchFlag hreach j)
  rcases step_view hnext with ⟨i, act, hst, out, -, hi, hm, -, rfl⟩ |
    ⟨src, dst, rnd, msg, rest, hst, out, -, hnet, hm, -, rfl⟩
  · by_cases hj : j = i
    · subst hj
      rw [State.put_host_same]
      exact main_remoteOk hb.hMig hcache ((reach_pages hreach).host j) (hinv j) hm
    · rw [State.put_host_of_ne _ _ _ hj]
      exact hinv j
  · by_cases hj : j = dst
    · subst hj
      have hpid : ∀ p < cfg.npages, (hst.m.page p).homepid = ((s.host j).m.page p).homepid := by
        intro p hp
        have hnew := reach_homepid hb.hMig (hreach.step hnext) j hp
        rw [State.put_host_same] at hnew
        rw [hnew, reach_homepid hb.hMig hreach j hp]
      rw [State.put_host_same]
      constructor
      · intro p hp haway
        rw [hpid p hp] at haway
        obtain ⟨c, hat⟩ := (hinv j).page p hp haway
        obtain ⟨c', hat', -⟩ := served_copy hb.hMig hb.wVec hcache (hinv j)
          (reach_copyMsg hb hreach hnet) hp haway hat hm
        exact ⟨c', hat'⟩
      · intro w hw
        rw [(served_stack hm).1] at hw
        obtain ⟨hlt, haway⟩ := (hinv j).fault w hw
        rw [hpid w.page hlt]
        exact ⟨hlt, haway⟩
    · rw [State.put_host_of_ne _ _ _ hj]
      exact hinv j

/-- Outside its fault a page of another host is mapped as its slot says: not at all
without one, without permission if the slot is INV, readable if it is RO, and writable,
with a twin and the write bit set, if it is RW.  During the fault it is writable.  There
are never more pages of other hosts mapped than the cache has slots. -/
theorem remote_pages_mapped (hb : cfg.Basic) {s : State} (hs : (system cfg).Reach s) (i : Nat) :
    (∀ p < cfg.npages, i ≠ cfg.layout.owner p →
      (∀ w, (s.host i).pc = .fault w → w.page ≠ p) →
      ((s.host i).m.prot p = .unmapped ↔ cfg.cachepages ≤ ((s.host i).m.page p).cachei) ∧
      ((s.host i).m.prot p = .none ↔ ((s.host i).m.page p).cachei < cfg.cachepages ∧
        ((s.host i).m.cache ((s.host i).m.page p).cachei).state = .inv) ∧
      ((s.host i).m.prot p = .read ↔ ((s.host i).m.page p).cachei < cfg.cachepages ∧
        ((s.host i).m.cache ((s.host i).m.page p).cachei).state = .ro) ∧
      ((s.host i).m.prot p = .readWrite ↔ ((s.host i).m.page p).cachei < cfg.cachepages ∧
        ((s.host i).m.cache ((s.host i).m.page p).cachei).state = .rw) ∧
      ((s.host i).m.prot p = .readWrite ↔ ((s.host i).m.page p).cachei < cfg.cachepages ∧
        ((s.host i).m.cache ((s.host i).m.page p).cachei).wtnt = true ∧
        ((s.host i).m.cache ((s.host i).m.page p).cachei).twin.isSome = true)) ∧
    (∀ w, (s.host i).pc = .fault w → w.page < cfg.npages ∧ i ≠ cfg.layout.owner w.page ∧
      (s.host i).m.prot w.page = .readWrite) ∧
    ((Finset.range cfg.npages).filter fun p => i ≠ cfg.layout.owner p ∧
      (s.host i).m.prot p ≠ .unmapped).card ≤ cfg.cachepages := by
  have hrem := reach_remoteOk hb hs i
  have hpid := fun p (hp : p < cfg.npages) => reach_homepid hb.hMig hs i hp
  have haway : ∀ p < cfg.npages, i ≠ cfg.layout.owner p → ((s.host i).m.page p).homepid ≠ i := by
    intro p hp hne
    rw [hpid p hp]
    exact Ne.symm hne
  refine ⟨?_, ?_, ?_⟩
  · intro p hp hne hpc
    obtain ⟨c, hat⟩ := hrem.page p hp (haway p hp hne)
    cases hat with
    | absent hc hprot => simp [hprot, hc, Nat.not_lt.mpr hc]
    | invalid hc hst hw hprot => simp [hprot, hst, hw, hc]
    | clean hc hst hw hprot => simp [hprot, hst, hw, hc]
    | dirty twin hc hst hw htwin hprot => simp [hprot, hst, hw, htwin, hc]
    | faulting w _ _ _ _ hpcw hpage => exact absurd hpage (hpc w hpcw)
  · intro w hpc
    obtain ⟨hlt, hne⟩ := hrem.fault w hpc
    refine ⟨hlt, ?_, hrem.fault_writable hpc⟩
    intro heq
    exact hne ((hpid w.page hlt).trans heq.symm)
  · -- each of them has a slot of its own
    have hi := reach_cacheInverse (reach_cacheSystem hb.prefetchFlag hs i)
    have hslot : ∀ p ∈ (Finset.range cfg.npages).filter (fun p => i ≠ cfg.layout.owner p ∧
        (s.host i).m.prot p ≠ .unmapped), p < cfg.npages ∧
          ((s.host i).m.page p).cachei < cfg.cachepages := by
      intro p hmem
      obtain ⟨hlt, hne, hprot⟩ := Finset.mem_filter.mp hmem
      have hp := Finset.mem_range.mp hlt
      obtain ⟨c, hat⟩ := hrem.page p hp (haway p hp hne)
      refine ⟨hp, ?_⟩
      cases hat with
      | absent _ hun => exact absurd hun hprot
      | invalid hc => exact hc
      | clean hc => exact hc
      | dirty _ hc => exact hc
      | faulting _ hc => exact hc
    calc _ ≤ (Finset.range cfg.cachepages).card :=
          Finset.card_le_card_of_injOn (fun p => ((s.host i).m.page p).cachei)
            (fun p hmem => Finset.mem_range.mpr (hslot p hmem).2) ?_
      _ = cfg.cachepages := Finset.card_range _
    intro p hmem q hmem' heq
    by_contra hne
    exact cachei_ne hi (hslot p hmem).1 (hslot q hmem').1 hne (hslot q hmem').2 heq

/-- Host 1 writes the page of host 0. -/
def writesPage : List Event :=
  [.main 1 (.fault 0 true 0), .deliver 1 0 [], .deliver 0 1 [], .main 1 .go,
    .main 1 (.fault 0 true 0), .main 1 .go]

theorem remote_pages_mapped_writesPage :
    ∃ s, (system .onePage).Reach s ∧ (s.host 1).m.prot 0 = .readWrite ∧
      ((s.host 1).m.cache ((s.host 1).m.page 0).cachei).state = .rw := by
  obtain ⟨s, hs, hcheck⟩ := System.exists_execBy (S := system .onePage) (fun _ _ _ h => h) writesPage
    (fun s => decide ((s.host 1).m.prot 0 = .readWrite ∧ (s.host 1).pc = .app))
    (by decide +kernel)
  obtain ⟨hprot, hpc⟩ := of_decide_eq_true hcheck
  have hmapped := (remote_pages_mapped ⟨rfl, rfl, rfl⟩ hs 1).1 0 (by decide) (by decide)
    (by rw [hpc]; exact nofun)
  exact ⟨s, hs, hprot, (hmapped.2.2.2.1.mp hprot).2⟩

/-! ## The diff of a page -/

/-- What a page in this state puts into the DIFF for its home. -/
def CopyState.diffs (addr : Addr) (cur : Page) : CopyState → List PageDiff
  | .dirty twin => [encodediff addr cur twin]
  | _ => []

/-- The diffs of page `p` on their way to its home are those of the copy their sender has. -/
structure DiffsOf (cfg : Config) (s : State) (i p : Nat) : Prop where
  state : ∀ ds, Msg.diff ds ∈ s.net i (cfg.layout.owner p) →
    ∃ c, CopyAt cfg (s.host i) p c ∧
      ds.filter (fun d => cfg.pagei d.addr = p) = c.diffs (cfg.pageAddr p) ((s.host i).m.mem p)

section Steps

variable {s : State} {i p : Nat} {a : Act} {hst : Host} {out : Out}

theorem diffs_start {pid b : Nat} {h : Host} {c : CopyState} (hi : CacheInverse cfg pid h.m)
    (hp : p < cfg.npages) (hat : CopyAt cfg h p c) (hpc : h.pc = .app)
    (hown : (h.m.page p).homepid = b) :
    ((dirtySlots cfg h.m b (List.range cfg.cachepages)).map (diffOf cfg h.m)).filter
        (fun d => cfg.pagei d.addr = p) = c.diffs (cfg.pageAddr p) (h.m.mem p) := by
  subst hown
  rw [diffs_of_page hi hp]
  cases hat with
  | absent hc => rw [if_neg (by omega)]; rfl
  | invalid hc hst hw => rw [if_neg (by simp [hw])]; rfl
  | clean hc hst hw => rw [if_neg (by simp [hw])]; rfl
  | dirty twin hc hst hw htwin =>
      have ha := ((hi.slot p hp _ hc).mp rfl).2
      rw [if_pos ⟨hc, hw⟩, diffOf, ha, cfg.pagei_pageAddr hp, htwin]
      rfl
  | faulting w _ _ _ _ hpcw =>
      rw [hpc] at hpcw
      cases hpcw

theorem main_waits {pid : Nat} {h h' : Host} (hpc : h.pc.closing = true)
    (hwait : h.m.diffwait ≠ 0) (hm : Main cfg pid h a h' out) :
    SameSlot p h.m h'.m ∧ h'.m.mem = h.m.mem ∧ runs h'.pc = false := by
  have hno : ∀ {pc : Pc}, h.pc = pc → pc.closing = false →
      SameSlot p h.m h'.m ∧ h'.m.mem = h.m.mem ∧ runs h'.pc = false := by
    intro pc hpc' hfalse
    rw [hpc', hfalse] at hpc
    cases hpc
  cases hm with
  | @scan op i n h₁ _ _ hm =>
      have hsame : SameSlot p h.m h₁.m := sameSlot_scanHome hm
      have hi : Inert h.m h₁.m := inert_scanHome hm
      exact ⟨hsame, hi.mem, rfl⟩
  | scanEnd => exact ⟨SameSlot.refl _, rfl, rfl⟩
  | acquire _ hzero => exact absurd hzero hwait
  | release _ hzero => exact absurd hzero hwait
  | arrive _ hzero => exact absurd hzero hwait
  | acquired hpc' => exact hno hpc' rfl
  | leave hpc' => exact hpc'.elim (fun hpc' => hno hpc'.1 rfl) fun hpc' => hno hpc'.1 rfl
  | load hpc' => exact hno hpc' rfl
  | store hpc' => exact hno hpc' rfl
  | homeFault hpc' => exact hno hpc' rfl
  | cacheFault hpc' => exact hno hpc' rfl
  | faultEnd hpc' => exact hno hpc' rfl
  | single hpc' => exact hno hpc' rfl
  | start hpc' => exact hno hpc' rfl
  | barrsync hpc' => exact hno hpc' rfl
  | wait hpc' => exact hno hpc' rfl
  | waited hpc' => exact hno hpc' rfl
  | stay hpc' => exact hno hpc' rfl

theorem closing_of_diff {ds : List PageDiff} {b : Nat} (hacks : DiffAcks cfg s i)
    (hmem : Msg.diff ds ∈ s.net i b) :
    (s.host i).pc.closing = true ∧ (s.host i).m.diffwait ≠ 0 := by
  have hpos : diffsPending s.net i b ≠ 0 := by
    have hcount : 0 < (s.net i b).countP Msg.isDiff := List.countP_pos_iff.mpr ⟨_, hmem, rfl⟩
    unfold diffsPending Acks.pending
    omega
  have hwait : (s.host i).m.diffwait ≠ 0 := fun hzero => hpos (hacks.idle hzero b)
  refine ⟨?_, hwait⟩
  by_contra hpc
  rw [Bool.not_eq_true] at hpc
  exact hwait (hacks.calm hpc)

theorem not_fault_of_closing {h : Host} (hpc : h.pc.closing = true) (w : FaultWait) :
    h.pc ≠ .fault w := by
  intro hw
  rw [hw] at hpc
  cases hpc

theorem diffsOf_main (hb : cfg.Basic) (hreach : (system cfg).Reach s) (hp : p < cfg.npages)
    (hm : Main cfg i (s.host i) a hst out) {j : Nat} (haway : j ≠ cfg.layout.owner p)
    (hold : DiffsOf cfg s j p) : DiffsOf cfg (s.put i hst out) j p := by
  constructor
  intro ds hmem
  rw [State.put_net] at hmem
  by_cases hj : j = i
  · subst hj
    rw [State.put_host_same]
    rcases mem_send.mp hmem with hflight | ⟨-, hnew⟩
    · obtain ⟨c, hat, hds⟩ := hold.state ds hflight
      obtain ⟨hclosing, hwait⟩ := closing_of_diff (reach_diffAcks hreach j) hflight
      obtain ⟨hsame, hcur, hrun⟩ := main_waits (p := p) hclosing hwait hm
      refine ⟨c, hat.congr hsame ?_, by rw [hds, hcur]⟩
      intro w _
      constructor
      · intro hw
        rw [hw] at hrun
        cases hrun
      · exact fun hw => absurd hw (not_fault_of_closing hclosing w)
    · obtain ⟨hpc, -, rfl, hpage, hcache, hprot, hcur, hrun⟩ := main_diff hm hnew
      have hpid := reach_homepid hb.hMig hreach j hp
      obtain ⟨c, hat⟩ := (reach_remoteOk hb hreach j).page p hp (by rw [hpid]; exact Ne.symm haway)
      have hcache' := reach_cacheInverse (reach_cacheSystem hb.prefetchFlag hreach j)
      refine ⟨c, hat.congr ⟨by rw [hpage], by rw [hcache], by rw [hprot]⟩ ?_, ?_⟩
      · intro w _
        constructor
        · intro hw
          rw [hw] at hrun
          cases hrun
        · intro hw
          rw [hpc] at hw
          cases hw
      · rw [hcur]
        exact diffs_start hcache' hp hat hpc hpid
  · rw [State.put_host_of_ne _ _ _ hj]
    rw [send_of_ne _ _ _ hj] at hmem
    exact hold.state ds hmem

theorem diffsOf_served (hb : cfg.Basic) (hreach : (system cfg).Reach s) (hp : p < cfg.npages)
    {src dst : Nat} {rnd : List Nat} {msg : Msg} {rest : List Msg}
    (hnet : s.net src dst = msg :: rest)
    (hm : Served cfg dst (s.host dst) src rnd msg hst out) {j : Nat}
    (haway : j ≠ cfg.layout.owner p) (hold : DiffsOf cfg s j p) :
    DiffsOf cfg ({ s with net := drop s.net src dst }.put dst hst out) j p := by
  constructor
  intro ds hmem
  rw [State.put_net] at hmem
  have hflight : Msg.diff ds ∈ s.net j (cfg.layout.owner p) := by
    rcases mem_send.mp hmem with hflight | ⟨-, hnew⟩
    · exact mem_of_mem_drop hflight
    · have hfirst : msg ∈ s.net src dst := by
        rw [hnet]
        exact List.mem_cons_self
      have hreq := (served_routed (reach_routed hreach hfirst) hm hnew).1
      cases hreq
  obtain ⟨c, hat, hds⟩ := hold.state ds hflight
  by_cases hj : j = dst
  · subst hj
    obtain ⟨hclosing, -⟩ := closing_of_diff (reach_diffAcks hreach j) hflight
    have hpid := reach_homepid hb.hMig hreach j hp
    obtain ⟨c', hat', hcopy⟩ := served_copy hb.hMig hb.wVec
      (reach_cacheInverse (reach_cacheSystem hb.prefetchFlag hreach j)) (reach_remoteOk hb hreach j)
      (reach_copyMsg hb hreach hnet) hp (by rw [hpid]; exact Ne.symm haway) hat hm
    rw [State.put_host_same]
    cases hcopy with
    | keep _ _ hcur => exact ⟨c, hat', by rw [hds, hcur]⟩
    | install w =>
        cases hat with
        | faulting _ _ _ _ _ hpcw => exact absurd hpcw (not_fault_of_closing hclosing w)
    | drop _ _ hwaits =>
        rcases hwaits with ⟨l, hpc⟩ | hpc <;> rw [hpc] at hclosing <;> cases hclosing
  · rw [State.put_host_of_ne _ _ _ hj]
    exact ⟨c, hat, hds⟩

end Steps

/-- A diff on its way has what its sender has written. -/
theorem reach_diffsOf (hb : cfg.Basic) {s : State} (hs : (system cfg).Reach s) {i p : Nat}
    (hp : p < cfg.npages) (haway : i ≠ cfg.layout.owner p) : DiffsOf cfg s i p := by
  refine hs.invariant (I := fun s => DiffsOf cfg s i p) ⟨fun ds hmem => ?_⟩ ?_
  · cases hmem
  intro s e s' hreach hinv hnext
  rcases step_view hnext with ⟨j, act, hst, out, -, hi, hm, -, rfl⟩ |
    ⟨src, dst, rnd, msg, rest, hst, out, -, hnet, hm, -, rfl⟩
  · exact diffsOf_main hb hreach hp hm haway hinv
  · exact diffsOf_served hb hreach hp hnet hm haway hinv

end Jiajia
