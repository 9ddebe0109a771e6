import Jiajia.Announce
import Jiajia.Lib.BulkSync

/-!
# One word on all hosts

A word of a page on a host that is not its home: as the host fetched it or opened it
for writing.  A written copy counts as such until its diff has been handled.
-/

namespace Jiajia

open Fifo Transition Host MemState Rounds

variable {cfg : Config}

/-! ## Requests in runs -/

theorem reach_request (hb : cfg.Basic) {s : State} (hs : (system cfg).Reach s) {a b : Nat}
    {msg : Msg} (hmem : msg ∈ s.net a b) (hreq : msg.isRequest = true) :
    a < cfg.hostc ∧ (msg.isDiff = true → a ≠ b) := by
  have hall : Routed cfg a b msg ∧
      (msg.isRequest = true → a < cfg.hostc ∧ (msg.isDiff = true → a ≠ b)) := by
    refine reach_net (P := fun a b msg => Routed cfg a b msg ∧
      (msg.isRequest = true → a < cfg.hostc ∧ (msg.isDiff = true → a ≠ b))) ?_ ?_ hs hmem
    · intro s i act h' out hreach hi hm k msg hout
      refine ⟨(main_routed (reach_stackOk hreach i) hm hout).2, fun _ => ⟨hi, ?_⟩⟩
      intro hdiff
      rintro rfl
      cases msg with
      | diff ds =>
          -- a page whose home is the host has no slot
          obtain ⟨-, hne, rfl, -⟩ := main_diff hm hout
          obtain ⟨c, hc⟩ := List.exists_mem_of_ne_nil _ (List.map_eq_nil_iff.not.mp hne)
          obtain ⟨hlt, hw, hhome⟩ := mem_dirtySlots.mp hc
          have hcs := List.mem_range.mp hlt
          have hi := reach_cacheInverse (reach_cacheSystem hb.prefetchFlag hreach i)
          have hused : ((s.host i).m.cache c).state ≠ .unmap := by
            intro hst
            rw [hi.wtnt c hcs hst] at hw
            cases hw
          obtain ⟨q, hq, hqc, ha⟩ := hi.toLinked.owner hcs hused
          rw [homehost, ha, cfg.pagei_pageAddr hq] at hhome
          have hslot := hi.home q hq hhome
          omega
      | _ => cases hdiff
    · intro s src dst rnd msg h' out hreach hin hm k msg' hout
      obtain ⟨hreq, hrouted⟩ := served_routed hin.1 hm hout
      refine ⟨hrouted, fun hreq' => ?_⟩
      rw [hreq] at hreq'
      cases hreq'
  exact hall.2 hreq

theorem maskPage_full (pg old : Page) : maskPage WVFULL pg old = pg := by
  funext u
  have hlt : u.val / Blockunits < Wvbits :=
    Nat.div_lt_of_lt_mul (lt_of_lt_of_eq u.isLt (by decide))
  simp [maskPage, hlt]

theorem getpserver_data {pid src : Nat} {m m' : MemState} {addr : Addr} {temp : Bool} {out : Out}
    (hb : cfg.Basic) (h : m.getpserver cfg pid src addr temp = .ok (m', out)) :
    out = [(src, .getpgrant addr WVFULL (m.mem (cfg.pagei addr)) [])] := by
  unfold getpserver at h
  simp only at h
  split at h
  · cases h
  · simp only [bind_eq_ok, Prod.exists, pure, Except.pure, Except.ok.injEq, Prod.mk.injEq] at h
    obtain ⟨-, -, -, -, m₁, hrenew, m₂, ps, hpre, m₃, pg, hcopy, m₄, xs, hxs, -, -, rfl, rfl⟩ := h
    have hwv : ∀ wv : BitVec Wvbits, (if cfg.wVec = true ∧ temp = true then wv else WVFULL) = WVFULL :=
      fun wv => if_neg (by simp [hb.wVec])
    rw [hwv] at hcopy ⊢
    have h₁ := inert_renewTwin hrenew
    have hset : Inert m₁ (m₁.setHome (m.homepage cfg addr)
        { m₁.home (m.homepage cfg addr) with rdnt := true }) := ⟨rfl, rfl⟩
    have h₂ := h₁.trans (hset.trans (inert_prefetch hpre))
    have hps : ps = [] := by
      unfold prefetch at hpre
      rw [if_neg (by simp [hb.prefetchFlag]), Except.ok.injEq, Prod.mk.injEq] at hpre
      exact hpre.2.symm
    subst hps
    simp only [copyPages, Except.ok.injEq, Prod.mk.injEq] at hxs
    obtain ⟨-, rfl⟩ := hxs
    rw [maskPage_full, (inert_copyUnless hcopy).2 (by decide), h₂.mem]

/-! ## What a host shows -/

/-- A DIFF for the home of page `p` is on its way from host `i`. -/
def Flushing (cfg : Config) (s : State) (p i : Nat) : Prop :=
  ∃ ds, Msg.diff ds ∈ s.net i (cfg.layout.owner p)

/-- The home has not handled what host `i` has written in this interval. -/
def Unflushed (cfg : Config) (s : State) (p i : Nat) : Prop :=
  Running (s.host i) ∨ Flushing cfg s p i

/-- What host `i` shows of word `u` of page `p`, for each state of its copy. -/
inductive Shows (cfg : Config) (s : State) (p : Nat) (u : Fin Pageunits) (i : Nat) :
    CopyState → BulkSync.Copy Word → Prop
  | absent : Shows cfg s p u i .absent .none
  | invalid : Shows cfg s p u i .invalid .none
  | clean : Shows cfg s p u i .clean (.clean ((s.host i).m.mem p u))
  | dirty (twin : Page) (hopen : Unflushed cfg s p i) :
      Shows cfg s p u i (.dirty twin) (.dirty ((s.host i).m.mem p u) (twin u))
  | flushed (twin : Page) (hdone : ¬ Unflushed cfg s p i) :
      Shows cfg s p u i (.dirty twin) (.clean ((s.host i).m.mem p u))
  | asked (w : FaultWait) (hwait : (s.host i).m.getpwait = true)
      (hnone : ∀ a, (s.net a i).filter Msg.isGetpgrant = []) : Shows cfg s p u i (.faulting w) .none
  | answered (w : FaultWait) (a : Nat) (wv : BitVec Wvbits) (data : Page)
      (hwait : (s.host i).m.getpwait = true)
      (hmsg : Msg.getpgrant (cfg.pageAddr p) wv data [] ∈ s.net a i) :
      Shows cfg s p u i (.faulting w) (.clean (data u))
  | here (w : FaultWait) (hwait : (s.host i).m.getpwait = false) :
      Shows cfg s p u i (.faulting w) (.clean ((s.host i).m.mem p u))

/-- The replies that matter to what host `i` shows of page `p` stay. -/
structure SameReplies (cfg : Config) (p i : Nat) (s s' : State) : Prop where
  none : (s.host i).Awaits p → (∀ a, (s.net a i).filter Msg.isGetpgrant = []) →
    ∀ a, (s'.net a i).filter Msg.isGetpgrant = []
  reply : ∀ a wv data, Msg.getpgrant (cfg.pageAddr p) wv data [] ∈ s.net a i →
    Msg.getpgrant (cfg.pageAddr p) wv data [] ∈ s'.net a i

section Shows

variable {s s' : State} {p i : Nat} {u : Fin Pageunits} {c : CopyState} {v : BulkSync.Copy Word}

theorem Shows.congr (hat : CopyAt cfg (s.host i) p c) (hs : Shows cfg s p u i c v)
    (hreplies : SameReplies cfg p i s s')
    (hmem : c ≠ .absent → (s'.host i).m.mem p u = (s.host i).m.mem p u)
    (hwait : (∃ w, c = .faulting w) → (s'.host i).m.getpwait = (s.host i).m.getpwait)
    (hopen : (∃ twin, c = .dirty twin) → (Unflushed cfg s' p i ↔ Unflushed cfg s p i)) :
    Shows cfg s' p u i c v := by
  cases hs with
  | absent => exact .absent
  | invalid => exact .invalid
  | clean =>
      rw [← hmem nofun]
      exact .clean
  | dirty twin h =>
      rw [← hmem nofun]
      exact .dirty twin ((hopen ⟨twin, rfl⟩).mpr h)
  | flushed twin h =>
      rw [← hmem nofun]
      exact .flushed twin ((hopen ⟨twin, rfl⟩).not.mpr h)
  | asked w h hnone =>
      cases hat with
      | faulting _ _ _ _ _ hpc hpage =>
          exact .asked w ((hwait ⟨w, rfl⟩).trans h) (hreplies.none ⟨w, hpc, hpage, h⟩ hnone)
  | answered w a wv data h hmsg =>
      exact .answered w a wv data ((hwait ⟨w, rfl⟩).trans h) (hreplies.reply a wv data hmsg)
  | here w h =>
      rw [← hmem nofun]
      exact .here w ((hwait ⟨w, rfl⟩).trans h)

theorem Shows.other (hat : CopyAt cfg (s.host i) p c) (hs : Shows cfg s p u i c v)
    (hhost : s'.host i = s.host i) (hreplies : SameReplies cfg p i s s')
    (hflush : Flushing cfg s' p i ↔ Flushing cfg s p i) : Shows cfg s' p u i c v := by
  refine hs.congr hat hreplies (fun _ => by rw [hhost]) (fun _ => by rw [hhost]) fun _ => ?_
  unfold Unflushed
  rw [hhost, hflush]

end Shows

/-! ## Steps of main threads -/

section Main

variable {s : State} {p i j : Nat} {u : Fin Pageunits} {a : Act} {hst : Host} {out : Out}
  {c : CopyState} {v : BulkSync.Copy Word}

theorem main_sends_no_page (hstack : StackOk (s.host i)) (hm : Main cfg i (s.host i) a hst out) :
    ∀ y ∈ out, y.2.isGetpgrant = false := by
  intro y hy
  have hreq := (main_routed hstack hm hy).1
  cases hmsg : y.2 <;> first | rfl | (rw [hmsg] at hreq; cases hreq)

theorem replies_main (hstack : StackOk (s.host i)) (hm : Main cfg i (s.host i) a hst out) :
    SameReplies cfg p j s (s.put i hst out) := by
  constructor
  · intro _ hnone b
    rw [State.put_net, filter_send_quiet (main_sends_no_page hstack hm)]
    exact hnone b
  · intro b wv data hmsg
    rw [State.put_net]
    exact mem_send.mpr (Or.inl hmsg)

theorem flushing_main_other (hj : j ≠ i) :
    Flushing cfg (s.put i hst out) p j ↔ Flushing cfg s p j := by
  unfold Flushing
  rw [State.put_net, send_of_ne _ _ _ hj]

theorem flushing_of_end {twin : Page} (hb : cfg.Basic) (hreach : (system cfg).Reach s)
    (hp : p < cfg.npages) (hat : CopyAt cfg (s.host i) p (.dirty twin))
    (hm : Main cfg i (s.host i) a hst out) (hrun : Running (s.host i)) (hno : ¬ Running hst) :
    Flushing cfg (s.put i hst out) p i := by
  obtain ⟨op, y, dm, hsave, rfl, -⟩ := main_ends hm hrun hno
  have hpid := reach_homepid hb.hMig hreach i hp
  have hi := reach_cacheInverse (reach_cacheSystem hb.prefetchFlag hreach i)
  cases hat with
  | dirty _ hc hst' hw =>
      have hne : dm (cfg.layout.owner p) ≠ [] := by
        have hslot : ((s.host i).m.page p).cachei ∈
            dirtySlots cfg (s.host i).m (cfg.layout.owner p) (List.range cfg.cachepages) := by
          refine mem_dirtySlots.mpr ⟨List.mem_range.mpr hc, hw, ?_⟩
          rw [homehost, ((hi.slot p hp _ hc).mp rfl).2, cfg.pagei_pageAddr hp, hpid]
        rw [savepages_diffs hsave, List.nil_append]
        exact List.map_eq_nil_iff.not.mpr (List.ne_nil_of_mem hslot)
      refine ⟨dm (cfg.layout.owner p), ?_⟩
      rw [State.put_net]
      refine mem_send.mpr (Or.inr ⟨rfl, ?_⟩)
      exact mem_senddiffs.mpr ⟨_, cfg.layout.owner_lt p hp, hne, rfl⟩

theorem unflushed_main {twin : Page} (hb : cfg.Basic) (hreach : (system cfg).Reach s)
    (hp : p < cfg.npages) (hat : CopyAt cfg (s.host i) p (.dirty twin))
    (hm : Main cfg i (s.host i) a hst out) (hrun : Running hst → Running (s.host i)) :
    Unflushed cfg (s.put i hst out) p i ↔ Unflushed cfg s p i := by
  have hput : (s.put i hst out).host i = hst := State.put_host_same _ _ _ _
  unfold Unflushed
  rw [hput]
  constructor
  · rintro (hr | ⟨ds, hds⟩)
    · exact Or.inl (hrun hr)
    · rw [State.put_net] at hds
      rcases mem_send.mp hds with hold | ⟨-, hnew⟩
      · exact Or.inr ⟨ds, hold⟩
      · exact Or.inl (Or.inl (main_diff hm hnew).1)
  · rintro (hr | ⟨ds, hds⟩)
    · by_cases hr' : Running hst
      · exact Or.inl hr'
      · exact Or.inr (flushing_of_end hb hreach hp hat hm hr hr')
    · refine Or.inr ⟨ds, ?_⟩
      rw [State.put_net]
      exact mem_send.mpr (Or.inl hds)

/-- Only a store to the word and a fresh mapping of its page change it. -/
theorem contentsAfter_word {pid : Nat} {m : MemState} (hno : ∀ w, a ≠ .store p u w)
    (hslot : (m.page p).homepid = pid ∨ (m.page p).cachei < cfg.cachepages) :
    contentsAfter cfg pid m a p u = m.mem p u := by
  cases a with
  | store q u' w =>
      by_cases hq : p = q
      · subst hq
        have hu : u ≠ u' := by
          rintro rfl
          exact hno w rfl
        simp [contentsAfter, hu]
      · simp [contentsAfter, hq]
  | fault q write seti =>
      simp only [contentsAfter]
      split
      · rfl
      · rename_i hmap
        have hq : p ≠ q := by
          rintro rfl
          exact hmap hslot
        rw [upd_of_ne _ _ hq]
  | _ => rfl

theorem CopyAt.slot_lt {h : Host} (hat : CopyAt cfg h p c) (hc : c ≠ .absent) :
    (h.m.page p).cachei < cfg.cachepages := by
  cases hat with
  | absent => exact absurd rfl hc
  | invalid hlt => exact hlt
  | clean hlt => exact hlt
  | dirty _ hlt => exact hlt
  | faulting _ hlt => exact hlt

/-- What a step of the main thread of a host does to what the host shows. -/
inductive MainShown (cfg : Config) (p : Nat) (u : Fin Pageunits) (h hst : Host) (a : Act) :
    BulkSync.Copy Word → BulkSync.Copy Word → Prop
  | same (v : BulkSync.Copy Word) (hno : ∀ w, a ≠ .store p u w) : MainShown cfg p u h hst a v v
  | store (w v base : Word) (hrun : Running h) (ha : a = .store p u w) :
      MainShown cfg p u h hst a (.dirty v base) (.dirty w base)
  | openCopy (v : Word) (hno : ∀ w, a ≠ .store p u w) (hrun : Running h)
      (hrun' : Running hst) (hw : Written cfg hst.m p) :
      MainShown cfg p u h hst a (.clean v) (.dirty v v)
  | drop (v : BulkSync.Copy Word) (hno : ∀ w, a ≠ .store p u w)
      (hv : ∀ w base, v ≠ .dirty w base) : MainShown cfg p u h hst a v .none

theorem CopyAt.written {twin : Page} {pid : Nat} {h : Host} (hi : CacheInverse cfg pid h.m)
    (hp : p < cfg.npages) (hat : CopyAt cfg h p (.dirty twin)) : Written cfg h.m p := by
  cases hat with
  | dirty _ hc hst hw => exact ⟨_, hc, hw, hst, ((hi.slot p hp _ hc).mp rfl).2⟩

theorem shows_store {w : Word} (hat : CopyAt cfg (s.host i) p c) (hv : Shows cfg s p u i c v)
    (hm : Main cfg i (s.host i) (.store p u w) hst out) :
    CopyAt cfg hst p c ∧ ∃ v', Shows cfg (s.put i hst out) p u i c v' ∧
      MainShown cfg p u (s.host i) hst (.store p u w) v v' := by
  have hput : (s.put i hst out).host i = hst := State.put_host_same _ _ _ _
  cases hm with
  | single _ _ ha => rcases ha with ha | ha <;> cases ha
  | start _ _ ha => cases ha
  | store hpc hlt hprot =>
      have hrun : Running (s.host i) := Or.inl hpc
      refine ⟨hat.congr ⟨rfl, rfl, rfl⟩ fun _ _ => Iff.rfl, ?_⟩
      have hcur : ((s.put i { s.host i with m := (s.host i).m.setMem p fun u' =>
          if u' = u then w else (s.host i).m.mem p u' } []).host i).m.mem p u = w := by
        rw [hput]
        simp
      cases hat with
      | absent _ hprot' => rw [hprot] at hprot'; cases hprot'
      | invalid _ _ _ hprot' => rw [hprot] at hprot'; cases hprot'
      | clean _ _ _ hprot' => rw [hprot] at hprot'; cases hprot'
      | faulting _ _ _ _ _ hpcw => rw [hpc] at hpcw; cases hpcw
      | dirty twin =>
          cases hv with
          | flushed _ hdone => exact absurd (Or.inl hrun) hdone
          | dirty =>
              refine ⟨_, .dirty twin (Or.inl ?_), ?_⟩
              · rw [hput]
                exact Or.inl hpc
              · rw [hcur]
                exact .store w _ _ hrun rfl

theorem shows_main (hb : cfg.Basic) (hreach : (system cfg).Reach s)
    (hreach' : (system cfg).Reach (s.put i hst out)) (hp : p < cfg.npages)
    (haway : i ≠ cfg.layout.owner p) (hat : CopyAt cfg (s.host i) p c)
    (hv : Shows cfg s p u i c v) (hm : Main cfg i (s.host i) a hst out) :
    ∃ c' v', CopyAt cfg hst p c' ∧ Shows cfg (s.put i hst out) p u i c' v' ∧
      MainShown cfg p u (s.host i) hst a v v' := by
  have hput : (s.put i hst out).host i = hst := State.put_host_same _ _ _ _
  by_cases hstore : ∃ w, a = .store p u w
  · obtain ⟨w, rfl⟩ := hstore
    obtain ⟨hat', v', hv', hshown⟩ := shows_store hat hv hm
    exact ⟨c, v', hat', hv', hshown⟩
  have hno : ∀ w, a ≠ .store p u w := fun w ha => hstore ⟨w, ha⟩
  have hstack := reach_stackOk hreach i
  have hpid : ((s.host i).m.page p).homepid ≠ i := by
    rw [reach_homepid hb.hMig hreach i hp]
    exact Ne.symm haway
  have hword : c ≠ .absent →
      ((s.put i hst out).host i).m.mem p u = (s.host i).m.mem p u := by
    intro hc
    rw [hput, (main_contents hm).1]
    exact contentsAfter_word hno (Or.inr (hat.slot_lt hc))
  obtain ⟨c', hat', hcopy⟩ := main_copy hb.hMig
    (reach_cacheInverse (reach_cacheSystem hb.prefetchFlag hreach i)) ((reach_pages hreach).host i)
    (reach_remoteOk hb hreach i) hp hpid hat hm
  cases hcopy with
  | keep _ hfault hrun =>
      refine ⟨c, v, hat', ?_, .same v hno⟩
      refine hv.congr hat (replies_main hstack hm) hword ?_ ?_
      · rintro ⟨w, rfl⟩
        exact absurd rfl (hfault w)
      · rintro ⟨twin, rfl⟩
        exact unflushed_main hb hreach hp hat hm (hrun ⟨twin, rfl⟩)
  | ask _ w temp hc hwait hout =>
      have hnone : v = .none := by
        rcases hc with rfl | rfl <;> cases hv <;> rfl
      subst hnone
      refine ⟨_, .none, hat', .asked w (by rw [hput]; exact hwait) ?_, .same _ hno⟩
      -- the request is on its way, so no answer is
      have hask : Msg.getp (cfg.pageAddr p) temp ∈
          ((s.put i hst out).net i ((s.host i).m.page p).homepid).filter Msg.isGetp := by
        rw [List.mem_filter, State.put_net]
        refine ⟨mem_send.mpr (Or.inr ⟨rfl, ?_⟩), rfl⟩
        rw [hout]
        exact List.mem_singleton_self _
      cases reach_fetching hreach' i with
      | idle hidle =>
          rw [hput, hwait] at hidle
          cases hidle
      | asked _ _ _ _ _ _ _ hans => exact hans
      | answered _ _ _ _ _ _ _ hnoask =>
          rw [hnoask] at hask
          cases hask
  | openCopy w hw hpc hwait hout =>
      have hidle : (s.host i).m.getpwait = false := by
        cases reach_fetching hreach i with
        | idle hidle => exact hidle
        | asked _ _ _ hpcw => rw [hpc] at hpcw; cases hpcw
        | answered _ _ _ _ _ hpcw => rw [hpc] at hpcw; cases hpcw
      cases hv with
      | clean =>
          refine ⟨_, _, hat', .here w (by rw [hput, hwait, hidle]), ?_⟩
          rw [hword nofun]
          exact .same _ hno
  | evict _ hc =>
      refine ⟨_, _, hat', .absent, .drop v hno ?_⟩
      rintro w base rfl
      rcases hc with rfl | rfl <;> cases hv
  | finish w hwait hrun' =>
      have hrun : Running (s.host i) := by
        cases hat with
        | faulting _ _ _ _ _ hpc => exact Or.inr (Or.inl ⟨w, hpc⟩)
      cases hv with
      | asked _ hset => rw [hwait] at hset; cases hset
      | answered _ _ _ _ hset => rw [hwait] at hset; cases hset
      | here =>
          cases hw : w.writefault with
          | true =>
              rw [hw, if_pos rfl] at hat'
              refine ⟨_, _, hat', .dirty _ (Or.inl ?_), ?_⟩
              · rw [hput]
                exact hrun'
              · have hi := reach_cacheInverse (reach_cacheSystem hb.prefetchFlag hreach' i)
                rw [hput] at hi
                rw [hword nofun]
                exact .openCopy _ hno hrun hrun' (hat'.written hi hp)
          | false =>
              rw [hw, if_neg Bool.false_ne_true] at hat'
              refine ⟨_, _, hat', .clean, ?_⟩
              rw [hword nofun]
              exact .same _ hno
  | renew twin hrun hrun' =>
      cases hv with
      | dirty _ hopen =>
          -- a DIFF on its way holds the main thread
          rcases hopen with hr | ⟨ds, hds⟩
          · exact absurd hr hrun
          · obtain ⟨hclosing, hwait⟩ := closing_of_diff (reach_diffAcks hreach i) hds
            exact absurd hrun' (not_running rfl (main_waits (p := p) hclosing hwait hm).2.2)
      | flushed =>
          refine ⟨_, _, hat', .clean, ?_⟩
          rw [hword nofun]
          exact .same _ hno

end Main

/-! ## Steps of server threads -/

section Served

variable {s : State} {p i src dst : Nat} {u : Fin Pageunits} {rnd : List Nat} {msg : Msg}
  {rest : List Msg} {hst : Host} {out : Out} {c : CopyState} {v : BulkSync.Copy Word}

/-- A request on its way is for the page the main thread waits for, and no answer is. -/
theorem Fetching.request {addr : Addr} {temp : Bool} {b : Nat} (hf : Fetching cfg s i)
    (hmem : Msg.getp addr temp ∈ s.net i b) :
    ∃ w, (s.host i).pc = .fault w ∧ (s.host i).m.getpwait = true ∧
      addr = cfg.pageAddr w.page ∧ ∀ a, (s.net a i).filter Msg.isGetpgrant = [] := by
  have hin : Msg.getp addr temp ∈ (s.net i b).filter Msg.isGetp := List.mem_filter.mpr ⟨hmem, rfl⟩
  cases hf with
  | idle _ hask => rw [hask b] at hin; cases hin
  | answered _ _ _ _ _ _ _ hask => rw [hask b] at hin; cases hin
  | asked w b' temp' hpc hwait hone hask hans =>
      refine ⟨w, hpc, hwait, ?_, hans⟩
      by_cases hb : b = b'
      · subst hb
        rw [hone, List.mem_singleton] at hin
        exact (Msg.getp.inj hin).1
      · rw [hask b hb] at hin
        cases hin

theorem Fetching.reply_unique {a b : Nat} {m m' : Msg} (hf : Fetching cfg s i) (hm : m ∈ s.net a i)
    (hm' : m' ∈ s.net b i) (his : m.isGetpgrant = true) (his' : m'.isGetpgrant = true) : m = m' := by
  have hin : m ∈ (s.net a i).filter Msg.isGetpgrant := List.mem_filter.mpr ⟨hm, his⟩
  have hin' : m' ∈ (s.net b i).filter Msg.isGetpgrant := List.mem_filter.mpr ⟨hm', his'⟩
  cases hf with
  | idle _ _ hans => rw [hans a] at hin; cases hin
  | asked _ _ _ _ _ _ _ hans => rw [hans a] at hin; cases hin
  | answered w a' wv data xs hpc hwait hask hone hans =>
      have hone' : ∀ {a : Nat} {m : Msg}, m ∈ (s.net a i).filter Msg.isGetpgrant →
          m = .getpgrant (cfg.pageAddr w.page) wv data xs := by
        intro a m hin
        by_cases ha : a = a'
        · subst ha
          rw [hone, List.mem_singleton] at hin
          exact hin
        · rw [hans a ha] at hin
          cases hin
      rw [hone' hin, hone' hin']

theorem served_replies (hin : Routed cfg src dst msg)
    (hm : Served cfg dst (s.host dst) src rnd msg hst out) :
    ∀ y ∈ out, y.2.isGetpgrant = true → y.1 = src ∧ ∃ addr temp, msg = .getp addr temp := by
  intro y hy his
  have hquiet : (∀ y ∈ out, y.2.isAnswer = false) →
      y.1 = src ∧ ∃ addr temp, msg = .getp addr temp := by
    intro hout
    have hno := hout y hy
    cases hmsg : y.2 <;> rw [hmsg] at his hno <;> first | (cases his; done) | cases hno
  have hc := served_contents hin hm
  generalize hst.m = m' at hc
  cases hc with
  | inert hi hmsg hans hgetp hout => exact hquiet hout
  | diff => rw [List.mem_singleton.mp hy] at his; cases his
  | diffgrant => cases hy
  | getpgrant => cases hy
  | getp hm hi =>
      obtain ⟨wv, data, extra, rfl⟩ := getpserver_out hm
      rw [List.mem_singleton.mp hy]
      exact ⟨rfl, _, _, rfl⟩

theorem replies_served (hfetch : Fetching cfg s i) (hnet : s.net src dst = msg :: rest)
    (hin : Routed cfg src dst msg) (hm : Served cfg dst (s.host dst) src rnd msg hst out)
    (hask : src = i → ∀ temp, (s.host i).Awaits p → msg ≠ .getp (cfg.pageAddr p) temp)
    (hans : dst = i → ∀ wv data, msg ≠ .getpgrant (cfg.pageAddr p) wv data []) :
    SameReplies cfg p i s ({ s with net := drop s.net src dst }.put dst hst out) := by
  constructor
  · intro hwaits hnone a
    rw [State.put_net, List.filter_eq_nil_iff]
    intro m hmem his
    rcases mem_send.mp hmem with hold | ⟨-, hnew⟩
    · have hold' : m ∈ (s.net a i).filter Msg.isGetpgrant :=
        List.mem_filter.mpr ⟨mem_of_mem_drop hold, his⟩
      rw [hnone a] at hold'
      cases hold'
    · -- the answer to a request of host `i`, which asks for page `p` only
      obtain ⟨rfl, addr, temp, rfl⟩ := served_replies hin hm _ hnew his
      have hreq : Msg.getp addr temp ∈ s.net i dst := by
        rw [hnet]
        exact List.mem_cons_self
      obtain ⟨w, hpc, -, rfl, -⟩ := hfetch.request hreq
      obtain ⟨w', hpc', hpage, hset⟩ := hwaits
      rw [hpc, Pc.fault.injEq] at hpc'
      subst hpc'
      subst hpage
      exact hask rfl temp ⟨w, hpc, rfl, hset⟩ rfl
  · intro a wv data hmem
    rw [State.put_net]
    exact mem_send.mpr (Or.inl (mem_drop_of_mem hnet hmem fun _ hd => Ne.symm (hans hd.symm wv data)))

theorem flushing_served (hnet : s.net src dst = msg :: rest) (hin : Routed cfg src dst msg)
    (hm : Served cfg dst (s.host dst) src rnd msg hst out)
    (hno : src = i → dst = cfg.layout.owner p → msg.isDiff = false) :
    Flushing cfg ({ s with net := drop s.net src dst }.put dst hst out) p i ↔
      Flushing cfg s p i := by
  unfold Flushing
  rw [State.put_net]
  constructor
  · rintro ⟨ds, hds⟩
    refine ⟨ds, ?_⟩
    rcases mem_send.mp hds with hold | ⟨-, hnew⟩
    · exact mem_of_mem_drop hold
    · have hreq := (served_routed hin hm hnew).1
      cases hreq
  · rintro ⟨ds, hds⟩
    refine ⟨ds, mem_send.mpr (Or.inl (mem_drop_of_mem hnet hds ?_))⟩
    rintro ha hd rfl
    cases hno ha.symm hd.symm

/-- A host that handles no message and whose own one is no request for the page and no
DIFF for its home shows what it showed. -/
theorem shows_served_other (hreach : (system cfg).Reach s) (hat : CopyAt cfg (s.host i) p c)
    (hv : Shows cfg s p u i c v) (hnet : s.net src dst = msg :: rest)
    (hm : Served cfg dst (s.host dst) src rnd msg hst out) (hi : i ≠ dst)
    (hask : src = i → ∀ temp, msg ≠ .getp (cfg.pageAddr p) temp)
    (hdiff : src = i → dst = cfg.layout.owner p → msg.isDiff = false) :
    Shows cfg ({ s with net := drop s.net src dst }.put dst hst out) p u i c v := by
  have hin := reach_routed hreach (by rw [hnet]; exact List.mem_cons_self : msg ∈ s.net src dst)
  exact hv.other hat (State.put_host_of_ne _ _ _ hi)
    (replies_served (reach_fetching hreach i) hnet hin hm (fun hs temp _ => hask hs temp)
      fun hd => absurd hd.symm hi)
    (flushing_served hnet hin hm hdiff)

theorem Host.Waits.flushed (hreach : (system cfg).Reach s) (hw : (s.host i).Waits) :
    ¬ Unflushed cfg s p i := by
  rintro (hr | ⟨ds, hds⟩)
  · exact hr.not_waits hw
  · obtain ⟨hclosing, -⟩ := closing_of_diff (reach_diffAcks hreach i) hds
    rcases hw with ⟨l, hpc⟩ | hpc <;> rw [hpc] at hclosing <;> cases hclosing

theorem shows_served_self (hb : cfg.Basic) (hreach : (system cfg).Reach s) (hp : p < cfg.npages)
    (haway : i ≠ cfg.layout.owner p) (hat : CopyAt cfg (s.host i) p c)
    (hv : Shows cfg s p u i c v) (hnet : s.net src i = msg :: rest)
    (hm : Served cfg i (s.host i) src rnd msg hst out) :
    ∃ c' v', CopyAt cfg hst p c' ∧
      Shows cfg ({ s with net := drop s.net src i }.put i hst out) p u i c' v' ∧
      (v' = v ∨ v' = .none ∧ ∀ w base, v ≠ .dirty w base) := by
  have hput : ({ s with net := drop s.net src i }.put i hst out).host i = hst :=
    State.put_host_same _ _ _ _
  have hmem : msg ∈ s.net src i := by
    rw [hnet]
    exact List.mem_cons_self
  have hin := reach_routed hreach hmem
  have hpid := reach_homepid hb.hMig hreach i hp
  have hfetch := reach_fetching hreach i
  obtain ⟨c', hat', hcopy⟩ := served_copy hb.hMig hb.wVec
    (reach_cacheInverse (reach_cacheSystem hb.prefetchFlag hreach i)) (reach_remoteOk hb hreach i)
    (reach_copyMsg hb hreach hnet) hp (by rw [hpid]; exact Ne.symm haway) hat hm
  cases hcopy with
  | keep _ hmsg hcur hwait =>
      refine ⟨c, v, hat', ?_, Or.inl rfl⟩
      refine hv.congr hat (replies_served hfetch hnet hin hm ?_ fun _ => hmsg)
        (fun _ => by rw [hput, hcur]) ?_ ?_
      · -- the home would be host `i` itself
        rintro rfl temp - rfl
        cases hm with
        | getp hm =>
            have hown := (getpserver_ok hm).own
            rw [MemState.homehost, cfg.pagei_pageAddr hp, hpid] at hown
            exact haway hown.symm
      · rintro ⟨w, rfl⟩
        rw [hput]
        exact hwait.resolve_right fun hno => hno w rfl
      · rintro ⟨twin, rfl⟩
        unfold Unflushed
        rw [hput, flushing_served hnet hin hm fun _ hd => absurd hd haway]
        have hrun : Running hst ↔ Running (s.host i) := by
          unfold Running
          rw [(served_stack hm).1]
        rw [hrun]
  | install w wv data hmsg hcur hwait =>
      subst hmsg
      refine ⟨_, _, hat', .here w (by rw [hput, hwait]), Or.inl ?_⟩
      rw [hput, hcur]
      cases hv with
      | asked _ _ hnone =>
          have hans : Msg.getpgrant (cfg.pageAddr p) wv data [] ∈
              (s.net src i).filter Msg.isGetpgrant := List.mem_filter.mpr ⟨hmem, rfl⟩
          rw [hnone src] at hans
          cases hans
      | answered _ a wv' data' _ hmsg' =>
          have heq := hfetch.reply_unique hmem hmsg' rfl rfl
          rw [(Msg.getpgrant.inj heq).2.2.1]
      | here _ hidle =>
          obtain ⟨-, -, hset, -⟩ := hfetch.reply hmem
          rw [hidle] at hset
          cases hset
  | drop _ hc hw =>
      refine ⟨_, _, hat', .invalid, Or.inr ⟨rfl, ?_⟩⟩
      rintro w base rfl
      cases hv with
      | dirty _ hopen => exact hw.flushed hreach hopen

theorem shows_fetch (hb : cfg.Basic) (hreach : (system cfg).Reach s) (hp : p < cfg.npages)
    (haway : i ≠ cfg.layout.owner p) (hat : CopyAt cfg (s.host i) p c)
    (hv : Shows cfg s p u i c v) {temp : Bool}
    (hnet : s.net i dst = .getp (cfg.pageAddr p) temp :: rest)
    (hm : Served cfg dst (s.host dst) i rnd (.getp (cfg.pageAddr p) temp) hst out) :
    dst = cfg.layout.owner p ∧ v = .none ∧ Running (s.host i) ∧
      Shows cfg ({ s with net := drop s.net i dst }.put dst hst out) p u i c
        (.clean ((s.host dst).m.mem p u)) := by
  have hmem : Msg.getp (cfg.pageAddr p) temp ∈ s.net i dst := by
    rw [hnet]
    exact List.mem_cons_self
  obtain ⟨w, hpc, hwait, ha, hnone⟩ := (reach_fetching hreach i).request hmem
  obtain ⟨hlt, -⟩ := (reach_remoteOk hb hreach i).fault w hpc
  obtain rfl := hat.of_fault hpc (cfg.pageAddr_inj hlt hp ha.symm)
  cases hm with
  | getp hm =>
      have hown := (getpserver_ok hm).own
      rw [MemState.homehost, cfg.pagei_pageAddr hp, reach_homepid hb.hMig hreach dst hp] at hown
      subst hown
      refine ⟨rfl, ?_, Or.inr (Or.inl ⟨w, hpc⟩), ?_⟩
      · cases hv with
        | asked => rfl
        | answered _ a wv data _ hmsg =>
            have hans : Msg.getpgrant (cfg.pageAddr p) wv data [] ∈
                (s.net a i).filter Msg.isGetpgrant := List.mem_filter.mpr ⟨hmsg, rfl⟩
            rw [hnone a] at hans
            cases hans
        | here _ hidle =>
            rw [hwait] at hidle
            cases hidle
      · obtain rfl := getpserver_data hb hm
        rw [cfg.pagei_pageAddr hp]
        refine .answered w (cfg.layout.owner p) WVFULL _ ?_ ?_
        · rw [State.put_host_of_ne _ _ _ haway]
          exact hwait
        · rw [State.put_net]
          exact mem_send.mpr (Or.inr ⟨rfl, List.mem_singleton_self _⟩)

/-- The home handles the DIFF of host `i`: it takes over what the host has written. -/
theorem shows_flush (hb : cfg.Basic) (hreach : (system cfg).Reach s) (hp : p < cfg.npages)
    (haway : i ≠ cfg.layout.owner p) (hat : CopyAt cfg (s.host i) p c)
    (hv : Shows cfg s p u i c v) {ds : List PageDiff}
    (hnet : s.net i (cfg.layout.owner p) = .diff ds :: rest)
    (hm : Served cfg (cfg.layout.owner p) (s.host (cfg.layout.owner p)) i rnd (.diff ds) hst out) :
    (s.host i).pc.closing = true ∧ ∃ v',
      Shows cfg ({ s with net := drop s.net i (cfg.layout.owner p) }.put (cfg.layout.owner p) hst out)
        p u i c v' ∧
      ((∀ w base, v ≠ .dirty w base) ∧ v' = v ∧
          hst.m.mem p u = (s.host (cfg.layout.owner p)).m.mem p u ∨
        ∃ w base, v = .dirty w base ∧ v' = .clean w ∧ hst.m.mem p u =
          if w = base then (s.host (cfg.layout.owner p)).m.mem p u else w) := by
  have hmem : Msg.diff ds ∈ s.net i (cfg.layout.owner p) := by
    rw [hnet]
    exact List.mem_cons_self
  have hin := reach_routed hreach hmem
  have hhost : ({ s with net := drop s.net i (cfg.layout.owner p) }.put (cfg.layout.owner p)
      hst out).host i = s.host i := State.put_host_of_ne _ _ _ haway
  obtain ⟨hclosing, -⟩ := closing_of_diff (reach_diffAcks hreach i) hmem
  refine ⟨hclosing, ?_⟩
  obtain ⟨c', hat', hds⟩ := (reach_diffsOf hb hreach hp haway).state ds hmem
  rw [hat.unique hat'] at hds
  have hcur : hst.m.mem p = (c.diffs (cfg.pageAddr p) ((s.host i).m.mem p)).foldl
      (fun pg d => applyRuns d.runs pg) ((s.host (cfg.layout.owner p)).m.mem p) := by
    cases hm with
    | diff hm => rw [applyDiffs_mem hm, hds]
  by_cases hdirty : ∃ twin, c = .dirty twin
  · obtain ⟨twin, rfl⟩ := hdirty
    have hopen : Unflushed cfg s p i := Or.inr ⟨ds, hmem⟩
    cases hv with
    | flushed _ hdone => exact absurd hopen hdone
    | dirty =>
        refine ⟨_, .flushed twin ?_, Or.inr ⟨_, _, rfl, by rw [hhost], ?_⟩⟩
        · -- the DIFF was the only one
          rintro (hr | ⟨ds', hds'⟩)
          · rw [hhost] at hr
            refine not_running rfl ?_ hr
            cases hpc : (s.host i).pc <;> rw [hpc] at hclosing <;> first | rfl | cases hclosing
          · have hrest : Msg.diff ds' ∈ rest := by
              rw [State.put_net] at hds'
              rcases mem_send.mp hds' with hold | ⟨-, hnew⟩
              · exact drop_same hnet ▸ hold
              · have hreq := (served_routed hin hm hnew).1
                cases hreq
            have hone := (reach_diffAcks hreach i).once (cfg.layout.owner p)
            have hcount : 0 < rest.countP Msg.isDiff := List.countP_pos_iff.mpr ⟨_, hrest, rfl⟩
            rw [diffsPending, Acks.pending, hnet, List.countP_cons_of_pos rfl] at hone
            omega
        · rw [hcur]
          simp only [CopyState.diffs, List.foldl_cons, List.foldl_nil, applyRuns_encodediff,
            mergeDiff]
  · have hnil : c.diffs (cfg.pageAddr p) ((s.host i).m.mem p) = [] := by
      cases c with
      | dirty twin => exact absurd ⟨twin, rfl⟩ hdirty
      | _ => rfl
    refine ⟨v, ?_, Or.inl ⟨?_, rfl, by rw [hcur, hnil]; rfl⟩⟩
    · refine hv.congr hat (replies_served (reach_fetching hreach i) hnet hin hm ?_ ?_)
        (fun _ => by rw [hhost]) (fun _ => by rw [hhost]) fun hd => absurd hd hdirty
      · intro _ temp _ heq
        cases heq
      · intro _ wv data heq
        cases heq
    · rintro w base rfl
      cases hv with
      | dirty twin => exact hdirty ⟨twin, rfl⟩

/-- Besides the home itself only a DIFF changes a word of its page. -/
theorem home_served (hb : cfg.Basic) (hreach : (system cfg).Reach s) (hp : p < cfg.npages)
    (hnet : s.net src (cfg.layout.owner p) = msg :: rest)
    (hm : Served cfg (cfg.layout.owner p) (s.host (cfg.layout.owner p)) src rnd msg hst out)
    (hmsg : msg.isDiff = false) :
    hst.m.mem p u = (s.host (cfg.layout.owner p)).m.mem p u := by
  have hmem : msg ∈ s.net src (cfg.layout.owner p) := by
    rw [hnet]
    exact List.mem_cons_self
  have hc := served_contents (reach_routed hreach hmem) hm
  generalize hst.m = m' at hc
  cases hc with
  | inert hi => rw [hi.mem]
  | getp hm hi => rw [hi.mem]
  | diffgrant => rfl
  | diff => cases hmsg
  | getpgrant hgrant =>
      obtain ⟨rfl, w, hpc, rfl⟩ := (reach_copyMsg hb hreach hnet).reply _ _ _ _ rfl
      obtain ⟨hlt, haway⟩ := (reach_remoteOk hb hreach _).fault w hpc
      have hne : p ≠ w.page := by
        rintro rfl
        exact haway (reach_homepid hb.hMig hreach _ hlt)
      rw [getpgrantserver_one hb.wVec hgrant, cfg.pagei_pageAddr hlt]
      exact congrFun (upd_of_ne _ _ hne) u

theorem home_main (hb : cfg.Basic) (hreach : (system cfg).Reach s) (hp : p < cfg.npages)
    {a : Act} (hm : Main cfg (cfg.layout.owner p) (s.host (cfg.layout.owner p)) a hst out) :
    (∃ w, a = .store p u w ∧ (s.host (cfg.layout.owner p)).pc = .app ∧
        (s.host (cfg.layout.owner p)).m.prot p = .readWrite ∧ hst.m.mem p u = w) ∨
      (∀ w, a ≠ .store p u w) ∧ hst.m.mem p u = (s.host (cfg.layout.owner p)).m.mem p u := by
  by_cases hstore : ∃ w, a = .store p u w
  · obtain ⟨w, rfl⟩ := hstore
    left
    cases hm with
    | single _ _ ha => rcases ha with ha | ha <;> cases ha
    | start _ _ ha => cases ha
    | store hpc hlt hprot => exact ⟨w, rfl, hpc, hprot, by simp⟩
  · have hno : ∀ w, a ≠ .store p u w := fun w ha => hstore ⟨w, ha⟩
    refine Or.inr ⟨hno, ?_⟩
    rw [(main_contents hm).1]
    exact contentsAfter_word hno (Or.inl (reach_homepid hb.hMig hreach _ hp))

end Served

end Jiajia
