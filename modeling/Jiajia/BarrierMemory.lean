import Jiajia.Mirrors

/-!
# Shared memory between barriers

A host reads what it has stored itself since the last barrier, or what the word held
when the barrier ended, as long as no other host stores to the word.  Programs in which
one host at a time stores to a word see one memory that changes at barriers.
-/

namespace Jiajia

open Fifo Transition Host MemState Rounds

variable {cfg : Config}

/-! ## Copies that outlive a barrier -/

section Copies

variable {s : State} {log : RoundLog} {ml : MemLog} {i p src : Nat} {rnd : List Nat} {msg : Msg}
  {rest : List Msg} {hst : Host} {out : Out}

/-- Host `i` has been told that a barrier is over and has not gone on: its copies are
what the homes held when the barrier ended. -/
def Settled (cfg : Config) (i : Nat) (x : State × ClearLog × MemLog) : Prop :=
  (x.1.host i).pc = .barrwait → (x.1.host i).y.barrwait = false →
    0 < x.2.1.1.rounds ∧ ∀ p < cfg.npages, i ≠ cfg.layout.owner p →
      (x.1.host i).m.Cached cfg p → (x.1.host i).m.mem p = x.2.2.final (x.2.1.1.rounds - 1) p

theorem CopyAt.valid {h : Host} {c : CopyState} (hat : CopyAt cfg h p c) (hc : h.m.Cached cfg p) :
    c ≠ .absent ∧ c ≠ .invalid := by
  constructor
  · rintro rfl
    cases hat with
    | absent hge =>
        have hlt := hc.1
        omega
  · rintro rfl
    cases hat with
    | invalid _ hst => rcases hc.2 with h | h <;> rw [hst] at h <;> cases h

theorem cached_served (hb : cfg.Basic) (hreach : (system cfg).Reach s) (hp : p < cfg.npages)
    (haway : i ≠ cfg.layout.owner p) (hpc : (s.host i).pc = .barrwait)
    (hnet : s.net src i = msg :: rest) (hm : Served cfg i (s.host i) src rnd msg hst out)
    (hc : hst.m.Cached cfg p) :
    (s.host i).m.Cached cfg p ∧ hst.m.mem p = (s.host i).m.mem p := by
  have hpid : ((s.host i).m.page p).homepid ≠ i := by
    rw [reach_homepid hb.hMig hreach i hp]
    exact Ne.symm haway
  obtain ⟨c, hat⟩ := (reach_remoteOk hb hreach i).page p hp hpid
  have hfault := hat.not_faulting fun w hw => by rw [hpc] at hw; cases hw
  obtain ⟨c', hat', hcopy⟩ := served_copy hb.hMig hb.wVec
    (reach_cacheInverse (reach_cacheSystem hb.prefetchFlag hreach i)) (reach_remoteOk hb hreach i)
    (reach_copyMsg hb hreach hnet) hp hpid hat hm
  have hvalid := hat'.valid hc
  cases hcopy with
  | keep _ _ hcur => exact ⟨hat.cached hvalid.1 hvalid.2, hcur⟩
  | install w => exact absurd rfl (hfault w)
  | drop => exact absurd rfl hvalid.2

theorem settled_leave (hb : cfg.Basic) (hp : p < cfg.npages) (haway : i ≠ cfg.layout.owner p)
    (hi : i < cfg.hostc) (hreach : (system cfg).Reach s) {u : Fin Pageunits}
    {b : BulkSync.State (Fin cfg.hostc) Word} (hinv : BulkSync.Inv (homeOf cfg hp) 0 b)
    (hmir : Mirrors cfg p u s log ml b) (hnet : s.net src i = msg :: rest)
    (hm : Served cfg i (s.host i) src rnd msg hst out) (hdown : Barrier.down msg = true)
    (hout : out = []) (hbehind : log.rounds = log.granted i + 1)
    (hempty : downTo cfg ({ s with net := drop s.net src i }.put i hst out) i = [])
    (hc : hst.m.Cached cfg p) : hst.m.mem p u = ml.final (log.granted i) p u := by
  have hmem : msg ∈ s.net src i := by
    rw [hnet]
    exact List.mem_cons_self
  have hpc := (reach_stackOk hreach i).barrwait (reach_down_waiting hreach hnet hdown).2
  obtain ⟨hold, hcur⟩ := cached_served hb hreach hp haway hpc hnet hm hc
  have hpid := reach_homepid hb.hMig hreach i hp
  -- a notice of another writer would have dropped the copy
  have hnone : ¬ Pending cfg s log p i := by
    rintro ⟨-, n, hn, hfrom⟩
    have hheard := dueNotice_heard hst (reach_basics hreach) hnet (reach_relayed hreach hmem) hdown hout p
    have hrest : dueNotice cfg ({ s with net := drop s.net src i }.put i hst out) p i = none := by
      rw [dueNotice, hempty]
      rfl
    rw [hn, hrest, Option.or_none] at hheard
    have hns := (notices_served (served_mem ((reach_pages hreach).host i).tables
      ((reach_pages hreach).net hmem) (reach_routed hreach hmem) hm) hdown).noticed p hp
    rw [← hheard] at hns
    rcases hns.cached hc with ⟨-, hwriter⟩ | ⟨hown, -⟩
    · rcases hwriter n rfl with hw | hown
      · exact hfrom hw
      · exact haway (hown.symm.trans hpid)
    · exact haway (hown.symm.trans hpid)
  obtain ⟨c, hat, hv⟩ := hmir.copy ⟨i, hi⟩ haway
  have hvalid := hat.valid hold
  have hclean : b.copy ⟨i, hi⟩ = .clean ((s.host i).m.mem p u) := by
    generalize hvb : b.copy ⟨i, hi⟩ = v at hv
    cases hat with
    | absent => exact absurd rfl hvalid.1
    | invalid => exact absurd rfl hvalid.2
    | faulting _ _ _ _ _ hpcw =>
        have hpcw' : (s.host i).pc = _ := hpcw
        rw [hpc] at hpcw'
        cases hpcw'
    | clean => cases hv; rfl
    | dirty =>
        cases hv with
        | dirty _ hopen => exact absurd hopen (Host.Waits.flushed hreach (Or.inr hpc))
        | flushed => rfl
  have hround : b.round ⟨i, hi⟩ = log.granted i := hmir.round ⟨i, hi⟩
  have hlate : ¬ b.late ⟨i, hi⟩ (b.round ⟨i, hi⟩) := by
    intro hl
    rcases hmir.late ⟨i, hi⟩ haway (by rw [hclean]; intro h; cases h) _ hl with hpend | ⟨hr, -⟩
    · exact hnone hpend
    · rw [hround] at hr
      omega
  have hlt : b.round ⟨i, hi⟩ < b.done := by
    rw [hround, hmir.done]
    omega
  have hsnap := hinv.snapshot ⟨i, hi⟩ _ hlt hclean hlate
  rw [hround, hmir.final _ (by omega)] at hsnap
  rw [hcur]
  exact hsnap

theorem MemLog.afterMain_past {s' : State} {a : Act} {j r : Nat} (hr : r < log.rounds) :
    (ml.afterMain cfg log j a s').final r = ml.final r := by
  funext p
  exact if_neg (Nat.ne_of_lt hr)

theorem MemLog.afterServed_past {s' : State} {r : Nat} (hr : r < log.rounds) :
    (ml.afterServed cfg log s').final r = ml.final r := by
  funext p
  exact if_neg (Nat.ne_of_lt hr)

theorem main_barrwait_same {a : Act} (hm : Main cfg i (s.host i) a hst out) (hpc : hst.pc = .barrwait)
    (hflag : hst.y.barrwait = false) : hst = s.host i := by
  cases hm with
  | load => rfl
  | store hpc' =>
      have hpc'' : (s.host i).pc = .barrwait := hpc
      rw [hpc'] at hpc''
      cases hpc''
  | homeFault hpc' =>
      have hpc'' : (s.host i).pc = .barrwait := hpc
      rw [hpc'] at hpc''
      cases hpc''
  | single => rfl
  | start hpc' hhost ha hop hm =>
      obtain ⟨y, dm, -, -, rfl⟩ := endinterval_ok hm
      cases hpc
  | arrive hpc' hwait hm =>
      obtain ⟨cs, -, -, rfl⟩ := arrive_ok hm
      cases hflag
  | leave hpc' hm =>
      obtain ⟨m₁, m₂, -, -, rfl⟩ := leaveBarrier_ok hm
      cases hpc
  | stay => rfl
  | _ => cases hpc

/-- No barrier ends while host `i` has not gone on from the last one. -/
theorem rounds_stay (hreach : (system cfg).Reach s) (hi : i < cfg.hostc)
    (hok : (Barrier.rounds cfg).Ok (s, log))
    (hok' : (Barrier.rounds cfg).Ok ({ s with net := drop s.net src dst }.put dst hst out,
      (Barrier.rounds cfg).noteHandled log src dst msg out))
    (hnet : s.net src dst = msg :: rest) (hm : Served cfg dst (s.host dst) src rnd msg hst out)
    (hflag : (s.host i).y.barrwait = false) :
    ((Barrier.rounds cfg).noteHandled log src dst msg out).rounds = log.rounds := by
  cases served_handled (reach_basics hreach) hok hok' hnet hm with
  | quiet _ _ hrounds => exact hrounds
  | heard _ _ hrounds => exact hrounds
  | last reply hup hcl hlast hout hreply hburst hans hflag' =>
      have hmem : msg ∈ s.net src dst := by
        rw [hnet]
        exact List.mem_cons_self
      have hend := round_end hok hok' hnet (reach_pages hreach) (reach_routed hreach hmem) hup hcl
        hlast hout hreply hburst hans hflag'
      rw [hend.waits i hi] at hflag
      cases hflag

theorem settled_heard (hb : cfg.Basic) (hi : i < cfg.hostc) (hreach : (system cfg).Reach s)
    (hok : (Barrier.rounds cfg).Ok (s, log))
    (hok' : (Barrier.rounds cfg).Ok ({ s with net := drop s.net src i }.put i hst out,
      (Barrier.rounds cfg).noteHandled log src i msg out))
    (hmirror : ∀ p (hp : p < cfg.npages) u, ∃ b, BulkSync.Inv (homeOf cfg hp) 0 b ∧
      Mirrors cfg p u s log ml b)
    (hnet : s.net src i = msg :: rest) (hm : Served cfg i (s.host i) src rnd msg hst out)
    (hbefore : (s.host i).y.barrwait = true) (hflag : hst.y.barrwait = false) :
    ((Barrier.rounds cfg).noteHandled log src i msg out).rounds = log.granted i + 1 ∧
      log.rounds = log.granted i + 1 ∧
      ∀ p < cfg.npages, i ≠ cfg.layout.owner p → hst.m.Cached cfg p →
        hst.m.mem p = ml.final (log.granted i) p := by
  have hmem : msg ∈ s.net src i := by
    rw [hnet]
    exact List.mem_cons_self
  cases served_handled (reach_basics hreach) hok hok' hnet hm with
  | quiet hdown =>
      have hsame := served_barrwait (reach_routed hreach hmem) hdown hm
      rw [hbefore, hflag] at hsame
      cases hsame
  | last reply hup hcl hlast hout hreply hburst hans hflag' =>
      rw [hbefore, hflag] at hflag'
      cases hflag'
  | heard hdown hout hrounds hanswer hgranted =>
      rcases hgranted with hgranted | ⟨-, hbehind, hempty⟩
      · -- a host that has heard less than the answer still waits
        obtain ⟨hnow, hsent⟩ := up_to_date hok' hi (by rw [State.put_host_same]; exact hflag)
        have hinside : log.sent i = log.granted i + (s.host i).y.barrwait.toNat := hok.inv.inside i
        rw [hgranted] at hnow
        rw [sent_noteHandled, ← hnow, hinside, hbefore] at hsent
        exact absurd hsent (by simp)
      · refine ⟨hrounds.trans hbehind, hbehind, fun p hp haway hc => ?_⟩
        funext u
        obtain ⟨b, hinv, hmir⟩ := hmirror p hp u
        exact settled_leave hb hp haway hi hreach hinv hmir hnet hm hdown hout hbehind hempty hc

theorem go_heard (hpc : (s.host i).pc = .barrwait) (hm : Main cfg i (s.host i) .go hst out) :
    (s.host i).y.barrwait = false ∧ ∀ w, hst.pc ≠ .fault w := by
  cases hm with
  | single hpc' => rw [hpc] at hpc'; cases hpc'
  | start hpc' => rw [hpc] at hpc'; cases hpc'
  | faultEnd hpc' => rw [hpc] at hpc'; cases hpc'
  | scan hpc' => rw [hpc] at hpc'; cases hpc'
  | scanEnd hpc' => rw [hpc] at hpc'; cases hpc'
  | acquire hpc' => rw [hpc] at hpc'; cases hpc'
  | acquired hpc' => rw [hpc] at hpc'; cases hpc'
  | release hpc' => rw [hpc] at hpc'; cases hpc'
  | arrive hpc' => rw [hpc] at hpc'; cases hpc'
  | barrsync _ hwait => exact ⟨hwait, fun w hw => by cases hw⟩
  | leave hpc' hm =>
      obtain ⟨m₁, m₂, -, -, rfl⟩ := leaveBarrier_ok hm
      rcases hpc' with ⟨-, hwait, -⟩ | ⟨hpc', -⟩
      · exact ⟨hwait, fun w hw => by cases hw⟩
      · rw [hpc] at hpc'
        cases hpc'
  | waited hpc' => rw [hpc] at hpc'; cases hpc'
  | stay _ hwait => exact ⟨hwait, fun w hw => by rw [hpc] at hw; cases hw⟩

theorem cached_go (hb : cfg.Basic) (hreach : (system cfg).Reach s) (hp : p < cfg.npages)
    (haway : i ≠ cfg.layout.owner p) (hpc : (s.host i).pc = .barrwait)
    (hm : Main cfg i (s.host i) .go hst out) (hc : hst.m.Cached cfg p) :
    (s.host i).m.Cached cfg p ∧ hst.m.mem p = (s.host i).m.mem p := by
  have hmem : hst.m.mem = (s.host i).m.mem := (main_contents hm).1
  refine ⟨?_, congrFun hmem p⟩
  have hpid : ((s.host i).m.page p).homepid ≠ i := by
    rw [reach_homepid hb.hMig hreach i hp]
    exact Ne.symm haway
  obtain ⟨c, hat⟩ := (reach_remoteOk hb hreach i).page p hp hpid
  obtain ⟨c', hat', hcopy⟩ := main_copy hb.hMig
    (reach_cacheInverse (reach_cacheSystem hb.prefetchFlag hreach i)) ((reach_pages hreach).host i)
    (reach_remoteOk hb hreach i) hp hpid hat hm
  have hvalid := hat'.valid hc
  have hfault := hat.not_faulting fun w hw => by rw [hpc] at hw; cases hw
  cases hcopy with
  | keep => exact hat.cached hvalid.1 hvalid.2
  | renew => exact hat.cached (fun h => by cases h) fun h => by cases h
  | evict => exact absurd rfl hvalid.1
  | finish w => exact absurd rfl (hfault w)
  | ask c w =>
      cases hat' with
      | faulting _ _ _ _ _ hpc' => exact absurd hpc' ((go_heard hpc hm).2 w)
  | openCopy w hw hpc' => rw [hpc] at hpc'; cases hpc'

end Copies

theorem reach_settled (hb : cfg.Basic) {x : State × ClearLog × MemLog}
    (hx : ((system cfg).withHist (memHistory cfg)).Reach x) {i : Nat} (hi : i < cfg.hostc) :
    Settled cfg i x := by
  refine hx.invariant (I := Settled cfg i) (fun hpc => by cases hpc) ?_
  intro x e x' hx hset hnext
  have hx' := hx.step hnext
  have hok := (Barrier.rounds cfg).reach_ok hx.unchain.unchain
  have hok' := (Barrier.rounds cfg).reach_ok hx'.unchain.unchain
  have hreach := hx.forget
  have hmirror := fun p (hp : p < cfg.npages) u => reach_mirror hb hp hx u
  obtain ⟨s, ⟨log, cl⟩, ml⟩ := x
  obtain ⟨s', ⟨log', cl'⟩, ml'⟩ := x'
  obtain ⟨hstep, hlog'⟩ := hnext
  dsimp only at hstep hlog' hok hok' hreach hmirror
  intro hpc hflag
  rcases step_view hstep with ⟨j, a, hst, out, rfl, hj, hm, hsent, rfl⟩ |
    ⟨src, dst, rnd, msg, rest, hst, out, rfl, hnet, hm, hsent, rfl⟩
  · obtain ⟨rfl, rfl⟩ : log' = (Barrier.rounds cfg).noteSent log j out ∧
        ml' = ml.afterMain cfg log j a (s.put j hst out) := by
      simp only [memHistory, clearHistory, System.Observer.chain, RoundKind.history, hsent,
        Prod.mk.injEq] at hlog'
      exact ⟨hlog'.1.1, hlog'.2⟩
    have hsame : (s.put j hst out).host i = s.host i := by
      by_cases hij : i = j
      · subst hij
        rw [State.put_host_same] at hpc hflag ⊢
        exact main_barrwait_same hm hpc hflag
      · exact State.put_host_of_ne _ _ _ hij
    rw [hsame] at hpc hflag
    obtain ⟨hpos, hcopies⟩ := hset hpc hflag
    have hrounds := (noteSent_frame (Barrier.rounds cfg) log j out).1
    dsimp only at hpos hcopies ⊢
    rw [hsame, hrounds]
    refine ⟨hpos, fun p hp haway hc => ?_⟩
    rw [MemLog.afterMain_past (Nat.sub_lt hpos Nat.one_pos)]
    exact hcopies p hp haway hc
  · obtain ⟨rfl, rfl⟩ : log' = (Barrier.rounds cfg).noteHandled log src dst msg out ∧
        ml' = ml.afterServed cfg log ({ s with net := drop s.net src dst }.put dst hst out) := by
      simp only [memHistory, clearHistory, System.Observer.chain, RoundKind.history, hsent, handled,
        hnet, Prod.mk.injEq] at hlog'
      exact ⟨hlog'.1.1, hlog'.2⟩
    by_cases hdst : i = dst
    · subst hdst
      rw [State.put_host_same] at hpc hflag
      have hpc₀ : (s.host i).pc = .barrwait := (served_stack hm).1 ▸ hpc
      dsimp only
      rw [State.put_host_same]
      cases hbefore : (s.host i).y.barrwait with
      | false =>
          obtain ⟨hpos, hcopies⟩ := hset hpc₀ hbefore
          dsimp only at hpos hcopies
          rw [rounds_stay hreach hi hok hok' hnet hm hbefore]
          refine ⟨hpos, fun p hp haway hc => ?_⟩
          obtain ⟨hold, hmem⟩ := cached_served hb hreach hp haway hpc₀ hnet hm hc
          rw [MemLog.afterServed_past (Nat.sub_lt hpos Nat.one_pos), hmem]
          exact hcopies p hp haway hold
      | true =>
          obtain ⟨hrounds, hbehind, hcopies⟩ :=
            settled_heard hb hi hreach hok hok' hmirror hnet hm hbefore hflag
          rw [hrounds, Nat.add_sub_cancel]
          refine ⟨Nat.succ_pos _, fun p hp haway hc => ?_⟩
          rw [MemLog.afterServed_past (by omega)]
          exact hcopies p hp haway hc
    · have hsame : ({ s with net := drop s.net src dst }.put dst hst out).host i = s.host i :=
        State.put_host_of_ne _ _ _ hdst
      rw [hsame] at hpc hflag
      obtain ⟨hpos, hcopies⟩ := hset hpc hflag
      dsimp only at hpos hcopies ⊢
      rw [hsame, rounds_stay hreach hi hok hok' hnet hm hflag]
      refine ⟨hpos, fun p hp haway hc => ?_⟩
      rw [MemLog.afterServed_past (Nat.sub_lt hpos Nat.one_pos)]
      exact hcopies p hp haway hc

/-- When the wait in `jia_barrier` is over, every copy the host has kept of a page of
another host is what the home held when the barrier ended. -/
theorem barrier_coherent (hb : cfg.Basic) {x x' : State × ClearLog × MemLog}
    (hx : ((system cfg).withHist (memHistory cfg)).Reach x) {i : Nat}
    (hpc : (x.1.host i).pc = .barrwait)
    (hnext : ((system cfg).withHist (memHistory cfg)).next x (.main i .go) x') :
    ∃ r, x.2.1.1.rounds = r + 1 ∧ ∀ p < cfg.npages, i ≠ cfg.layout.owner p →
      (x'.1.host i).m.Cached cfg p → (x'.1.host i).m.mem p = x.2.2.final r p := by
  have hreach := hx.forget
  rcases step_view hnext.1 with ⟨j, a, hst, out, he, hi, hm, -, hput⟩ |
    ⟨src, dst, rnd, msg, rest, hst, out, he, -⟩
  · cases he
    obtain ⟨hpos, hcopies⟩ := reach_settled hb hx hi hpc (go_heard hpc hm).1
    refine ⟨x.2.1.1.rounds - 1, by omega, fun p hp haway hc => ?_⟩
    rw [hput, State.put_host_same] at hc ⊢
    obtain ⟨hold, hmem⟩ := cached_go hb hreach hp haway hpc hm hc
    rw [hmem]
    exact hcopies p hp haway hold
  · cases he

/-- Host 1 stores to a word of host 0, and both meet at a barrier; host 0 has left it. -/
def storeThenBarrier : List Event :=
  [.main 1 (.fault 0 true 0), .deliver 1 0 [], .deliver 0 1 [], .main 1 .go,
    .main 1 (.fault 0 true 0), .main 1 .go, .main 1 (.store 0 Config.unit0 7), .main 1 .barrier,
    .main 1 .go, .deliver 1 0 [], .deliver 0 1 [], .main 1 .go, .main 0 .barrier, .main 0 .go,
    .main 0 .go, .main 0 .go, .deliver 1 0 [], .deliver 0 0 [], .deliver 0 0 [], .main 0 .go]

/-- Host 1 keeps its copy with the value it has stored. -/
theorem barrier_coherent_storeThenBarrier :
    ∃ x x', ((system .onePage).withHist (memHistory .onePage)).Reach x ∧
      ((system .onePage).withHist (memHistory .onePage)).next x (.main 1 .go) x' ∧
      (x'.1.host 1).m.Cached .onePage 0 ∧ (x'.1.host 1).m.mem 0 = x.2.2.final 0 0 := by
  obtain ⟨x, hx, hcheck⟩ := exists_execHist Config.onePage (memHistory Config.onePage)
    (storeThenBarrier ++ [.deliver 0 1 []]) (fun x => decide ((x.1.host 1).pc = .barrwait ∧
      x.2.1.1.rounds = 1) && (step .onePage x.1 (.main 1 .go)).toOption.any
        fun s' : State => decide (Cached Config.onePage (s'.host 1).m 0)) (by decide +kernel)
  rw [Bool.and_eq_true] at hcheck
  obtain ⟨hcheck, hcached⟩ := hcheck
  obtain ⟨hpc, hrounds⟩ := of_decide_eq_true hcheck
  cases hs : step .onePage x.1 (.main 1 .go) with
  | error e => rw [hs] at hcached; cases hcached
  | ok s' =>
      rw [hs] at hcached
      have hc := of_decide_eq_true hcached
      have hnext : ((system .onePage).withHist (memHistory .onePage)).next x (.main 1 .go)
          (s', (memHistory .onePage).obs x.2 x.1 _ s') := ⟨hs, rfl⟩
      obtain ⟨r, hr, hcopies⟩ := barrier_coherent ⟨rfl, rfl, rfl⟩ hx hpc hnext
      obtain rfl : r = 0 := by omega
      exact ⟨x, _, hx, hnext, hc, hcopies 0 (by decide) (by decide) hc⟩

/-! ## What programs see -/

/-- At most one host stores to the word on its way to barrier `r`. -/
def MemLog.OneWriter (ml : MemLog) (n r p : Nat) (u : Fin Pageunits) : Prop :=
  ∀ i < n, ∀ j < n, i ≠ j → ml.stored i r p u = none ∨ ml.stored j r p u = none

instance (ml : MemLog) (n r p : Nat) (u : Fin Pageunits) : Decidable (ml.OneWriter n r p u) :=
  inferInstanceAs (Decidable (∀ i < n, ∀ j < n, _))

/-- What the word holds on the way to barrier `r` where hosts take turns in storing to
it: the last value stored. -/
def MemLog.expected (ml : MemLog) (n p : Nat) (u : Fin Pageunits) : Nat → Word
  | 0 => 0
  | r + 1 => ((List.range n).findSome? fun i => ml.stored i r p u).getD (ml.expected n p u r)

section OneWriter

variable {ml : MemLog} {n r p : Nat} {u : Fin Pageunits}

theorem MemLog.OneWriter.exists_writer (hone : ml.OneWriter n r p u) (hn : 0 < n) :
    ∃ i < n, (∀ j < n, j ≠ i → ml.stored j r p u = none) ∧
      ((List.range n).findSome? fun i => ml.stored i r p u) = ml.stored i r p u := by
  cases hfind : (List.range n).findSome? fun i => ml.stored i r p u with
  | none =>
      rw [List.findSome?_eq_none_iff] at hfind
      have hnone : ∀ j < n, ml.stored j r p u = none := fun j hj => hfind j (List.mem_range.mpr hj)
      exact ⟨0, hn, fun j hj _ => hnone j hj, (hnone 0 hn).symm⟩
  | some v =>
      obtain ⟨i, hi, hv⟩ := List.exists_of_findSome?_eq_some hfind
      have hlt := List.mem_range.mp hi
      refine ⟨i, hlt, fun j hj hne => ?_, hv.symm⟩
      exact (hone i hlt j hj (Ne.symm hne)).resolve_left (by rw [hv]; exact Option.some_ne_none v)

end OneWriter

section Runs

variable {x x' : State × ClearLog × MemLog} {p : Nat} {u : Fin Pageunits}

theorem reach_loads (hx : ((system cfg).withHist (memHistory cfg)).Reach x) {i : Nat}
    (hnext : ((system cfg).withHist (memHistory cfg)).next x (.main i (.load p u)) x') :
    i < cfg.hostc ∧ p < cfg.npages ∧ (x.1.host i).pc = .app ∧ (x.1.host i).m.Readable p ∧
      x.2.1.1.granted i = x.2.1.1.rounds := by
  rcases step_view hnext.1 with ⟨i', a, hst, out, he, hi, hm, -⟩ |
    ⟨src, dst, rnd, msg, rest, hst, out, he, -⟩
  · cases he
    cases hm with
    | single _ _ ha => rcases ha with ha | ha <;> cases ha
    | start _ _ ha => cases ha
    | load hpc hp hread =>
        have hdown := (reach_stackOk hx.forget i).barrwait_down (by rw [hpc]; exact nofun)
        exact ⟨hi, hp, hpc, hread,
          (up_to_date ((Barrier.rounds cfg).reach_ok hx.unchain.unchain) hi hdown).1⟩
  · cases he

theorem reach_load (hb : cfg.Basic) (hx : ((system cfg).withHist (memHistory cfg)).Reach x)
    {i : Nat} (hnext : ((system cfg).withHist (memHistory cfg)).next x (.main i (.load p u)) x')
    (halone : ∀ j < cfg.hostc, j ≠ i → x.2.2.stored j (x.2.1.1.granted i) p u = none) :
    (x.1.host i).m.mem p u = (x.2.2.stored i (x.2.1.1.granted i) p u).getD
      (x.2.2.start (x.2.1.1.granted i) p u) := by
  obtain ⟨hi, hp, hpc, hread, hgranted⟩ := reach_loads hx hnext
  obtain ⟨b, hinv, hmir⟩ := reach_mirror hb hp hx u
  have hround : b.round ⟨i, hi⟩ = b.done := by
    rw [hmir.round, hmir.done]
    exact hgranted
  have halone' : b.Alone ⟨i, hi⟩ b.done := by
    intro j hj
    rw [hmir.stored, hmir.done, ← hgranted]
    exact halone j j.isLt fun heq => hj (Fin.ext heq)
  have hvalue := hinv.reads hround halone' (hmir.reads hp (i := ⟨i, hi⟩) hpc hread)
  rw [hmir.stored, hmir.start_eq hmir.done.le, hmir.done, ← hgranted] at hvalue
  exact hvalue

theorem reach_final (hb : cfg.Basic) (hp : p < cfg.npages)
    (hx : ((system cfg).withHist (memHistory cfg)).Reach x) {r : Nat} (hr : r < x.2.1.1.rounds)
    {i : Nat} (hi : i < cfg.hostc)
    (halone : ∀ j < cfg.hostc, j ≠ i → x.2.2.stored j r p u = none) :
    x.2.2.final r p u = (x.2.2.stored i r p u).getD (x.2.2.start r p u) := by
  obtain ⟨b, hinv, hmir⟩ := reach_mirror hb hp hx u
  have halone' : b.Alone ⟨i, hi⟩ r := by
    intro j hj
    rw [hmir.stored]
    exact halone j j.isLt fun heq => hj (Fin.ext heq)
  have hended := hinv.ended r (by rw [hmir.done]; exact hr) ⟨i, hi⟩ halone'
  rw [hmir.final r hr, hmir.stored, hmir.start_eq hr.le] at hended
  exact hended

theorem start_expected (hb : cfg.Basic) (hp : p < cfg.npages)
    (hx : ((system cfg).withHist (memHistory cfg)).Reach x) {r : Nat} (hr : r ≤ x.2.1.1.rounds)
    (hone : ∀ k < r, x.2.2.OneWriter cfg.hostc k p u) :
    x.2.2.start r p u = x.2.2.expected cfg.hostc p u r := by
  induction r with
  | zero => rfl
  | succ r ih =>
      have hpos : 0 < cfg.hostc := lt_of_le_of_lt (Nat.zero_le _) (cfg.layout.owner_lt p hp)
      obtain ⟨i, hi, halone, hfind⟩ := (hone r (Nat.lt_succ_self r)).exists_writer hpos
      have hstart := ih (by omega) fun k hk => hone k (Nat.lt_succ_of_lt hk)
      rw [MemLog.expected, hfind, ← hstart]
      exact reach_final hb hp hx hr hi halone

/-- Between two barriers a host reads its own last store to a word, or what the home
held when the last barrier ended, if no other host stores to the word; and when a
barrier ends the home holds the last value of the one host that has stored. -/
theorem memory_between_barriers (hb : cfg.Basic)
    (hx : ((system cfg).withHist (memHistory cfg)).Reach x) :
    (∀ i x', ((system cfg).withHist (memHistory cfg)).next x (.main i (.load p u)) x' →
      (∀ j < cfg.hostc, j ≠ i → x.2.2.stored j (x.2.1.1.granted i) p u = none) →
      (x.1.host i).m.mem p u = (x.2.2.stored i (x.2.1.1.granted i) p u).getD
        (x.2.2.start (x.2.1.1.granted i) p u)) ∧
    (p < cfg.npages → ∀ r < x.2.1.1.rounds, ∀ i < cfg.hostc,
      (∀ j < cfg.hostc, j ≠ i → x.2.2.stored j r p u = none) →
      x.2.2.final r p u = (x.2.2.stored i r p u).getD (x.2.2.start r p u)) :=
  ⟨fun _ _ hnext halone => reach_load hb hx hnext halone,
    fun hp _ hr _ hi halone => reach_final hb hp hx hr hi halone⟩

theorem memory_between_barriers_storeThenBarrier :
    ∃ x, ((system .onePage).withHist (memHistory .onePage)).Reach x ∧ x.2.1.1.rounds = 1 ∧
      x.2.2.stored 1 0 0 Config.unit0 = some 7 ∧ x.2.2.final 0 0 Config.unit0 = 7 := by
  obtain ⟨x, hx, hcheck⟩ := exists_execHist Config.onePage (memHistory Config.onePage)
    storeThenBarrier (fun x => decide (x.2.1.1.rounds = 1 ∧
      x.2.2.stored 1 0 0 Config.unit0 = some 7 ∧ x.2.2.OneWriter 2 0 0 Config.unit0))
    (by decide +kernel)
  obtain ⟨hrounds, hstored, hone⟩ := of_decide_eq_true hcheck
  have halone : ∀ j < 2, j ≠ 1 → x.2.2.stored j 0 0 Config.unit0 = none := by
    intro j hj hne
    exact (hone 1 (by decide) j hj (Ne.symm hne)).resolve_left (by rw [hstored]; exact nofun)
  have hfinal := (memory_between_barriers (u := Config.unit0) ⟨rfl, rfl, rfl⟩ hx).2 (show 0 < 1 by decide) 0
    (by rw [hrounds]; decide) 1 (by decide) halone
  exact ⟨x, hx, hrounds, hstored, by rw [hfinal, hstored]; rfl⟩

/-- Where hosts take turns in storing to a word, at barriers, every load reads the last
value stored. -/
theorem one_memory (hb : cfg.Basic) (hx : ((system cfg).withHist (memHistory cfg)).Reach x)
    {i : Nat} (hnext : ((system cfg).withHist (memHistory cfg)).next x (.main i (.load p u)) x')
    (hone : ∀ r < x.2.1.1.rounds, x.2.2.OneWriter cfg.hostc r p u)
    (halone : ∀ j < cfg.hostc, j ≠ i → x.2.2.stored j x.2.1.1.rounds p u = none) :
    (x.1.host i).m.mem p u = (x.2.2.stored i x.2.1.1.rounds p u).getD
      (x.2.2.expected cfg.hostc p u x.2.1.1.rounds) := by
  obtain ⟨-, hp, -, -, hgranted⟩ := reach_loads hx hnext
  rw [reach_load hb hx hnext (by rw [hgranted]; exact halone), hgranted,
    start_expected hb hp hx le_rfl hone]

theorem one_memory_storeThenBarrier :
    ∃ x x', ((system .onePage).withHist (memHistory .onePage)).Reach x ∧
      ((system .onePage).withHist (memHistory .onePage)).next x (.main 0 (.load 0 Config.unit0)) x' ∧
      (x.1.host 0).m.mem 0 Config.unit0 = 7 := by
  obtain ⟨x, hx, hcheck⟩ := exists_execHist Config.onePage (memHistory Config.onePage)
    storeThenBarrier (fun x => decide (x.2.1.1.rounds = 1 ∧
      (step .onePage x.1 (.main 0 (.load 0 Config.unit0))).isOk = true ∧
      x.2.2.OneWriter 2 0 0 Config.unit0 ∧ x.2.2.stored 0 1 0 Config.unit0 = none ∧
      x.2.2.stored 1 1 0 Config.unit0 = none ∧ x.2.2.expected 2 0 Config.unit0 1 = 7))
    (by decide +kernel)
  obtain ⟨hrounds, hok, hone, hself, hother, hexp⟩ := of_decide_eq_true hcheck
  obtain ⟨s', hstep⟩ : ∃ s', step .onePage x.1 (.main 0 (.load 0 Config.unit0)) = .ok s' := by
    cases hs : step .onePage x.1 (.main 0 (.load 0 Config.unit0)) with
    | ok s' => exact ⟨s', rfl⟩
    | error e =>
        rw [hs] at hok
        cases hok
  have hnext : ((system .onePage).withHist (memHistory .onePage)).next x
      (.main 0 (.load 0 Config.unit0)) (s', (memHistory .onePage).obs x.2 x.1 _ s') := ⟨hstep, rfl⟩
  have hload := one_memory ⟨rfl, rfl, rfl⟩ hx hnext ?_ ?_
  · refine ⟨x, _, hx, hnext, ?_⟩
    rw [hload, hrounds, hself]
    exact hexp
  · intro r hr
    rw [hrounds] at hr
    obtain rfl : r = 0 := by omega
    exact hone
  · intro j hj hne
    have hlt : j < 2 := hj
    obtain rfl : j = 1 := by omega
    rw [hrounds]
    exact hother

end Runs

end Jiajia
