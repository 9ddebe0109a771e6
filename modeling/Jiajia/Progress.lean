import Jiajia.DiffAcks
import Jiajia.GoingOn

/-!
# What a waiting host waits for

A main thread stops at the loops on `getpwait`, `diffwait`, `acqwait`, `barrwait` and
`waitwait`.  What it waits for is on its way, or another main thread has to act first,
so a run gets stuck only where the programs of the hosts wait for each other.
-/

namespace Jiajia

open Fifo Transition Host

variable {cfg : Config}

/-- The main thread is at a wait, and the loop goes on. -/
def Host.blocked (h : Host) : Bool :=
  match h.pc with
  | .fault _ => h.m.getpwait
  | .drain _ => h.m.diffwait != 0
  | .acqwait _ => h.y.acqwait
  | .barrwait => h.y.barrwait
  | .barrsync => h.y.waitwait
  | .waitwait => h.y.waitwait
  | _ => false

/-- A message that somebody has to handle before host `i` goes on from `pc`. -/
def Msg.concerns (cfg : Config) (i src dst : Nat) : Pc → Msg → Bool
  | .fault w, .getp a _ => src == i && a == cfg.pageAddr w.page
  | .fault w, .getpgrant a _ _ _ => dst == i && a == cfg.pageAddr w.page
  | .drain _, .diff _ => src == i
  | .drain _, .diffgrant => dst == i
  | .acqwait l, msg => (msg.lockRequest l).isSome || msg.isGrant l
  | .barrwait, msg => Barrier.up msg || Barrier.down msg.unwrap
  | .barrsync, msg => Wait.up msg || Wait.down msg.unwrap
  | .waitwait, msg => Wait.up msg || Wait.down msg.unwrap
  | _, _ => false

/-- The main thread of `h` has to act before another host goes on from `pc`: it holds
the lock, or has not come to the barrier or the wait. -/
def Host.Delays (h : Host) : Pc → Prop
  | .acqwait l => h.Holds l
  | .barrwait => h.y.barrwait = false
  | .barrsync => h.y.waitwait = false
  | .waitwait => h.y.waitwait = false
  | _ => False

section Waits

variable {s : State} {i : Nat}

theorem page_wakes (hs : (system cfg).Reach s) {w : MemState.FaultWait}
    (hpc : (s.host i).pc = .fault w) (hwait : (s.host i).m.getpwait = true) :
    ∃ src dst, ∃ msg ∈ s.net src dst, msg.concerns cfg i src dst (.fault w) = true := by
  cases reach_fetching hs i with
  | idle hdown =>
      rw [hwait] at hdown
      cases hdown
  | asked w' b temp hpc' _ hone =>
      rw [hpc, Pc.fault.injEq] at hpc'
      subst hpc'
      have hmem : Msg.getp (cfg.pageAddr w.page) temp ∈ s.net i b :=
        List.mem_of_mem_filter (hone ▸ List.mem_cons_self)
      exact ⟨i, b, _, hmem, by simp [Msg.concerns]⟩
  | answered w' a wv data xs hpc' _ _ hone =>
      rw [hpc, Pc.fault.injEq] at hpc'
      subst hpc'
      have hmem : Msg.getpgrant (cfg.pageAddr w.page) wv data xs ∈ s.net a i :=
        List.mem_of_mem_filter (hone ▸ List.mem_cons_self)
      exact ⟨a, i, _, hmem, by simp [Msg.concerns]⟩

theorem diff_wakes (hs : (system cfg).Reach s) (op : SynOp) (hwait : (s.host i).m.diffwait ≠ 0) :
    ∃ src dst, ∃ msg ∈ s.net src dst, msg.concerns cfg i src dst (.drain op) = true := by
  have hcount := (reach_diffAcks hs i).count
  by_contra hcon
  refine hwait (hcount.trans (Finset.sum_eq_zero fun b _ => Acks.pending_eq_zero.mpr ⟨?_, ?_⟩))
  · intro msg hmem
    by_contra hdiff
    rw [Bool.not_eq_false] at hdiff
    refine hcon ⟨i, b, msg, hmem, ?_⟩
    cases msg with
    | diff ds => simp [Msg.concerns]
    | _ => cases hdiff
  · intro msg hmem
    by_contra hgrant
    rw [Bool.not_eq_false] at hgrant
    refine hcon ⟨b, i, msg, hmem, ?_⟩
    cases msg with
    | diffgrant => simp [Msg.concerns]
    | _ => cases hgrant

theorem lock_wakes (hs : (system cfg).Reach s) {l : Nat} (hpc : (s.host i).pc = .acqwait l)
    (hwait : (s.host i).y.acqwait = true) :
    (∃ src dst, ∃ msg ∈ s.net src dst, msg.concerns cfg i src dst (.acqwait l) = true) ∨
      ∃ j < cfg.hostc, j ≠ i ∧ (s.host j).Holds l := by
  obtain ⟨log, hlog⟩ := hs.exists_hist (lockHistory cfg)
  have hallowed := (reach_stackOk hs i).pc
  rw [hpc] at hallowed
  obtain ⟨hlt, hfree⟩ := allowed_acq_iff.mp hallowed
  have hl : l ≠ hidelock := Nat.ne_of_lt hlt
  have hout : ¬ (s.host i).Holds l := by
    rintro (hin | ⟨-, hdown⟩)
    · exact hfree hin
    · rw [hwait] at hdown
      cases hdown
  have hwaiting : (s.host i).client l = .waiting := by
    rw [client, if_neg hout, if_pos hpc]
  obtain ⟨b, hup | hdown | hin⟩ := (lockView_inv hlog hl).waits (a := i) hwaiting
  · left
    obtain ⟨r, hr⟩ := List.exists_mem_of_ne_nil _ hup
    obtain ⟨msg, hmem, hreq⟩ := List.mem_filterMap.mp hr
    exact ⟨b, _, msg, hmem, by simp [Msg.concerns, hreq]⟩
  · left
    obtain ⟨msg, hmem, hgrant⟩ := List.countP_pos_iff.mp hdown
    exact ⟨_, b, msg, hmem, by simp [Msg.concerns, hgrant]⟩
  · right
    have hin' : (s.host b).client l = .inside := hin
    have hholds : (s.host b).Holds l := by
      by_contra hno
      rw [client, if_neg hno] at hin'
      split at hin' <;> cases hin'
    refine ⟨b, client_lt hs hl (by rw [hin']; intro h; cases h), ?_, hholds⟩
    rintro rfl
    exact hout hholds

theorem round_wakes (k : RoundKind cfg) (hs : (system cfg).Reach s) :
    (∃ src dst, ∃ msg ∈ s.net src dst, k.up msg = true ∨ k.down msg.unwrap = true) ∨
      ∃ j < cfg.hostc, k.flag (s.host j) = false := by
  obtain ⟨log, hlog⟩ := hs.exists_hist k.history
  by_contra hcon
  rw [not_or] at hcon
  obtain ⟨hnet, hin⟩ := hcon
  refine hin ((k.reach_ok hlog).inv.outsider ?_ ?_)
  · intro j
    change (s.net j k.root).filter k.up = []
    rw [List.filter_eq_nil_iff]
    intro msg hmem hup
    exact hnet ⟨j, k.root, msg, hmem, Or.inl hup⟩
  · intro j hj
    change (if j < cfg.hostc then k.cast.pending s.net j else []) = []
    rw [if_pos hj, Relay.Cast.pending, List.flatMap_eq_nil_iff]
    intro l _
    rw [Relay.Cast.segment, List.filterMap_eq_nil_iff]
    intro msg hmem
    by_contra hread
    obtain ⟨m, hm⟩ := Option.ne_none_iff_exists'.mp hread
    obtain ⟨hdown, ⟨-, rfl⟩ | ⟨-, rfl⟩⟩ := k.read_eq_some hm
    · refine hnet ⟨_, _, msg, hmem, Or.inr ?_⟩
      cases msg with
      | bcast r l m => rw [k.down_bcast] at hdown; cases hdown
      | _ => exact hdown
    · exact hnet ⟨_, _, _, hmem, Or.inr hdown⟩

/-- Every blocked main thread waits for a message that is on its way or for another main
thread. -/
theorem no_lost_wakeup (hs : (system cfg).Reach s) (hblocked : (s.host i).blocked = true) :
    (∃ src dst, ∃ msg ∈ s.net src dst, msg.concerns cfg i src dst (s.host i).pc = true) ∨
      ∃ j < cfg.hostc, j ≠ i ∧ (s.host j).Delays (s.host i).pc := by
  have hround : ∀ k : RoundKind cfg, k.flag (s.host i) = true →
      (∃ src dst, ∃ msg ∈ s.net src dst, (k.up msg || k.down msg.unwrap) = true) ∨
        ∃ j < cfg.hostc, j ≠ i ∧ k.flag (s.host j) = false := by
    intro k hin
    rcases round_wakes k hs with ⟨src, dst, msg, hmem, hmsg⟩ | ⟨j, hj, hout⟩
    · exact Or.inl ⟨src, dst, msg, hmem, by rwa [Bool.or_eq_true]⟩
    · refine Or.inr ⟨j, hj, ?_, hout⟩
      rintro rfl
      rw [hin] at hout
      cases hout
  unfold Host.blocked at hblocked
  cases hpc : (s.host i).pc with
  | fault w =>
      rw [hpc] at hblocked
      exact Or.inl (page_wakes hs hpc hblocked)
  | drain op =>
      rw [hpc] at hblocked
      exact Or.inl (diff_wakes hs op (bne_iff_ne.mp hblocked))
  | acqwait l =>
      rw [hpc] at hblocked
      exact lock_wakes hs hpc hblocked
  | barrwait =>
      rw [hpc] at hblocked
      exact hround (Barrier.rounds cfg) hblocked
  | barrsync =>
      rw [hpc] at hblocked
      exact hround (Wait.rounds cfg) hblocked
  | waitwait =>
      rw [hpc] at hblocked
      exact hround (Wait.rounds cfg) hblocked
  | app => rw [hpc] at hblocked; cases hblocked
  | scan op j n => rw [hpc] at hblocked; cases hblocked

/-- A host in the fault handler waits for the home. -/
theorem no_lost_wakeup_fault :
    ∃ s, (system .onePage).Reach s ∧ (s.host 1).pc ≠ .app ∧
      ((∃ src dst, ∃ msg ∈ s.net src dst, msg.concerns .onePage 1 src dst (s.host 1).pc = true) ∨
        ∃ j < 2, j ≠ 1 ∧ (s.host j).Delays (s.host 1).pc) := by
  obtain ⟨s, hs, hcheck⟩ := System.exists_execBy (S := system .onePage) (fun _ _ _ h => h)
    [.main 1 (.fault 0 false 0)]
    (fun s => decide ((s.host 1).blocked = true ∧ (s.host 1).pc ≠ .app)) (by decide +kernel)
  obtain ⟨hblocked, hpc⟩ := of_decide_eq_true hcheck
  exact ⟨s, hs, hpc, no_lost_wakeup hs hblocked⟩

end Waits

/-! ## Going on -/

section GoingOn

variable {s : State} {i : Nat}

theorem step_main (hi : i < cfg.hostc) (a : Act) :
    (∃ s', step cfg s (.main i a) = .ok s') ↔ ∃ r, (s.host i).act cfg i a = .ok r := by
  constructor
  · rintro ⟨s', hs'⟩
    obtain ⟨-, -, hs'⟩ := bind_eq_ok.mp hs'
    obtain ⟨r, hr, -⟩ := bind_eq_ok.mp hs'
    exact ⟨r, hr⟩
  · rintro ⟨r, hr⟩
    exact ⟨_, bind_eq_ok.mpr ⟨(), await_eq_ok.mpr hi, bind_eq_ok.mpr ⟨r, hr, rfl⟩⟩⟩

theorem exists_await {c : Prop} [Decidable c] {r : Result (Host × Out)} (hc : c)
    (hr : ∃ x, r = .ok x) : ∃ x, (do await c; r) = .ok x := by
  obtain ⟨x, hx⟩ := hr
  exact ⟨x, bind_eq_ok.mpr ⟨(), await_eq_ok.mpr hc, hx⟩⟩

theorem reach_startinterval (hb : cfg.Basic) (hhost : cfg.hostc ≠ 1) (hs : (system cfg).Reach s)
    (i : Nat) (barr : Bool) : ∃ h', (s.host i).startinterval cfg barr = .ok h' :=
  startinterval_total hb.hMig (reach_cacheInverse (reach_cacheSystem hb.prefetchFlag hs i))
    ((reach_pages hs).host i) (reach_remoteOk hb hs i) (reach_openAt hb hs i)
    (reach_runOk hhost hs i).1.detects.bits barr

theorem goes_on_iff (hb : cfg.Basic) (hhost : cfg.hostc ≠ 1) (hs : (system cfg).Reach s)
    (hi : i < cfg.hostc) (hpc : (s.host i).pc ≠ .app) (hfree : (s.host i).blocked = false) :
    (∃ s', step cfg s (.main i .go) = .ok s') ↔
      ∀ l, (s.host i).pc = .acqwait l → (s.host i).y.below.length + 1 < Maxstacksize := by
  have hstack := reach_stackOk hs i
  have hstart := reach_startinterval hb hhost hs i
  have hallowed := hstack.pc
  rw [step_main hi]
  change (∃ r, (s.host i).go cfg i = .ok r) ↔ _
  unfold Host.blocked at hfree
  unfold Host.go
  cases hat : (s.host i).pc with
  | app => exact absurd hat hpc
  | fault w =>
      rw [hat] at hfree
      obtain ⟨m, hm⟩ := faultEnd_total (reach_remoteOk hb hs i) hat
      exact iff_of_true (exists_await hfree ⟨_, bind_eq_ok.mpr ⟨m, hm, rfl⟩⟩)
        (fun _ h => by cases h)
  | scan op j n =>
      refine iff_of_true ?_ (fun _ h => by cases h)
      dsimp only
      split
      · obtain ⟨h', hh⟩ : ∃ h', (s.host i).scanHome cfg i op j = .ok h' :=
          scanHome_total hb.wVec op j
        exact ⟨_, bind_eq_ok.mpr ⟨h', hh, rfl⟩⟩
      · exact ⟨_, rfl⟩
  | drain op =>
      rw [hat] at hfree hallowed
      have hwait : (s.host i).m.diffwait = 0 := by simpa using hfree
      refine iff_of_true (exists_await hwait ?_) (fun _ h => by cases h)
      cases op with
      | acq l => exact ⟨_, rfl⟩
      | rel l => exact release_total hstack hallowed (hstart false)
      | barr => exact arrive_total
  | acqwait l =>
      rw [hat] at hfree
      have hiff := acquired_iff (l := l) (hstart false)
      constructor
      · rintro ⟨x, hx⟩ _ _
        obtain ⟨-, -, hx⟩ := bind_eq_ok.mp hx
        obtain ⟨h', hacq, -⟩ := bind_eq_ok.mp hx
        exact hiff.mp ⟨h', hacq⟩
      · intro hroom
        exact exists_await hfree (exists_silent (hiff.mpr (hroom l rfl)))
  | barrwait =>
      rw [hat] at hfree
      refine iff_of_true (exists_await hfree ?_) (fun _ h => by cases h)
      rw [if_neg (by simp [hb.hMig])]
      exact exists_silent (leaveBarrier_total (hstart true))
  | barrsync =>
      rw [hat] at hfree
      exact iff_of_true (exists_await hfree (exists_silent (leaveBarrier_total (hstart true))))
        (fun _ h => by cases h)
  | waitwait =>
      rw [hat] at hfree
      exact iff_of_true (exists_await hfree ⟨_, rfl⟩) (fun _ h => by cases h)

/-- No thread of any host ever fails an assert, leaves a table or touches a page that is
not mapped: the next message of a channel is handled unless a lock is to be granted whose
notices do not fit, and a main thread that does not wait goes on unless the lock it was
granted does not fit on its stack. -/
theorem no_thread_fails (hb : cfg.Basic) (hhost : cfg.hostc ≠ 1) (hs : (system cfg).Reach s) :
    (∀ src dst msg rest, s.net src dst = msg :: rest → ∀ rnd,
      (∃ s', step cfg s (.deliver src dst rnd) = .ok s') ↔
        GrantRoom cfg (s.host dst) src msg) ∧
    ∀ i < cfg.hostc, (s.host i).pc ≠ .app → (s.host i).blocked = false →
      ((∃ s', step cfg s (.main i .go) = .ok s') ↔
        ∀ l, (s.host i).pc = .acqwait l → (s.host i).y.below.length + 1 < Maxstacksize) :=
  ⟨fun _ _ _ _ hnet rnd => handled_iff_room hb hs hnet rnd,
    fun _ hi hpc hfree => goes_on_iff hb hhost hs hi hpc hfree⟩

/-- Host 1 has been granted lock 0 and enters. -/
theorem no_thread_fails_granted :
    ∃ s, (system .onePage).Reach s ∧ (s.host 1).pc = .acqwait 0 ∧
      ∃ s', step .onePage s (.main 1 .go) = .ok s' := by
  obtain ⟨s, hs, hcheck⟩ := System.exists_execBy (S := system .onePage) (fun _ _ _ h => h)
    [.main 1 (.lock 0), .main 1 .go, .main 1 .go, .deliver 1 0 [], .deliver 0 1 []]
    (fun s => decide ((s.host 1).pc = .acqwait 0 ∧ (s.host 1).blocked = false ∧
      (s.host 1).y.below.length = 0)) (by decide +kernel)
  obtain ⟨hpc, hfree, hbelow⟩ := of_decide_eq_true hcheck
  have hgoes := (no_thread_fails ⟨rfl, rfl, rfl⟩ (by decide) hs).2 1 (by decide)
    (by rw [hpc]; simp) hfree
  refine ⟨s, hs, hpc, hgoes.mpr ?_⟩
  intro _ _
  rw [hbelow]
  decide

end GoingOn

/-! ## Deadlocks -/

section Deadlock

variable {s : State} {i : Nat}

theorem quiet_wait (hs : (system cfg).Reach s) (hquiet : ∀ src dst, s.net src dst = [])
    (hblocked : (s.host i).blocked = true) :
    (∃ l, (s.host i).pc = .acqwait l) ∨ (s.host i).pc = .barrwait ∨
      (s.host i).pc.inWait = true := by
  have hnone : ∀ {pc : Pc}, ¬ ∃ src dst, ∃ msg ∈ s.net src dst,
      msg.concerns cfg i src dst pc = true := by
    rintro pc ⟨src, dst, msg, hmem, -⟩
    rw [hquiet] at hmem
    cases hmem
  unfold Host.blocked at hblocked
  cases hpc : (s.host i).pc with
  | fault w =>
      rw [hpc] at hblocked
      exact absurd (page_wakes hs hpc hblocked) hnone
  | drain op =>
      rw [hpc] at hblocked
      exact absurd (diff_wakes hs op (bne_iff_ne.mp hblocked)) hnone
  | acqwait l => exact Or.inl ⟨l, rfl⟩
  | barrwait => exact Or.inr (Or.inl rfl)
  | barrsync => exact Or.inr (Or.inr rfl)
  | waitwait => exact Or.inr (Or.inr rfl)
  | app => rw [hpc] at hblocked; cases hblocked
  | scan op j n => rw [hpc] at hblocked; cases hblocked

theorem quiet_round (k : RoundKind cfg) (hs : (system cfg).Reach s)
    (hquiet : ∀ src dst, s.net src dst = []) : ∃ j < cfg.hostc, k.flag (s.host j) = false := by
  rcases round_wakes k hs with ⟨src, dst, msg, hmem, -⟩ | hout
  · rw [hquiet] at hmem
    cases hmem
  · exact hout

theorem holder_waits (hs : (system cfg).Reach s) (hquiet : ∀ src dst, s.net src dst = [])
    (hblocked : ∀ i < cfg.hostc, (s.host i).blocked = true)
    (hordered : ∀ i < cfg.hostc, ∀ l, (s.host i).pc = .acqwait l →
      ∀ l' ∈ (s.host i).y.ids, l' ≠ hidelock → l' < l)
    (k : Nat) : ∀ i < cfg.hostc, ∀ l, (s.host i).pc = .acqwait l → Maxlocks ≤ l + k →
      ∃ j < cfg.hostc, (s.host j).pc.inWait = true := by
  induction k with
  | zero =>
      intro i hi l hpc hle
      have hallowed := (reach_stackOk hs i).pc
      rw [hpc] at hallowed
      have hlt := (allowed_acq_iff.mp hallowed).1
      omega
  | succ k ih =>
      intro i hi l hpc hle
      have hb := hblocked i hi
      unfold Host.blocked at hb
      rw [hpc] at hb
      have hallowed := (reach_stackOk hs i).pc
      rw [hpc] at hallowed
      have hl : l ≠ hidelock := Nat.ne_of_lt (allowed_acq_iff.mp hallowed).1
      rcases lock_wakes hs hpc hb with ⟨src, dst, msg, hmem, -⟩ | ⟨j, hj, -, hold⟩
      · rw [hquiet] at hmem
        cases hmem
      have hbj := hblocked j hj
      have hid : l ∈ (s.host j).y.ids := by
        rcases hold with hid | ⟨hpcj, hdown⟩
        · exact hid
        · unfold Host.blocked at hbj
          rw [hpcj, hdown] at hbj
          cases hbj
      rcases quiet_wait hs hquiet hbj with ⟨l', hpcj⟩ | hpcj | hwait
      · exact ih j hj l' hpcj (by have := hordered j hj l' hpcj l hid hl; omega)
      · -- a host in a barrier holds no lock
        have hstack := reach_stackOk hs j
        have hbelow := hstack.pc
        rw [hpcj] at hbelow
        rw [SynState.ids_eq, show (s.host j).y.below = [] from hbelow] at hid
        rw [List.mem_singleton.mp hid] at hl
        exact absurd (hstack.top_hidelock hbelow) hl
      · exact ⟨j, hj, hwait⟩

theorem quiet_deadlock (hs : (system cfg).Reach s) (hquiet : ∀ src dst, s.net src dst = [])
    (hblocked : ∀ i < cfg.hostc, (s.host i).blocked = true)
    (hordered : ∀ i < cfg.hostc, ∀ l, (s.host i).pc = .acqwait l →
      ∀ l' ∈ (s.host i).y.ids, l' ≠ hidelock → l' < l) :
    (∃ i < cfg.hostc, (s.host i).pc.inWait = true) ∧
      ∃ j < cfg.hostc, (s.host j).pc.inWait = false := by
  -- not all hosts are in the same barrier, and not all in the same wait
  obtain ⟨i, hi, hbarr⟩ := quiet_round (Barrier.rounds cfg) hs hquiet
  obtain ⟨j, hj, hwait⟩ := quiet_round (Wait.rounds cfg) hs hquiet
  have hnot : (s.host j).pc.inWait = false := by
    have hb := hblocked j hj
    have hwait' : (s.host j).y.waitwait = false := hwait
    unfold Host.blocked at hb
    cases hpc : (s.host j).pc <;> rw [hpc] at hb <;> first | rfl | (rw [hwait'] at hb; cases hb)
  refine ⟨?_, j, hj, hnot⟩
  rcases quiet_wait hs hquiet (hblocked i hi) with ⟨l, hpc⟩ | hpc | hin
  · exact holder_waits hs hquiet hblocked hordered Maxlocks i hi l hpc (Nat.le_add_left _ _)
  · have hb := hblocked i hi
    have hbarr' : (s.host i).y.barrwait = false := hbarr
    unfold Host.blocked at hb
    rw [hpc, hbarr'] at hb
    cases hb
  · exact ⟨i, hi, hin⟩

/-- Hosts that take locks in increasing order get stuck only where a lock grant does not
fit, the lock stack is full, or some hosts are in `jia_wait` and others are not. -/
theorem deadlock_free (hb : cfg.Basic) (hhost : cfg.hostc ≠ 1) (hs : (system cfg).Reach s)
    (hstuck : ∀ e s', step cfg s e ≠ .ok s')
    (hordered : ∀ i < cfg.hostc, ∀ l, (s.host i).pc = .acqwait l →
      ∀ l' ∈ (s.host i).y.ids, l' ≠ hidelock → l' < l) :
    (∃ src dst msg rest, s.net src dst = msg :: rest ∧ ¬ GrantRoom cfg (s.host dst) src msg) ∨
      (∃ i < cfg.hostc, ∃ l, (s.host i).pc = .acqwait l ∧
        Maxstacksize ≤ (s.host i).y.below.length + 1) ∨
      ((∃ i < cfg.hostc, (s.host i).pc.inWait = true) ∧
        ∃ j < cfg.hostc, (s.host j).pc.inWait = false) := by
  by_cases hgrant : ∃ src dst msg rest, s.net src dst = msg :: rest ∧
      ¬ GrantRoom cfg (s.host dst) src msg
  · exact Or.inl hgrant
  by_cases hfull : ∃ i < cfg.hostc, ∃ l, (s.host i).pc = .acqwait l ∧
      Maxstacksize ≤ (s.host i).y.below.length + 1
  · exact Or.inr (Or.inl hfull)
  -- every message that is left could be handled
  have hquiet : ∀ src dst, s.net src dst = [] := by
    intro src dst
    cases hnet : s.net src dst with
    | nil => rfl
    | cons msg rest =>
        have hroom : GrantRoom cfg (s.host dst) src msg := by
          by_contra hno
          exact hgrant ⟨src, dst, msg, rest, hnet, hno⟩
        obtain ⟨s', hs'⟩ := (handled_iff_room hb hs hnet []).mpr hroom
        exact absurd hs' (hstuck _ s')
  -- and every main thread that does not wait could go on
  have hblocked : ∀ i < cfg.hostc, (s.host i).blocked = true := by
    intro i hi
    by_contra hfree
    rw [Bool.not_eq_true] at hfree
    by_cases hpc : (s.host i).pc = .app
    · obtain ⟨s', hs'⟩ := (step_main hi .wait).mpr
        ⟨_, bind_eq_ok.mpr ⟨(), await_eq_ok.mpr hpc, rfl⟩⟩
      exact hstuck _ s' hs'
    · obtain ⟨s', hs'⟩ := (goes_on_iff hb hhost hs hi hpc hfree).mpr fun l hl => by
        by_contra hno
        exact hfull ⟨i, hi, l, hl, Nat.not_lt.mp hno⟩
      exact hstuck _ s' hs'
  exact Or.inr (Or.inr (quiet_deadlock hs hquiet hblocked hordered))

theorem not_main_of_blocked {h h' : Host} {a : Act} {out : Out} (hblocked : h.blocked = true) :
    ¬ Main cfg i h a h' out := by
  intro hm
  unfold Host.blocked at hblocked
  cases hm with
  | leave hpc => rcases hpc with ⟨hpc, hw, -⟩ | ⟨hpc, hw⟩ <;> simp_all
  | _ => simp_all

theorem stuck_of_blocked (hquiet : ∀ src dst, s.net src dst = [])
    (hblocked : ∀ i < cfg.hostc, (s.host i).blocked = true) (e : Event) (s' : State) :
    step cfg s e ≠ .ok s' := by
  intro hnext
  rcases step_view hnext with ⟨i, act, hst, out, -, hi, hm, -⟩ |
    ⟨src, dst, rnd, msg, rest, hst, out, -, hnet, -⟩
  · exact not_main_of_blocked (hblocked i hi) hm
  · rw [hquiet] at hnet
    cases hnet

/-- Host 1 comes to `jia_wait` and host 0 to the barrier. -/
def waitAndBarrier : List Event :=
  [.main 1 .wait, .main 0 .barrier, .main 0 .go, .main 0 .go, .main 0 .go, .deliver 1 0 [],
    .deliver 0 0 []]

theorem waitAndBarrier_net (a b : Nat) :
    (System.execBy (step .onePage) waitAndBarrier (initState .onePage)).toOption.map
      (fun s => (s.net a b).length) = some 0 := by
  rcases a with _ | _ | a
  · rcases b with _ | _ | b
    · decide +kernel
    · decide +kernel
    · rfl
  · rcases b with _ | _ | b
    · decide +kernel
    · decide +kernel
    · rfl
  · rfl

/-- Host 0 waits in the barrier for host 1, and host 1 in `jia_wait` for host 0. -/
theorem deadlock_free_waitAndBarrier :
    ∃ s, (system .onePage).Reach s ∧ (∀ e s', step .onePage s e ≠ .ok s') ∧
      (s.host 0).pc = .barrwait ∧
      ((∃ src dst msg rest, s.net src dst = msg :: rest ∧
          ¬ GrantRoom .onePage (s.host dst) src msg) ∨
        (∃ i < 2, ∃ l, (s.host i).pc = .acqwait l ∧ Maxstacksize ≤ (s.host i).y.below.length + 1) ∨
        ((∃ i < 2, (s.host i).pc.inWait = true) ∧ ∃ j < 2, (s.host j).pc.inWait = false)) := by
  cases hrun : System.execBy (step .onePage) waitAndBarrier (initState .onePage) with
  | error e =>
      have hnet := waitAndBarrier_net 0 0
      rw [hrun] at hnet
      cases hnet
  | ok s =>
      have hquiet : ∀ a b, s.net a b = [] := by
        intro a b
        have hnet := waitAndBarrier_net a b
        rw [hrun] at hnet
        exact List.length_eq_zero_iff.mp (Option.some.inj hnet)
      have hcheck :
          ((System.execBy (step .onePage) waitAndBarrier (initState .onePage)).toOption.any
            fun s : State => decide (((s.host 0).pc = .barrwait ∧ (s.host 0).blocked = true) ∧
              (s.host 1).pc = .waitwait ∧ (s.host 1).blocked = true)) = true := by decide +kernel
      rw [hrun] at hcheck
      obtain ⟨⟨hbarr, hblocked₀⟩, hwait, hblocked₁⟩ := of_decide_eq_true hcheck
      have hs := System.Reach.start.execBy (S := system .onePage) (fun _ _ _ h => h) hrun
      have hstuck : ∀ e s', step .onePage s e ≠ .ok s' := stuck_of_blocked hquiet (by
        intro i hi
        rcases Nat.le_one_iff_eq_zero_or_eq_one.mp (Nat.le_of_lt_succ hi) with rfl | rfl
        · exact hblocked₀
        · exact hblocked₁)
      refine ⟨s, hs, hstuck, hbarr, deadlock_free ⟨rfl, rfl, rfl⟩ (by decide) hs hstuck ?_⟩
      intro i hi l hpc
      rcases Nat.le_one_iff_eq_zero_or_eq_one.mp (Nat.le_of_lt_succ hi) with rfl | rfl
      · rw [hbarr] at hpc
        cases hpc
      · rw [hwait] at hpc
        cases hpc

end Deadlock

end Jiajia
