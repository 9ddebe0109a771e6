import Jiajia.Flushes
import Jiajia.Detection
import Jiajia.ReaderFlag

/-!
# Writes that will be announced

A host that has written a page since the last barrier announces it with the next one:
the page is in a written slot or a marked home entry, or on the lock stack, or in the
burst the host has sent to the manager.
-/

namespace Jiajia

open Fifo Transition Host MemState Rounds

variable {cfg : Config}

/-! ## Hosts in runs -/

theorem reach_runOk (hhost : cfg.hostc ≠ 1) {s : State} (hs : (system cfg).Reach s) (i : Nat) :
    RunOk cfg i (s.host i) ∧ (Running (s.host i) → WrittenRw cfg (s.host i).m) := by
  obtain ⟨d, hd⟩ := (reach_host_run hs i).exists_hist (dirtyHistory i)
  have hcov := reach_covered hhost hd
  exact ⟨hcov.run, hcov.rw⟩

theorem reach_filled (hoff : cfg.hMig = false) {s : State} (hs : (system cfg).Reach s) (i : Nat) :
    (s.host i).m.Filled := by
  revert i
  refine hs.invariant (I := fun s => ∀ i, (s.host i).m.Filled) ?_ ?_
  · intro i j _ hne
    have hpages : (initmem cfg i).hpages = cfg.layout.count i := by
      simp [MemState.hpages, initmem]
    change j < (initmem cfg i).hpages
    rw [hpages]
    by_contra hge
    exact hne (if_neg hge)
  intro s e s' hreach hinv hnext j
  rcases step_view hnext with ⟨i, act, hst, out, -, hi, hm, -, rfl⟩ |
    ⟨src, dst, rnd, msg, rest, hst, out, -, hnet, hm, -, rfl⟩
  · by_cases hj : j = i
    · subst hj
      have hk := main_kept ((reach_pages hreach).host j).tables hm
      rw [State.put_host_same]
      exact (hinv j).congr hk.addr hk.homesize
    · rw [State.put_host_of_ne _ _ _ hj]
      exact hinv j
  · by_cases hj : j = dst
    · subst hj
      have hmem : msg ∈ s.net src j := by
        rw [hnet]
        exact List.mem_cons_self
      have hall := reach_pages hreach
      rw [State.put_host_same]
      cases served_mem (hall.host j).tables (hall.net hmem) (reach_routed hreach hmem) hm with
      | still hstill => exact (hinv j).congr hstill.home.addr hstill.home.homesize
      | serve addr temp hmsg hserves =>
          exact (hinv j).congr hserves.flagged.addr hserves.flagged.homesize
      | install addr wv data xs hmsg hout hre =>
          exact (hinv j).congr hre.home.addr hre.home.homesize
      | drop hre => exact (hinv j).congr hre.home.addr hre.home.homesize
      | invld ns hmsg hout hns =>
          exact (hinv j).congr (hns.still hoff).addr (hns.still hoff).homesize
      | barrgrant scope ns hmsg hout hns =>
          exact (hinv j).congr (hns.still hoff).addr (hns.still hoff).homesize
    · rw [State.put_host_of_ne _ _ _ hj]
      exact hinv j

/-! ## The lists of the stack -/

/-- A list of the stack names page `p`. -/
def SynState.Lists (cfg : Config) (y : SynState) (p : Nat) : Prop := ∃ l ∈ y.lists, l.Names cfg p

theorem lists_iff {y : SynState} {p : Nat} :
    y.Lists cfg p ↔ y.top.wtntp.Names cfg p ∨ ∃ e ∈ y.below, e.wtntp.Names cfg p := by
  simp [SynState.Lists, SynState.lists]

section Main

variable {pid : Nat} {h h' : Host} {a : Act} {out : Out} {p : Nat}

theorem main_lists_named (hm : Main cfg pid h a h' out) (hpc : h.pc ≠ .drain .barr)
    (hl : h.y.Lists cfg p) : h'.y.Lists cfg p := by
  cases hm with
  | start hpc' hhost ha hop hm =>
      obtain ⟨y, dm, hsave, -, rfl⟩ := endinterval_ok hm
      have hbelow := (savepages_sameButTop hsave).flags.2.2.2.2.1
      rw [lists_iff] at hl ⊢
      simp only [hbelow]
      exact hl.imp_left fun hn => savepages_names hsave (Or.inl hn)
  | @scan op i n h₁ hpc' hi hm =>
      have hs := scanHome_spec hm
      have hbelow := hs.top.flags.2.2.2.2.1
      rw [lists_iff] at hl ⊢
      simp only [hbelow]
      refine hl.imp_left fun hn => ?_
      rcases hs.saved with heq | ⟨-, heq⟩
      · rw [heq]
        exact hn
      · rw [heq]
        exact SynState.names_saveTop.mpr (Or.inr hn)
  | acquired hpc' hwait hm hpush =>
      rw [pushstack_ok hpush]
      rw [lists_iff] at hl ⊢
      right
      rcases hl with hn | ⟨e, he, hn⟩
      · exact ⟨h.y.top, List.mem_cons_self, hn⟩
      · exact ⟨e, List.mem_cons_of_mem _ he, hn⟩
  | release hpc' hwait hout hm hpop =>
      obtain ⟨top, below, hbelow, rfl⟩ := popstack_ok hpop
      rw [lists_iff, hbelow] at hl
      rw [lists_iff]
      rcases hl with hn | ⟨e, he, hn⟩
      · exact Or.inl (SynState.mem_nums_mergeNotices.mpr (Or.inl (WtntList.mem_nums.mp hn)))
      · rcases List.mem_cons.mp he with rfl | he
        · exact Or.inl (SynState.mem_nums_mergeNotices.mpr (Or.inr hn))
        · exact Or.inr ⟨e, he, hn⟩
  | arrive hpc' => exact absurd hpc' hpc
  | leave hpc' hm =>
      obtain ⟨m₁, m₂, -, -, rfl⟩ := leaveBarrier_ok hm
      exact hl
  | _ => exact hl

theorem main_barrwait (hm : Main cfg pid h a h' out) (hpc : h.pc ≠ .drain .barr) :
    h'.y.barrwait = h.y.barrwait := by
  cases hm with
  | start hpc' hhost ha hop hm =>
      obtain ⟨y, dm, hsave, -, rfl⟩ := endinterval_ok hm
      exact (savepages_sameButTop hsave).flags.2.1
  | scan hpc' hi hm => exact (scanHome_spec hm).top.flags.2.1
  | acquired hpc' hwait hm hpush => rw [pushstack_ok hpush]
  | release hpc' hwait hout hm hpop =>
      obtain ⟨top, below, -, rfl⟩ := popstack_ok hpop
      rfl
  | arrive hpc' => exact absurd hpc' hpc
  | leave hpc' hm =>
      obtain ⟨m₁, m₂, -, -, rfl⟩ := leaveBarrier_ok hm
      rfl
  | _ => rfl

theorem main_ends (hm : Main cfg pid h a h' out) (hrun : Running h) (hno : ¬ Running h') :
    ∃ op y dm, savepages cfg pid h.m h.y (fun _ => []) (List.range cfg.cachepages) = .ok (y, dm) ∧
      out = senddiffs cfg dm ∧
      h' = ⟨{ h.m with diffwait := h.m.diffwait + out.length }, y, .scan op 0 h.m.hpages⟩ := by
  by_cases hs : Act.starts a = none
  · exact absurd (main_stays hm hs hrun) hno
  · cases hm with
    | start hpc' hhost ha hop hm =>
        obtain ⟨y, dm, hsave, hout, hh⟩ := endinterval_ok hm
        exact ⟨_, y, dm, hsave, hout, hh⟩
    | single => exact absurd hrun hno
    | _ => exact absurd rfl hs

theorem wtnt_scanHome {op : SynOp} {i : Nat} (hs : h.scanHome cfg pid op i = .ok h') (j : Nat) :
    (h'.m.home j).wtnt = (h.m.home j).wtnt := by
  unfold scanHome at hs
  split at hs
  · simp only [bind_eq_ok, pure, Except.pure, Except.ok.injEq] at hs
    obtain ⟨m, hvec, rfl⟩ := hs
    have hsave : ((h.saveHome pid op i).m.home j).wtnt = (h.m.home j).wtnt := by
      unfold saveHome
      split
      · split
        · exact wtnt_setHome (by rfl) j
        · rfl
      · rfl
    refine Eq.trans ?_ hsave
    unfold vectorHome at hvec
    simp only at hvec
    split at hvec
    · split at hvec
      · cases hvec
      · obtain rfl := Except.ok.inj hvec
        unfold addwtvect
        exact wtnt_setHome (by rfl) j
    · rw [← Except.ok.inj hvec]
  · rw [← Except.ok.inj hs]

end Main

/-! ## Announcements -/

/-- Host `g` has written page `p` since the last barrier and has announced it, or will
with the next one. -/
inductive WillTell (cfg : Config) (s : State) (log : RoundLog) (p g : Nat) : Prop
  /-- A slot was written. -/
  | written (hrun : Running (s.host g)) (hw : Written cfg (s.host g).m p)
  /-- The home has written its page, and there may be copies. -/
  | home (hrun : Running (s.host g)) (hself : ((s.host g).m.page p).homepid = g)
      (hrec : Recorded cfg g (s.host g).m p) (hr : (s.host g).m.rdnt p = true)
  /-- The home loop has yet to come to the page. -/
  | scan (op : SynOp) (i n : Nat) (hpc : (s.host g).pc = .scan op i n)
      (hi : i ≤ ((s.host g).m.page p).homei) (hn : ((s.host g).m.page p).homei < n)
      (hself : ((s.host g).m.page p).homepid = g)
      (hbit : ((s.host g).m.home ((s.host g).m.page p).homei).wtnt &&& 1 = 1)
      (hr : (s.host g).m.rdnt p = true)
  | listed (hflag : (s.host g).y.barrwait = false) (hl : (s.host g).y.Lists cfg p)
  | sent (msg : Msg) (nt : StackNotice) (hmsg : msg ∈ log.offered g log.rounds)
      (hnt : nt ∈ msg.stackNotices) (ha : nt.addr = cfg.pageAddr p)

section Steps

variable {s : State} {log : RoundLog} {i p g : Nat} {a : Act} {hst : Host} {out : Out}

theorem Told.willTell (hstack : StackOk (s.host g)) (ht : Told cfg s log p g) :
    WillTell cfg s log p g := by
  cases ht with
  | scan i n hpc hpast hnoted =>
      have hflag := (hstack.flags_down (by simp [hpc]) (by simp [hpc]) (by simp [hpc])).2.1
      exact .listed hflag (lists_iff.mpr (Or.inl hnoted))
  | drain hpc hnoted =>
      have hflag := (hstack.flags_down (by simp [hpc]) (by simp [hpc]) (by simp [hpc])).2.1
      exact .listed hflag (lists_iff.mpr (Or.inl hnoted))
  | sent msg nt hmsg hnt ha => exact .sent msg nt hmsg hnt ha

theorem WillTell.congr {s' : State} {log' : RoundLog} (ht : WillTell cfg s log p g)
    (hhost : s'.host g = s.host g) (hoff : log'.offered g = log.offered g)
    (hrounds : log'.rounds = log.rounds) : WillTell cfg s' log' p g := by
  cases ht with
  | written hrun hw => exact .written (by rwa [hhost]) (by rwa [hhost])
  | home hrun hself hrec hr =>
      exact .home (by rwa [hhost]) (by rwa [hhost]) (by rwa [hhost]) (by rwa [hhost])
  | scan op i n hpc hi hn hself hbit hr =>
      exact .scan op i n (by rwa [hhost]) (by rwa [hhost]) (by rwa [hhost]) (by rwa [hhost])
        (by rwa [hhost]) (by rwa [hhost])
  | listed hflag hl => exact .listed (by rwa [hhost]) (by rwa [hhost])
  | sent msg nt hmsg hnt ha => exact .sent msg nt (by rwa [hoff, hrounds]) hnt ha

theorem Host.StackOk.barrwait_down {h : Host} (hstack : StackOk h) (hpc : h.pc ≠ .barrwait) :
    h.y.barrwait = false := by
  by_contra hne
  exact hpc (hstack.barrwait (by simpa using hne))

theorem Host.Running.not_barrwait {h : Host} (hrun : Running h) : h.pc ≠ .barrwait :=
  fun hpc => hrun.not_waits (Or.inr hpc)

/-- A store of the home will be announced if there may be copies. -/
theorem willTell_home (hok : RunOk cfg g (s.host g)) (hfilled : (s.host g).m.Filled)
    (hp : p < cfg.npages) (hpc : (s.host g).pc = .app) (hprot : (s.host g).m.prot p = .readWrite)
    (hself : ((s.host g).m.page p).homepid = g) (hr : (s.host g).m.rdnt p = true) :
    WillTell cfg s log p g := by
  refine .home (Or.inl hpc) hself ⟨fun _ => ⟨?_, ?_⟩, fun haway => absurd hself haway⟩ hr
  · exact (hok.detects.marked p hp hprot (not_reading (by simp [hpc]))).1 hself
  · obtain ⟨hlt, ha⟩ := hok.pages.tables.home.home p hp hself
    refine hfilled _ hlt ?_
    rw [ha]
    exact cfg.pageAddr_ne_zero hp

theorem willTell_main (hi : i < cfg.hostc) (hp : p < cfg.npages)
    (hok : (Barrier.rounds cfg).Ok (s, log)) (hrunok : RunOk cfg i (s.host i))
    (hm : Main cfg i (s.host i) a hst out) (ht : WillTell cfg s log p g) :
    WillTell cfg (s.put i hst out) ((Barrier.rounds cfg).noteSent log i out) p g := by
  have hrounds := (noteSent_frame (Barrier.rounds cfg) log i out).1
  by_cases hg : g = i
  · subst hg
    have hstack' : StackOk hst := stackOk_main hrunok.stack hm
    have hk := main_kept hrunok.pages.tables hm
    have hput : (s.put g hst out).host g = hst := State.put_host_same _ _ _ _
    have hlisted : hst.pc ≠ .barrwait → hst.y.Lists cfg p →
        WillTell cfg (s.put g hst out) ((Barrier.rounds cfg).noteSent log g out) p g :=
      fun hpc hl => .listed (by rw [hput, hstack'.barrwait_down hpc]) (by rwa [hput])
    -- the flag of a page is cleared in the home loop only
    have hflag : (∀ op j n, (s.host g).pc ≠ .scan op j n) → (s.host g).m.rdnt p = true →
        hst.m.rdnt p = true := by
      intro hpc hr
      unfold MemState.rdnt at hr ⊢
      rw [hk.homei]
      rcases hk.rdnt ((s.host g).m.page p).homei with heq | ⟨n, hscan, -⟩
      · rw [heq, hr]
      · exact absurd hscan (hpc _ _ _)
    cases ht with
    | written hrun hw =>
        by_cases hrun' : Running hst
        · refine .written (by rwa [hput]) ?_
          rw [hput]
          exact (main_keeps hrunok.pages.tables hm hrun hrun').written p hp hw
        · obtain ⟨op, y, dm, hsave, -, rfl⟩ := main_ends hm hrun hrun'
          obtain ⟨c, hc, hw, -, ha⟩ := hw
          refine hlisted nofun (lists_iff.mpr (Or.inl ?_))
          exact savepages_names hsave (Or.inr ⟨c, List.mem_range.mpr hc, hw, ha⟩)
    | home hrun hself hrec hr =>
        by_cases hrun' : Running hst
        · refine .home (by rwa [hput]) (by rw [hput, hk.homepid, hself]) ?_ ?_
          · rw [hput]
            exact (main_keeps hrunok.pages.tables hm hrun hrun').recorded p hp hrec
          · rw [hput]
            refine hflag ?_ hr
            intro op j n hpc
            exact not_running hpc rfl hrun
        · obtain ⟨op, y, dm, -, -, rfl⟩ := main_ends hm hrun hrun'
          obtain ⟨hbit, hlt⟩ := hrec.1 hself
          exact .scan op 0 (s.host g).m.hpages (by rw [hput]) (Nat.zero_le _) (by rwa [hput])
            (by rwa [hput]) (by rwa [hput]) (by rwa [hput])
    | scan op j n hpc hj hn hself hbit hr =>
        cases hm with
        | @scan op' j' n' h₁ hpc' hlt hm =>
            rw [hpc] at hpc'
            cases hpc'
            have hs := scanHome_spec hm
            by_cases hjp : j = ((s.host g).m.page p).homei
            · have hne : ((s.host g).m.home j).wtnt &&& 1 ≠ 0 := by
                rw [hjp, hbit]
                decide
              have hsaved := hs.noted hne (by rw [hjp]; exact hr)
              have ha := (hrunok.pages.tables.home.home p hp hself).2
              refine hlisted nofun (lists_iff.mpr (Or.inl ?_))
              change h₁.y.top.wtntp.Names cfg p
              rw [hsaved, hjp, ha]
              exact SynState.names_saveTop.mpr (Or.inl rfl)
            · have hpage : (h₁.m.page p).homei = ((s.host g).m.page p).homei := by rw [hs.page]
              refine .scan op (j + 1) n (by rw [hput]) ?_ ?_ ?_ ?_ ?_
              · rw [hput, hpage]
                omega
              · rw [hput, hpage]
                exact hn
              · rw [hput, hk.homepid, hself]
              · rw [hput, hpage, wtnt_scanHome hm, hbit]
              · rw [hput]
                unfold MemState.rdnt at hr ⊢
                rw [hpage]
                rcases hs.rdnt ((s.host g).m.page p).homei with heq | ⟨heq, -⟩
                · rw [heq, hr]
                · exact absurd heq.symm hjp
        | scanEnd hpc' hle =>
            rw [hpc] at hpc'
            cases hpc'
            omega
        | leave hpc' =>
            rcases hpc' with ⟨hpc', -⟩ | ⟨hpc', -⟩ <;> rw [hpc] at hpc' <;> cases hpc'
        | _ hpc' => rw [hpc] at hpc'; cases hpc'
    | listed hdown hl =>
        by_cases hpc : (s.host g).pc = .drain .barr
        · cases hm with
          | arrive hpc' hwait hm =>
              have hbelow := hrunok.stack.pc
              rw [hpc] at hbelow
              have hnoted : Noted cfg (s.host g).y p := by
                rcases lists_iff.mp hl with hn | ⟨e, he, -⟩
                · exact hn
                · have hnil : (s.host g).y.below = [] := hbelow
                  rw [hnil] at he
                  cases he
              refine (told_arrive hi hp hok hrunok.stack hrunok.pages hpc hnoted hm).willTell ?_
              rw [hput]
              exact hstack'
          | leave hpc' =>
              rcases hpc' with ⟨hpc', -⟩ | ⟨hpc', -⟩ <;> rw [hpc] at hpc' <;> cases hpc'
          | _ hpc' => rw [hpc] at hpc'; cases hpc'
        · have hl' := main_lists_named hm hpc hl
          exact .listed (by rw [hput, main_barrwait hm hpc, hdown]) (by rwa [hput])
    | sent msg nt hmsg hnt ha =>
        refine (told_main hi hp hok hrunok.stack hrunok.pages hm (.sent msg nt hmsg hnt ha)).willTell ?_
        rw [hput]
        exact hstack'
  · refine ht.congr (State.put_host_of_ne _ _ _ hg) ?_ hrounds
    rw [offered_noteSent, if_neg fun hcon => hg hcon.1]

theorem served_grows {pid src : Nat} {rnd : List Nat} {msg : Msg} {h h' : Host} {out : Out}
    (hb : cfg.Basic) (hnil : msg.invalidates = [])
    (hxs : ∀ addr wv data xs, msg = .getpgrant addr wv data xs → xs = [])
    (hs : Served cfg pid h src rnd msg h' out) (j : Nat) (hbit : (h.m.home j).wtnt &&& 1 = 1) :
    (h'.m.home j).wtnt &&& 1 = 1 := by
  have hinv : ∀ {l : Nat} {ns : List GrantNotice} {m : MemState}, ns = [] →
      invalidate cfg pid l h.m ns = .ok m → (m.home j).wtnt &&& 1 = 1 := by
    rintro l ns m rfl hm
    simp only [invalidate, Except.ok.injEq] at hm
    exact hm ▸ hbit
  cases hs with
  | @diff ds m hm =>
      have hopens : Opens cfg pid h.m m := opens_applyDiffs hm
      exact hopens.grows j hbit
  | getp hm => exact (opens_getpserver hm).grows j hbit
  | getpgrant hm =>
      obtain rfl := hxs _ _ _ _ rfl
      obtain rfl := getpgrantserver_one hb.wVec hm
      exact hbit
  | acqgrant hm => exact hinv hnil hm
  | invld hm => exact hinv hnil hm
  | barrgrant hm =>
      obtain ⟨m, hm', rfl⟩ := barrgrantserver_ok hm
      simpa [hb.hMig] using hinv hnil hm'
  | _ => exact hbit

/-- A message keeps what a host has to announce, unless it ends the round. -/
theorem willTell_served (hb : cfg.Basic) {log' : RoundLog} {src dst : Nat} {rnd : List Nat}
    {msg : Msg} {rest : List Msg} (hp : p < cfg.npages) (hreach : (system cfg).Reach s)
    (hrunok : RunOk cfg dst (s.host dst)) (hnet : s.net src dst = msg :: rest)
    (hm : Served cfg dst (s.host dst) src rnd msg hst out)
    (hoff : log'.offered = log.offered) (hrounds : log'.rounds = log.rounds)
    (ht : WillTell cfg s log p g) :
    WillTell cfg ({ s with net := drop s.net src dst }.put dst hst out) log' p g := by
  by_cases hg : g = dst
  · subst hg
    have hput : ({ s with net := drop s.net src g }.put g hst out).host g = hst :=
      State.put_host_same _ _ _ _
    have hexp := reach_expected hreach hnet
    obtain ⟨hpc, htop, hbelow⟩ := served_stack hm
    have hmem := served_mem hrunok.pages.tables hexp.pages hexp.routed hm
    have hrun' : Running (s.host g) → Running hst := by
      intro hrun
      unfold Running at hrun ⊢
      rwa [hpc]
    have hdown : (s.host g).pc ≠ .barrwait → Barrier.down msg = false := by
      intro hno
      by_contra hd
      exact hno (hrunok.stack.barrwait (hexp.barrier (by simpa using hd)))
    have hflag : (s.host g).pc ≠ .barrwait → (s.host g).m.rdnt p = true → hst.m.rdnt p = true := by
      intro hno hr
      by_contra hne
      rw [(homeKept_served hmem (hdown hno)).rdnt p (by simpa using hne)] at hr
      cases hr
    cases ht with
    | written hrun hw =>
        refine .written (by rw [hput]; exact hrun' hrun) ?_
        rw [hput]
        exact (served_keeps hrunok hexp hrun hm).written p hp hw
    | home hrun hself hrec hr =>
        have hkeep := served_keeps hrunok hexp hrun hm
        refine .home (by rw [hput]; exact hrun' hrun) ?_ ?_ ?_
        · rw [hput, hkeep.homepid, hself]
        · rw [hput]
          exact hkeep.recorded p hp hrec
        · rw [hput]
          exact hflag hrun.not_barrwait hr
    | scan op j n hpcs hj hn hself hbit hr =>
        have hno : (s.host g).pc ≠ .barrwait := by
          rw [hpcs]
          exact nofun
        have hk := homeKept_served hmem (hdown hno)
        have hnil : msg.invalidates = [] := by
          rcases reach_invalidates hreach hnet with (⟨l, hw⟩ | hw) | hnil
          · rw [hpcs] at hw
            cases hw
          · exact absurd hw hno
          · exact hnil
        have hxs : ∀ addr wv data xs, msg = .getpgrant addr wv data xs → xs = [] :=
          fun addr wv data xs heq => ((reach_copyMsg hb hreach hnet).reply addr wv data xs heq).1
        refine .scan op j n (by rw [hput, hpc, hpcs]) ?_ ?_ ?_ ?_ ?_
        · rw [hput, hk.homei]
          exact hj
        · rw [hput, hk.homei]
          exact hn
        · rw [hput, hk.homepid, hself]
        · rw [hput, hk.homei]
          exact served_grows hb hnil hxs hm _ hbit
        · rw [hput]
          exact hflag hno hr
    | listed hflag' hl =>
        refine .listed ?_ ?_
        · have hd : Barrier.down msg = false := by
            by_contra hd
            rw [hexp.barrier (by simpa using hd)] at hflag'
            cases hflag'
          rw [hput, served_barrwait hexp.routed hd hm, hflag']
        · rw [hput, lists_iff, htop, hbelow]
          exact lists_iff.mp hl
    | sent m nt hmsg hnt ha => exact .sent m nt (by rwa [hoff, hrounds]) hnt ha
  · exact ht.congr (State.put_host_of_ne _ _ _ hg) (by rw [hoff]) hrounds

/-- All that is left to announce when every host waits has been sent. -/
theorem WillTell.at_end (hstack : StackOk (s.host g)) (hflag : (s.host g).y.barrwait = true)
    (ht : WillTell cfg s log p g) :
    ∃ m nt, m ∈ log.offered g log.rounds ∧ nt ∈ m.stackNotices ∧ nt.addr = cfg.pageAddr p := by
  have hpc := hstack.barrwait hflag
  cases ht with
  | written hrun => exact absurd hpc hrun.not_barrwait
  | home hrun => exact absurd hpc hrun.not_barrwait
  | scan op j n hpcs =>
      rw [hpc] at hpcs
      cases hpcs
  | listed hdown =>
      rw [hflag] at hdown
      cases hdown
  | sent m nt hmsg hnt ha => exact ⟨m, nt, hmsg, hnt, ha⟩

end Steps

end Jiajia
