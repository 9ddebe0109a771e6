import Jiajia.Coherence

/-!
# A home without readers stays without them

The steps of server threads, seen from one page, and what holds in every run: a
home that has written a page and announces nothing at a barrier has no copy
elsewhere that outlives the barrier before.
-/

namespace Jiajia

open Fifo Transition Host MemState Rounds

variable {cfg : Config}

/-! ## Steps of server threads -/

section Served

variable {s : State} {log : RoundLog} {cl : Nat → Nat → Option Nat} {src dst : Nat}
  {rnd : List Nat} {msg : Msg} {rest : List Msg} {hst : Host} {out : Out} {p : Nat}

theorem offered_noteHandled (k : RoundKind cfg) (log : RoundLog) (src dst : Nat) (msg : Msg)
    (out : Out) : (k.noteHandled log src dst msg out).offered = log.offered := by
  unfold RoundKind.noteHandled RoundKind.noteTaken RoundKind.noteHeard
  dsimp only
  split_ifs <;> rfl

theorem told_served {log' : RoundLog} {h : Nat} (hs : Served cfg dst (s.host dst) src rnd msg hst out)
    (hoff : log'.offered = log.offered) (hrounds : log'.rounds = log.rounds)
    (hidx : (s.host dst).pc ≠ .barrwait →
      (hst.m.page p).homei = ((s.host dst).m.page p).homei) (ht : Told cfg s log p h) :
    Told cfg ({ s with net := drop s.net src dst }.put dst hst out) log' p h := by
  obtain ⟨hpc', htop, -⟩ := served_stack hs
  by_cases hh : h = dst
  · subst hh
    cases ht with
    | scan i n hpc hpast hnoted =>
        refine .scan i n ?_ ?_ ?_
        · rw [State.put_host_same, hpc', hpc]
        · rw [State.put_host_same, hidx (by simp [hpc])]
          exact hpast
        · rw [State.put_host_same, Noted, htop]
          exact hnoted
    | drain hpc hnoted =>
        refine .drain ?_ ?_
        · rw [State.put_host_same, hpc', hpc]
        · rw [State.put_host_same, Noted, htop]
          exact hnoted
    | sent m nt hmsg hnt ha => exact .sent m nt (by rwa [hoff, hrounds]) hnt ha
  · have hhost : ({ s with net := drop s.net src dst }.put dst hst out).host h = s.host h :=
      State.put_host_of_ne _ _ _ hh
    cases ht with
    | scan i n hpc hpast hnoted =>
        exact .scan i n (by rw [hhost, hpc]) (by rwa [hhost]) (by rwa [hhost])
    | drain hpc hnoted => exact .drain (by rw [hhost, hpc]) (by rwa [hhost])
    | sent m nt hmsg hnt ha => exact .sent m nt (by rwa [hoff, hrounds]) hnt ha

theorem inFlight_served {h : Nat}
    (hout : ∀ y ∈ out, ∀ addr wv data xs, y.2 ≠ .getpgrant addr wv data xs)
    (hf : InFlight cfg ({ s with net := drop s.net src dst }.put dst hst out) p h) :
    InFlight cfg s p h :=
  inFlight_send mem_of_mem_drop (State.put_net _ _ _ _) hout hf

/-- New copies come from a host that sees itself as the home and has set its flag. -/
theorem holds_served {h : Nat} (hp : p < cfg.npages) (hnet : s.net src dst = msg :: rest)
    (hfetch : Fetching cfg s dst) (htables : (s.host dst).m.Tables cfg dst)
    (hs : Served cfg dst (s.host dst) src rnd msg hst out)
    (hmem : ServedMem cfg dst src (s.host dst).m msg hst.m out)
    (hdown : Barrier.down msg = false)
    (hcopy : (({ s with net := drop s.net src dst }.put dst hst out).host h).HoldsPage cfg p ∨
      InFlight cfg ({ s with net := drop s.net src dst }.put dst hst out) p h) :
    ((s.host h).HoldsPage cfg p ∨ InFlight cfg s p h) ∨
      (((s.host dst).m.page p).homepid = dst ∧ hst.m.rdnt p = true) := by
  have hpc' := (served_stack hs).1
  rcases hcopy with hcopy | hcopy
  · left
    by_cases hh : h = dst
    · subst hh
      rw [State.put_host_same] at hcopy
      obtain ⟨hc, hwaits⟩ := hcopy
      have hsame : hst.m.getpwait = (s.host h).m.getpwait → ¬ (s.host h).Awaits p := by
        rintro hwait ⟨w, hpc, hw, hset⟩
        exact hwaits ⟨w, hpc'.trans hpc, hw, hwait.trans hset⟩
      cases hmem with
      | still hstill => exact Or.inl ⟨(hstill.cache.cached p).mp hc, hsame hstill.getpwait⟩
      | serve addr temp hmsg hserves =>
          exact Or.inl ⟨(hserves.flagged.cache.cached p).mp hc, hsame hserves.flagged.getpwait⟩
      | install addr wv data xs hmsg hout hre hwait =>
          have hhead : Msg.getpgrant addr wv data xs ∈ s.net src h := by
            rw [hnet, hmsg]
            exact List.mem_cons_self
          rcases hre.cached p hp hc with hold | hnew
          · by_cases hw : (s.host h).Awaits p
            · -- the reply is for the page the main thread waits for
              obtain ⟨w, hpc, hwp, -⟩ := hw
              obtain ⟨w', hpcw, -, haddr⟩ := hfetch.reply hhead
              rw [hpc] at hpcw
              obtain rfl := Pc.fault.inj hpcw
              rw [hwp] at haddr
              exact Or.inr ⟨src, addr, wv, data, xs, hhead, Or.inl haddr⟩
            · exact Or.inl ⟨hold, hw⟩
          · exact Or.inr ⟨src, addr, wv, data, xs, hhead, Or.inr hnew⟩
      | drop hre hwait =>
          rcases hre.cached p hp hc with hold | hnew
          · exact Or.inl ⟨hold, hsame hwait⟩
          · exact hnew.elim
      | invld ns hmsg =>
          subst hmsg
          cases hdown
      | barrgrant scope ns hmsg =>
          subst hmsg
          cases hdown
    · rw [State.put_host_of_ne _ _ _ hh] at hcopy
      exact Or.inl hcopy
  · have hquiet : (∀ y ∈ out, ∀ addr wv data xs, y.2 ≠ .getpgrant addr wv data xs) →
        InFlight cfg s p h := fun hout => inFlight_served hout hcopy
    cases hmem with
    | still hstill hout => exact Or.inl (Or.inr (hquiet hout))
    | install addr wv data xs hmsg hout =>
        exact Or.inl (Or.inr (hquiet (by simp [hout])))
    | drop hre hwait hout => exact Or.inl (Or.inr (hquiet (by simp [hout])))
    | invld ns hmsg hout => exact Or.inl (Or.inr (hquiet (by simp [hout])))
    | barrgrant scope ns hmsg hout => exact Or.inl (Or.inr (hquiet (by simp [hout])))
    | serve addr temp hmsg hserves =>
        obtain ⟨wv, data, xs, hout, hxs⟩ := hserves.out
        obtain ⟨a, addr', wv', data', xs', hmem', haddr⟩ := hcopy
        rw [State.put_net] at hmem'
        rcases mem_send.mp hmem' with hm | ⟨rfl, hm⟩
        · exact Or.inl (Or.inr ⟨a, addr', wv', data', xs', mem_of_mem_drop hm, haddr⟩)
        · rw [hout, List.mem_singleton] at hm
          obtain ⟨-, hm⟩ := Prod.mk.inj hm
          obtain ⟨rfl, rfl, rfl, rfl⟩ := Msg.getpgrant.inj hm
          right
          rcases haddr with haddr | ⟨x, hx, haddr⟩
          · have hown := hserves.own
            have hflag := hserves.flag
            rw [haddr, cfg.pagei_pageAddr hp] at hflag
            unfold MemState.homehost at hown
            rw [haddr, cfg.pagei_pageAddr hp] at hown
            exact ⟨hown, hflag⟩
          · obtain ⟨q, hq, hown, hidx, hflag⟩ := hxs x hx
            have hlt : q < cfg.npages := by
              by_contra hge
              have hout := htables.home.outside q (not_lt.mp hge)
              omega
            have hpq : q = p := cfg.pageAddr_inj hlt hp (hq.symm.trans haddr)
            rw [← hpq]
            exact ⟨hown, hflag⟩

theorem page_quiet {log' : RoundLog} (hp : p < cfg.npages) (hnet : s.net src dst = msg :: rest)
    (hown : ((s.host dst).m.page p).homepid = dst → dst < cfg.hostc) (hfetch : Fetching cfg s dst)
    (htables : (s.host dst).m.Tables cfg dst)
    (hs : Served cfg dst (s.host dst) src rnd msg hst out)
    (hmem : ServedMem cfg dst src (s.host dst).m msg hst.m out)
    (hdown : Barrier.down msg = false)
    (hdue : ∀ h, dueNotice cfg ({ s with net := drop s.net src dst }.put dst hst out) p h =
      dueNotice cfg s p h)
    (hoff : log'.offered = log.offered) (hrounds : log'.rounds = log.rounds)
    (hgranted : log'.granted = log.granted) (hanswer : log'.answer = log.answer) :
    Directory.Step cfg.hostc (pageView cfg p (s, (log, cl)))
      (pageView cfg p ({ s with net := drop s.net src dst }.put dst hst out, (log', cl))) := by
  have hk := homeKept_served hmem hdown
  refine .keep ⟨hrounds, hgranted, ?_, ?_, ?_, ?_⟩ rfl ?_ ?_ ?_
  · simp only [pageView, hrounds, hanswer]
  · simp only [pageView, hrounds, hanswer]
  · funext h
    simp only [pageView]
    by_cases hh : h = dst
    · subst hh
      rw [State.put_host_same, hk.homepid]
    · rw [State.put_host_of_ne _ _ _ hh]
  · funext h
    simp only [pageView, hdue]
  · intro h _ _ hr
    simp only [pageView] at hr ⊢
    by_cases hh : h = dst
    · subst hh
      rw [State.put_host_same] at hr
      exact hk.rdnt p hr
    · rwa [State.put_host_of_ne _ _ _ hh] at hr
  · intro h _ _ ht
    exact told_served hs hoff hrounds (fun _ => hk.homei p) ht
  · intro h _ hcopy
    rcases holds_served hp hnet hfetch htables hs hmem hdown hcopy with hold | ⟨hself, hflag⟩
    · exact Or.inl hold
    · refine Or.inr ⟨dst, hown hself, hself, ?_⟩
      change (({ s with net := drop s.net src dst }.put dst hst out).host dst).m.rdnt p = true
      rw [State.put_host_same, hflag]

theorem noteHandled_quiet (k : RoundKind cfg) (log : RoundLog) (src dst : Nat)
    (hdown : k.down msg = false)
    (hend : k.up msg = true → k.closes msg = true → out = []) :
    (k.noteHandled log src dst msg out).rounds = log.rounds ∧
      (k.noteHandled log src dst msg out).granted = log.granted ∧
      (k.noteHandled log src dst msg out).answer = log.answer := by
  unfold RoundKind.noteHandled RoundKind.noteTaken
  by_cases hup : k.up msg = true
  · by_cases hcl : k.closes msg = true
    · rw [hend hup hcl]
      simp [hup, hcl]
    · simp [hup, hcl]
  · simp [hup, hdown]

theorem answer_notice {reply : List Msg} {h : Nat} {nt : StackNotice} {m : Msg} {rec : List (Nat × Msg)}
    {n : Nat} (hp : p < cfg.npages) (hpages : (mergeRound n rec).Pages cfg)
    (hans : Barrier.Answers n rec reply) (hmem : (h, m) ∈ rec) (hnt : nt ∈ m.stackNotices)
    (ha : nt.addr = cfg.pageAddr p) :
    ∃ g, noticeOf cfg p (reply.flatMap Msg.grantNotices) = some g ∧
      (g.fromPid = h ∨ g.fromPid = Maxhosts) := by
  obtain ⟨e, he, heq, hfrom⟩ := exists_mergeRound (k := n) hmem
    ⟨nt, hnt, congrArg pageNum ha⟩
  have haddr : ∀ {e' : WtntEntry}, e' ∈ (mergeRound n rec).entries →
      e'.num = pageNum (cfg.pageAddr p) → e'.addr = cfg.pageAddr p := by
    intro e' he' hnum
    obtain ⟨q, hq, hqa⟩ := hpages e' he'
    have hqp : pageNum (cfg.pageAddr q) = pageNum (cfg.pageAddr p) := by
      rw [← hqa]
      exact hnum
    rw [hqa, cfg.pageNum_pageAddr_inj hq hp hqp]
  cases hfind : noticeOf cfg p (reply.flatMap Msg.grantNotices) with
  | none =>
      rw [noticeOf_eq_none] at hfind
      have hin : e.toGrant ∈ reply.flatMap Msg.grantNotices := by
        rw [hans.notices]
        exact List.mem_map_of_mem he
      exact absurd (haddr he heq) (hfind _ hin)
  | some g =>
      obtain ⟨hg, hga⟩ := noticeOf_some hfind
      rw [hans.notices] at hg
      obtain ⟨e', he', rfl⟩ := List.mem_map.mp hg
      -- the list names each page once
      have hnum : e'.num = e.num := by
        rw [heq]
        exact congrArg pageNum hga
      obtain rfl := WtntList.entry_unique he' he hnum
      exact ⟨_, rfl, hfrom⟩

theorem taken_mem {m m' : MemState} (hs : ServedMem cfg dst src m msg m' out)
    (hup : Barrier.up msg = true) :
    SameHome m m' ∧ (∀ q < cfg.npages, m'.Cached cfg q → m.Cached cfg q) ∧
      ∀ y ∈ out, ∀ addr wv data xs, y.2 ≠ .getpgrant addr wv data xs := by
  cases hs with
  | still hstill hout =>
      exact ⟨hstill.home, fun q _ => (hstill.cache.cached q).mp, hout⟩
  | drop hre hwait hout =>
      refine ⟨hre.home, ?_, by simp [hout]⟩
      intro q hq hc
      exact (hre.cached q hq hc).resolve_right id
  | serve addr temp hmsg => subst hmsg; cases hup
  | install addr wv data xs hmsg => subst hmsg; cases hup
  | invld ns hmsg => subst hmsg; cases hup
  | barrgrant scope ns hmsg => subst hmsg; cases hup

theorem told_at_end {h : Nat} (hstack : StackOk (s.host h)) (hflag : (s.host h).y.barrwait = true)
    (ht : Told cfg s log p h) :
    ∃ m nt, m ∈ log.offered h log.rounds ∧ nt ∈ m.stackNotices ∧ nt.addr = cfg.pageAddr p := by
  have hpc := hstack.barrwait hflag
  cases ht with
  | scan i n hpc' => rw [hpc] at hpc'; cases hpc'
  | drain hpc' => rw [hpc] at hpc'; cases hpc'
  | sent m nt hmsg hnt ha => exact ⟨m, nt, hmsg, hnt, ha⟩

/-- What the end of a round means to the hosts: all of them wait, and the answer to all
of them names what they have announced. -/
structure RoundEnd (cfg : Config) (s : State) (log : RoundLog) (src dst : Nat) (msg : Msg)
    (hst : Host) (out : Out) (reply : List Msg) : Prop where
  granted : ∀ h < cfg.hostc, log.granted h = log.rounds
  waits : ∀ h < cfg.hostc, (s.host h).y.barrwait = true
  rounds' : ((Barrier.rounds cfg).noteHandled log src dst msg out).rounds = log.rounds + 1
  granted' : ((Barrier.rounds cfg).noteHandled log src dst msg out).granted = log.granted
  answer' : ((Barrier.rounds cfg).noteHandled log src dst msg out).answer =
    set log.answer log.rounds reply
  downTo' : ∀ h < cfg.hostc,
    downTo cfg ({ s with net := drop s.net src dst }.put dst hst out) h = reply
  notice : ∀ p < cfg.npages, ∀ h < cfg.hostc, ∀ m ∈ log.offered h log.rounds,
    ∀ nt ∈ m.stackNotices, nt.addr = cfg.pageAddr p →
      ∃ g, noticeOf cfg p (reply.flatMap Msg.grantNotices) = some g ∧
        (g.fromPid = h ∨ g.fromPid = Maxhosts)

theorem round_end {reply : List Msg}
    (hok : (Barrier.rounds cfg).Ok (s, log))
    (hok' : (Barrier.rounds cfg).Ok ({ s with net := drop s.net src dst }.put dst hst out,
      (Barrier.rounds cfg).noteHandled log src dst msg out))
    (hnet : s.net src dst = msg :: rest) (hpages : AllPages cfg s) (hin : Routed cfg src dst msg)
    (hup : Barrier.up msg = true) (hcl : Barrier.closes msg = true)
    (hlast : (Barrier.rounds cfg).counter (s.host dst) + 1 = cfg.hostc)
    (hout : out = reply.flatMap (broadcast cfg (Barrier.rounds cfg).root))
    (hreply : ∀ m ∈ reply, Barrier.down m = true) (hburst : Burst Barrier.ends reply)
    (hans : Barrier.Answers log.rounds (log.recorded log.rounds ++ [(src, msg)]) reply)
    (hflag : hst.y.barrwait = (s.host dst).y.barrwait) :
    RoundEnd cfg s log src dst msg hst out reply := by
  have hroot : dst = (Barrier.rounds cfg).root := (Barrier.rounds cfg).up_routed hin hup
  have hviewup := (Barrier.rounds cfg).view_up_cons log
    (show s.net src (Barrier.rounds cfg).root = msg :: rest by rw [← hroot, hnet]) hup
  have hcount : ((Barrier.rounds cfg).view s log).count + 1 = cfg.hostc := by
    change (Barrier.rounds cfg).counter (s.host (Barrier.rounds cfg).root) + 1 = cfg.hostc
    rw [← hroot, hlast]
  have hall : ∀ h < cfg.hostc, log.rounds = log.granted h ∧ downTo cfg s h = [] :=
    fun h hh => hok.inv.answered hviewup hcount hh
  -- the history after the step
  have hunwrap : (outboxTo out (Barrier.rounds cfg).root).map Msg.unwrap = reply := by
    rw [hout]
    exact (Barrier.rounds cfg).unwrap_broadcasts hreply
  have hne : out.isEmpty = false := by
    rw [List.isEmpty_eq_false_iff]
    intro hnil
    rw [hnil] at hunwrap
    exact hburst.ne_nil hunwrap.symm
  have hup' : (Barrier.rounds cfg).up msg = true := hup
  have hcl' : (Barrier.rounds cfg).closes msg = true := hcl
  obtain ⟨hrounds, hgranted, hanswer, hrec⟩ :
      ((Barrier.rounds cfg).noteHandled log src dst msg out).rounds = log.rounds + 1 ∧
        ((Barrier.rounds cfg).noteHandled log src dst msg out).granted = log.granted ∧
        ((Barrier.rounds cfg).noteHandled log src dst msg out).answer =
          set log.answer log.rounds reply ∧
        ((Barrier.rounds cfg).noteHandled log src dst msg out).recorded log.rounds =
          log.recorded log.rounds ++ [(src, msg)] := by
    simp [RoundKind.noteHandled, RoundKind.noteTaken, hup', hcl', hne, hunwrap]
  have hoff := offered_noteHandled (Barrier.rounds cfg) log src dst msg out
  refine ⟨fun h hh => (hall h hh).1.symm, ?_, hrounds, hgranted, hanswer, ?_, ?_⟩
  · intro h hh
    have hinside : ((Barrier.rounds cfg).noteHandled log src dst msg out).sent h =
        ((Barrier.rounds cfg).noteHandled log src dst msg out).granted h +
          (({ s with net := drop s.net src dst }.put dst hst out).host h).y.barrwait.toNat :=
      hok'.inv.inside h
    obtain ⟨-, hlow, hle⟩ := hok'.inv.separated hh hh
    have hlow' : ((Barrier.rounds cfg).noteHandled log src dst msg out).rounds ≤
        ((Barrier.rounds cfg).noteHandled log src dst msg out).arrived h := hlow
    have hle' : ((Barrier.rounds cfg).noteHandled log src dst msg out).arrived h ≤
        ((Barrier.rounds cfg).noteHandled log src dst msg out).sent h := hle
    have hg := (hall h hh).1
    rw [hrounds] at hlow'
    rw [hgranted] at hinside
    have hset : (({ s with net := drop s.net src dst }.put dst hst out).host h).y.barrwait =
        true := by
      by_contra hne'
      rw [Bool.not_eq_true] at hne'
      rw [hne', Bool.toNat_false] at hinside
      omega
    by_cases hd : h = dst
    · subst hd
      rw [State.put_host_same, hflag] at hset
      exact hset
    · rwa [State.put_host_of_ne _ _ _ hd] at hset
  · intro h hh
    have hold := (hall h hh).2
    unfold downTo at hold ⊢
    rw [if_pos hh] at hold ⊢
    rw [State.put_net, hout]
    change (Barrier.rounds cfg).cast.pending (send (drop s.net src dst) dst
      (reply.flatMap (broadcast cfg (Barrier.rounds cfg).root))) h = reply
    rw [hroot, (Barrier.rounds cfg).pending_broadcasts hreply hh, ← hroot,
      (Barrier.rounds cfg).pending_taken hnet hup', hold]
    rfl
  · intro p hp h hh m hm nt hnt ha
    -- what the host sent for the round has been recorded
    have hrecord : ofParty h (((Barrier.rounds cfg).noteHandled log src dst msg out).recorded
          log.rounds) ++
        (if log.rounds = ((Barrier.rounds cfg).noteHandled log src dst msg out).arrived h then
          ((Barrier.rounds cfg).view ({ s with net := drop s.net src dst }.put dst hst out)
            ((Barrier.rounds cfg).noteHandled log src dst msg out)).up h else []) =
        ((Barrier.rounds cfg).noteHandled log src dst msg out).offered h log.rounds :=
      hok'.records.recorded h log.rounds
    have hlow : ((Barrier.rounds cfg).noteHandled log src dst msg out).rounds ≤
        ((Barrier.rounds cfg).noteHandled log src dst msg out).arrived h := hok'.inv.lower h hh
    rw [hrounds] at hlow
    rw [if_neg (by omega), List.append_nil, hrec, hoff] at hrecord
    rw [← hrecord, ofParty, List.mem_map] at hm
    obtain ⟨y, hy, rfl⟩ := hm
    obtain ⟨hymem, hyh⟩ := List.mem_filter.mp hy
    have hyh : y.1 = h := by simpa using hyh
    have hlist : (mergeRound log.rounds (log.recorded log.rounds ++ [(src, msg)])).Pages cfg := by
      rw [mergeRound_snoc]
      have hready : Barrier.Ready (s.host (Barrier.rounds cfg).root) log.rounds
          (log.recorded log.rounds) := hok.ready
      refine pages_mergeMsg ?_ (stackNotices_pages ?_)
      · rw [← hready.1]
        exact (hpages.host _).lists.locks hidelock
      · apply hpages.net (a := src) (b := dst)
        rw [hnet]
        exact List.mem_cons_self
    obtain ⟨g, hg, hfrom⟩ := answer_notice (h := y.1) hp hlist hans hymem hnt ha
    rw [hyh] at hfrom
    exact ⟨g, hg, hfrom⟩

theorem page_last {reply : List Msg} (hp : p < cfg.npages) (hb : Basics cfg s)
    (hok : (Barrier.rounds cfg).Ok (s, log))
    (hok' : (Barrier.rounds cfg).Ok ({ s with net := drop s.net src dst }.put dst hst out,
      (Barrier.rounds cfg).noteHandled log src dst msg out))
    (hnet : s.net src dst = msg :: rest) (hpages : AllPages cfg s)
    (hs : Served cfg dst (s.host dst) src rnd msg hst out)
    (hmem : ServedMem cfg dst src (s.host dst).m msg hst.m out)
    (hin : Routed cfg src dst msg)
    (hup : Barrier.up msg = true) (hcl : Barrier.closes msg = true)
    (hlast : (Barrier.rounds cfg).counter (s.host dst) + 1 = cfg.hostc)
    (hout : out = reply.flatMap (broadcast cfg (Barrier.rounds cfg).root))
    (hreply : ∀ m ∈ reply, Barrier.down m = true) (hburst : Burst Barrier.ends reply)
    (hans : Barrier.Answers log.rounds (log.recorded log.rounds ++ [(src, msg)]) reply)
    (hflag : hst.y.barrwait = (s.host dst).y.barrwait) :
    Directory.Step cfg.hostc (pageView cfg p (s, (log, cl)))
      (pageView cfg p ({ s with net := drop s.net src dst }.put dst hst out,
        ((Barrier.rounds cfg).noteHandled log src dst msg out, cl))) := by
  have hend := round_end hok hok' hnet hpages hin hup hcl hlast hout hreply hburst hans hflag
  have hdown : Barrier.down msg = false := by
    cases msg with
    | invld l ns => cases hup
    | barrgrant l scope ns => cases hup
    | _ => rfl
  have hk := homeKept_served hmem hdown
  obtain ⟨hsame, hcached, hquiet⟩ := taken_mem hmem hup
  have hhomes : homes cfg (set log.answer log.rounds reply) p log.rounds =
      homes cfg log.answer p log.rounds :=
    homes_congr fun j hj => set_of_ne _ _ (Nat.ne_of_lt hj)
  refine .close ((noticeOf cfg p (reply.flatMap Msg.grantNotices)).map (toNotice cfg))
    hend.granted hend.rounds' hend.granted' ?_ ?_ ?_ ?_ rfl ?_ ?_ ?_
  · simp only [pageView, hend.rounds', hend.answer', Nat.add_sub_cancel]
    exact hhomes
  · simp only [pageView, hend.rounds', hend.answer', homes, set_same, hhomes]
    exact (applyDue_toNotice _ _).symm
  · funext h
    simp only [pageView]
    by_cases hh : h = dst
    · subst hh
      rw [State.put_host_same, hk.homepid]
    · rw [State.put_host_of_ne _ _ _ hh]
  · funext h
    simp only [pageView]
    by_cases hh : h = dst
    · subst hh
      rw [State.put_host_same, hsame.rdnt_eq]
    · rw [State.put_host_of_ne _ _ _ hh]
  · intro h hh
    simp only [pageView, dueNotice, hend.downTo' h hh]
  · intro h hh hcopy
    rcases hcopy with hcopy | hcopy
    · left
      by_cases hd : h = dst
      · subst hd
        rw [State.put_host_same] at hcopy
        refine ⟨hcached p hp hcopy.1, not_awaits ?_⟩
        intro w hpc
        rw [(hb.stack h).barrwait (hend.waits h hh)] at hpc
        cases hpc
      · rwa [State.put_host_of_ne _ _ _ hd] at hcopy
    · exact Or.inr (inFlight_served hquiet hcopy)
  · intro h hh ht
    obtain ⟨m, nt, hm, hnt, ha⟩ := told_at_end (hb.stack h) (hend.waits h hh) ht
    obtain ⟨g, hg, hfrom⟩ := hend.notice p hp h hh m hm nt hnt ha
    refine ⟨toNotice cfg g, by rw [hg]; rfl, ?_⟩
    intro h' hh' hne
    change g.fromPid ≠ h'
    have hmax := cfg.hostc_le
    rcases hfrom with hfrom | hfrom
    · rw [hfrom]
      exact Ne.symm hne
    · omega

theorem notices_served {m m' : MemState} (hs : ServedMem cfg dst src m msg m' out)
    (hdown : Barrier.down msg = true) : Notices cfg dst msg.grantNotices m m' := by
  cases hs with
  | still hstill hout hmsg hgetp hnot => rw [hdown] at hnot; cases hnot
  | serve addr temp hmsg => subst hmsg; cases hdown
  | install addr wv data xs hmsg => subst hmsg; cases hdown
  | drop hre hwait hout hmsg hgetp hnot => rw [hdown] at hnot; cases hnot
  | invld ns hmsg hout hns => subst hmsg; exact hns
  | barrgrant scope ns hmsg hout hns => subst hmsg; exact hns

theorem downTo_nodup (hok : (Barrier.rounds cfg).Ok (s, log)) {h : Nat} (hh : h < cfg.hostc) :
    (((downTo cfg s h).flatMap Msg.grantNotices).map GrantNotice.addr).Nodup := by
  rcases hok.inv.down h hh with ⟨-, hnil⟩ | ⟨hr, -⟩
  · have hnil' : downTo cfg s h = [] := hnil
    rw [hnil']
    exact List.nodup_nil
  · have hr' : log.rounds = log.granted h + 1 := hr
    have hheard : log.heard h (log.granted h) ++
        (if log.granted h = log.granted h then downTo cfg s h else []) =
          log.answer (log.granted h) := hok.replies.heard h hh (log.granted h)
    have hans : Barrier.Answers (log.granted h) (log.recorded (log.granted h))
        (log.answer (log.granted h)) :=
      hok.replies.answers (log.granted h) (show log.granted h < log.rounds by omega)
    have hnodup := answers_nodup hans
    rw [if_pos rfl] at hheard
    rw [← hheard, List.flatMap_append, List.map_append] at hnodup
    exact hnodup.of_append_right

theorem downTo_heard (hst : Host) (hb : Basics cfg s) (hnet : s.net src dst = msg :: rest)
    (hrel : Relayed cfg src dst msg) (hdown : Barrier.down msg = true) (hout : out = []) (h : Nat) :
    downTo cfg s h = (if h = dst then [msg] else []) ++
      downTo cfg ({ s with net := drop s.net src dst }.put dst hst out) h := by
  obtain ⟨hdst, -⟩ := hb.down_waiting hnet hdown
  unfold downTo
  rw [State.put_net, hout, send_nil]
  by_cases hd : h = dst
  · subst hd
    rw [if_pos hdst, if_pos hdst, if_pos rfl]
    exact (Barrier.rounds cfg).pending_deliver hnet hrel hdown
  · rw [if_neg hd, List.nil_append]
    by_cases hh : h < cfg.hostc
    · rw [if_pos hh, if_pos hh]
      exact ((Barrier.rounds cfg).pending_deliver_ne hnet hdown hh hd).symm
    · rw [if_neg hh, if_neg hh]

theorem dueNotice_heard (hst : Host) (hb : Basics cfg s) (hnet : s.net src dst = msg :: rest)
    (hrel : Relayed cfg src dst msg) (hdown : Barrier.down msg = true) (hout : out = []) (p : Nat) :
    dueNotice cfg s p dst = (noticeOf cfg p msg.grantNotices).or
      (dueNotice cfg ({ s with net := drop s.net src dst }.put dst hst out) p dst) := by
  unfold dueNotice
  rw [downTo_heard hst hb hnet hrel hdown hout dst, if_pos rfl, List.flatMap_append,
    noticeOf_append]
  simp

theorem dueNotice_other (hb : Basics cfg s) (hnet : s.net src dst = msg :: rest)
    (hrel : Relayed cfg src dst msg) (hdown : Barrier.down msg = true) (hout : out = []) (p : Nat)
    {h : Nat} (hh : h ≠ dst) :
    dueNotice cfg ({ s with net := drop s.net src dst }.put dst hst out) p h =
      dueNotice cfg s p h := by
  unfold dueNotice
  rw [downTo_heard hst hb hnet hrel hdown hout h, if_neg hh, List.nil_append]

theorem dueNotice_rest (hst : Host) (hb : Basics cfg s) (hok : (Barrier.rounds cfg).Ok (s, log))
    (hnet : s.net src dst = msg :: rest) (hrel : Relayed cfg src dst msg)
    (hdown : Barrier.down msg = true) (hout : out = []) {g : GrantNotice}
    (hg : noticeOf cfg p msg.grantNotices = some g) :
    dueNotice cfg ({ s with net := drop s.net src dst }.put dst hst out) p dst = none := by
  obtain ⟨hdst, -⟩ := hb.down_waiting hnet hdown
  have hnodup := downTo_nodup hok hdst
  rw [downTo_heard hst hb hnet hrel hdown hout dst, if_pos rfl,
    List.flatMap_append] at hnodup
  have hone : noticeOf cfg p ([msg].flatMap Msg.grantNotices) = some g := by simpa using hg
  exact noticeOf_rest hnodup hone

/-- A host takes a message of the answer, and is not through with it yet. -/
theorem page_heard {log' : RoundLog} (cl : Nat → Nat → Option Nat) (hp : p < cfg.npages) (hb : Basics cfg s)
    (hok : (Barrier.rounds cfg).Ok (s, log)) (hnet : s.net src dst = msg :: rest)
    (hs : Served cfg dst (s.host dst) src rnd msg hst out)
    (hmem : ServedMem cfg dst src (s.host dst).m msg hst.m out)
    (hrel : Relayed cfg src dst msg) (hdown : Barrier.down msg = true) (hout : out = [])
    (hoff : log'.offered = log.offered) (hrounds : log'.rounds = log.rounds)
    (hanswer : log'.answer = log.answer) :
    Directory.Step cfg.hostc (pageView cfg p (s, (log, cl)))
      { pageView cfg p ({ s with net := drop s.net src dst }.put dst hst out, (log', cl)) with
        granted := log.granted } := by
  obtain ⟨hdst, hflag⟩ := hb.down_waiting hnet hdown
  have hpc := (hb.stack dst).barrwait hflag
  have hns := (notices_served hmem hdown).noticed p hp
  have hquiet : ∀ y ∈ out, ∀ addr wv data xs, y.2 ≠ .getpgrant addr wv data xs := by simp [hout]
  have hdue := dueNotice_heard hst hb hnet hrel hdown hout p
  have hduer : ∀ h, h ≠ dst →
      dueNotice cfg ({ s with net := drop s.net src dst }.put dst hst out) p h =
        dueNotice cfg s p h := fun h hne => dueNotice_other hb hnet hrel hdown hout p hne
  -- no page is on its way to the host
  have hnone : ¬ InFlight cfg ({ s with net := drop s.net src dst }.put dst hst out) p dst := by
    intro hf
    obtain ⟨a, addr, wv, data, xs, hin, -⟩ := inFlight_served hquiet hf
    have hempty := (hb.fetching dst).no_reply (by simp [hpc]) a
    have hmem' : Msg.getpgrant addr wv data xs ∈ (s.net a dst).filter Msg.isGetpgrant :=
      List.mem_filter.mpr ⟨hin, rfl⟩
    rw [hempty] at hmem'
    cases hmem'
  have hpc' : hst.pc = .barrwait := (served_stack hs).1.trans hpc
  have htold : ∀ h, Told cfg s log p h →
      Told cfg ({ s with net := drop s.net src dst }.put dst hst out) log' p h :=
    fun h ht => told_served hs hoff hrounds (fun hne => absurd hpc hne) ht
  have hholdsr : ∀ h, h ≠ dst →
      ((({ s with net := drop s.net src dst }.put dst hst out).host h).HoldsPage cfg p ∨
        InFlight cfg ({ s with net := drop s.net src dst }.put dst hst out) p h) →
      (s.host h).HoldsPage cfg p ∨ InFlight cfg s p h := by
    intro h hne hcopy
    rw [State.put_host_of_ne _ _ _ hne] at hcopy
    exact hcopy.imp id (inFlight_served hquiet)
  have hholds : ((({ s with net := drop s.net src dst }.put dst hst out).host dst).HoldsPage cfg p ∨
        InFlight cfg ({ s with net := drop s.net src dst }.put dst hst out) p dst) →
      hst.m.Cached cfg p := by
    intro hcopy
    have hh := hcopy.resolve_right hnone
    rw [State.put_host_same] at hh
    exact hh.1
  have hnow : (s.host dst).m.Cached cfg p → (s.host dst).HoldsPage cfg p :=
    fun hc => ⟨hc, not_awaits (by simp [hpc])⟩
  cases hnt : noticeOf cfg p msg.grantNotices with
  | none =>
      rw [hnt] at hns hdue
      refine .keep ⟨hrounds, rfl, ?_, ?_, ?_, ?_⟩ rfl ?_ ?_ ?_
      · simp only [pageView, hrounds, hanswer]
      · simp only [pageView, hrounds, hanswer]
      · funext h
        simp only [pageView]
        by_cases hh : h = dst
        · subst hh
          rw [State.put_host_same, hns.homepid]
          rfl
        · rw [State.put_host_of_ne _ _ _ hh]
      · funext h
        simp only [pageView]
        by_cases hh : h = dst
        · subst hh
          rw [hdue, Option.none_or]
        · rw [hduer h hh]
      · intro h _ hself hr
        simp only [pageView] at hself hr ⊢
        by_cases hh : h = dst
        · subst hh
          rw [State.put_host_same] at hr
          exact (hns.flag (hns.homepid.trans hself) hr).2
        · rwa [State.put_host_of_ne _ _ _ hh] at hr
      · exact fun h _ _ ht => htold h ht
      · intro h _ hcopy
        left
        by_cases hh : h = dst
        · subst hh
          rcases hns.cached (hholds hcopy) with ⟨hc, -⟩ | ⟨hself, hgone⟩
          · exact Or.inl (hnow hc)
          · exact absurd (hns.homepid.trans hself) hgone
        · exact hholdsr h hh hcopy
  | some g =>
      rw [hnt] at hns hdue
      have hlater := dueNotice_rest hst hb hok hnet hrel hdown hout hnt
      refine .hear dst (toNotice cfg g) ?_ ?_ ?_ hrounds rfl ?_ ?_ ?_ ?_ ?_ ?_ rfl ?_ ?_ ?_
      · simp only [pageView, hdue]
        rfl
      · simp only [pageView, hlater]
        rfl
      · intro h hh
        simp only [pageView, hduer h hh]
      · simp only [pageView, hrounds, hanswer]
      · simp only [pageView, hrounds, hanswer]
      · simp only [pageView]
        rw [State.put_host_same, hns.homepid]
        rfl
      · intro h hh
        simp only [pageView]
        rw [State.put_host_of_ne _ _ _ hh]
      · intro hself hr
        simp only [pageView] at hself hr ⊢
        rw [State.put_host_same] at hself hr
        exact hns.flag hself hr
      · intro h hh
        simp only [pageView]
        rw [State.put_host_of_ne _ _ _ hh]
      · intro hcopy
        simp only [pageView]
        rw [State.put_host_same]
        rcases hns.cached (hholds hcopy) with ⟨hc, hw⟩ | hmoved
        · exact Or.inl ⟨Or.inl (hnow hc), hw g rfl⟩
        · exact Or.inr hmoved
      · exact fun h _ hh hcopy => hholdsr h hh hcopy
      · exact fun h _ _ ht => htold h ht

/-- What a message means to the answers of barriers. -/
inductive Handled (cfg : Config) (s : State) (log : RoundLog) (src dst : Nat) (msg : Msg)
    (hst : Host) (out : Out) : Prop
  | quiet (hdown : Barrier.down msg = false)
      (hdue : ∀ p h, dueNotice cfg ({ s with net := drop s.net src dst }.put dst hst out) p h =
        dueNotice cfg s p h)
      (hrounds : ((Barrier.rounds cfg).noteHandled log src dst msg out).rounds = log.rounds)
      (hgranted : ((Barrier.rounds cfg).noteHandled log src dst msg out).granted = log.granted)
      (hanswer : ((Barrier.rounds cfg).noteHandled log src dst msg out).answer = log.answer)
  | last (reply : List Msg) (hup : Barrier.up msg = true) (hcl : Barrier.closes msg = true)
      (hlast : (Barrier.rounds cfg).counter (s.host dst) + 1 = cfg.hostc)
      (hout : out = reply.flatMap (broadcast cfg (Barrier.rounds cfg).root))
      (hreply : ∀ m ∈ reply, Barrier.down m = true) (hburst : Burst Barrier.ends reply)
      (hans : Barrier.Answers log.rounds (log.recorded log.rounds ++ [(src, msg)]) reply)
      (hflag : hst.y.barrwait = (s.host dst).y.barrwait)
  | heard (hdown : Barrier.down msg = true) (hout : out = [])
      (hrounds : ((Barrier.rounds cfg).noteHandled log src dst msg out).rounds = log.rounds)
      (hanswer : ((Barrier.rounds cfg).noteHandled log src dst msg out).answer = log.answer)
      (hgranted : ((Barrier.rounds cfg).noteHandled log src dst msg out).granted = log.granted ∨
        (((Barrier.rounds cfg).noteHandled log src dst msg out).granted =
            set log.granted dst (log.granted dst + 1) ∧
          log.rounds = log.granted dst + 1 ∧
          downTo cfg ({ s with net := drop s.net src dst }.put dst hst out) dst = []))

theorem served_handled (hb : Basics cfg s) (hok : (Barrier.rounds cfg).Ok (s, log))
    (hok' : (Barrier.rounds cfg).Ok ({ s with net := drop s.net src dst }.put dst hst out,
      (Barrier.rounds cfg).noteHandled log src dst msg out))
    (hnet : s.net src dst = msg :: rest)
    (hs : Served cfg dst (s.host dst) src rnd msg hst out) :
    Handled cfg s log src dst msg hst out := by
  have hmsg : msg ∈ s.net src dst := by
    rw [hnet]
    exact List.mem_cons_self
  have hin := hb.routed hmsg
  have hrel := hb.relayed hmsg
  -- a message that leaves the answers in flight
  have hother : Barrier.down msg = false →
      ((Barrier.rounds cfg).up msg = true → (Barrier.rounds cfg).closes msg = true → out = []) →
      (∀ h < cfg.hostc, (Barrier.rounds cfg).cast.pending (send (drop s.net src dst) dst out) h =
        (Barrier.rounds cfg).cast.pending s.net h) → Handled cfg s log src dst msg hst out := by
    intro hdown hend hpending
    obtain ⟨hrounds, hgranted, hanswer⟩ := noteHandled_quiet (Barrier.rounds cfg) log
      src dst hdown hend
    refine .quiet hdown ?_ hrounds hgranted hanswer
    intro p h
    unfold dueNotice downTo
    rw [State.put_net]
    by_cases hh : h < cfg.hostc
    · rw [if_pos hh, if_pos hh]
      exact congrArg (fun l => noticeOf cfg p (l.flatMap Msg.grantNotices)) (hpending h hh)
    · rw [if_neg hh, if_neg hh]
  have htaken : (Barrier.rounds cfg).up msg = true → out = [] →
      ∀ h < cfg.hostc, (Barrier.rounds cfg).cast.pending
        (send (drop s.net src dst) dst out) h = (Barrier.rounds cfg).cast.pending s.net h := by
    intro hup hout h _
    rw [hout, send_nil]
    exact (Barrier.rounds cfg).pending_taken hnet hup h
  have hupdown : (Barrier.rounds cfg).up msg = true → Barrier.down msg = false := by
    intro hup
    cases msg with
    | invld l ns => cases hup
    | barrgrant l scope ns => cases hup
    | _ => rfl
  have hnotup : Barrier.down msg = true → (Barrier.rounds cfg).up msg = false := by
    intro hdown
    exact (Barrier.rounds cfg).up_eq_false_of_server
      ((Barrier.rounds cfg).isBroadcast hdown).isRequest
  cases (Barrier.rounds cfg).served hin hrel hs with
  | quiet hup hquiet hout hflag hcount hready =>
      refine hother ?_ ?_ fun h _ => (Barrier.rounds cfg).pending_quiet hnet hquiet hout
      · by_contra hdown
        rw [Bool.not_eq_false] at hdown
        have hread : castRead (Barrier.rounds cfg).root (Barrier.rounds cfg).down 0 msg = some msg :=
          (Barrier.rounds cfg).read_plain hdown
        rw [hquiet 0] at hread
        cases hread
      · intro hup'
        rw [hup] at hup'
        cases hup'
  | take hup hopen hout hflag hcount hready =>
      exact hother (hupdown hup) (fun _ _ => hout) (htaken hup hout)
  | arrive hup hcl hlast hout hflag hcount hready =>
      exact hother (hupdown hup) (fun _ _ => hout) (htaken hup hout)
  | last reply hup hcl hlast hout hdown hreply hflag hcount hans hready =>
      refine .last reply hup hcl hlast hout hdown hreply (hans _ _ ?_) hflag
      have hr := hok.ready
      rwa [← (Barrier.rounds cfg).up_routed hin hup] at hr
  | hear hdown hopen hout hflag hcount hready =>
      have hlog : (Barrier.rounds cfg).noteHandled log src dst msg out =
          { log with heard := ((Barrier.rounds cfg).noteHandled log src dst msg out).heard } := by
        simp [RoundKind.noteHandled, RoundKind.noteHeard, hnotup hdown, hdown, hopen]
      exact .heard hdown hout (by rw [hlog]) (by rw [hlog]) (Or.inl (by rw [hlog]))
  | leave hdown hends hout hflag hcount hready =>
      have hlog : (Barrier.rounds cfg).noteHandled log src dst msg out =
          { log with
            heard := ((Barrier.rounds cfg).noteHandled log src dst msg out).heard
            granted := set log.granted dst (log.granted dst + 1) } := by
        simp [RoundKind.noteHandled, RoundKind.noteHeard, hnotup hdown, hdown, hends]
      have hgranted : ((Barrier.rounds cfg).noteHandled log src dst msg out).granted =
          set log.granted dst (log.granted dst + 1) := by rw [hlog]
      have hrounds : ((Barrier.rounds cfg).noteHandled log src dst msg out).rounds = log.rounds := by
        rw [hlog]
      obtain ⟨hdst, hbehind, -⟩ := hok.hearing hnet hrel hdown
      refine .heard hdown hout hrounds (by rw [hlog]) (Or.inr ⟨hgranted, hbehind, ?_⟩)
      rcases hok'.inv.down dst hdst with ⟨-, hnil⟩ | ⟨hr, -⟩
      · exact hnil
      · have hr' : ((Barrier.rounds cfg).noteHandled log src dst msg out).rounds =
            ((Barrier.rounds cfg).noteHandled log src dst msg out).granted dst + 1 := hr
        rw [hrounds, hgranted, set_same] at hr'
        omega
  | forward l m hbcast hdown hout hflag hcount hready =>
      subst hbcast
      refine hother rfl (fun hup => by cases hup) fun h hh => ?_
      rw [hout]
      exact (Barrier.rounds cfg).pending_forward hnet hrel hdown hh

theorem page_served (hp : p < cfg.npages) (hb : Basics cfg s)
    (hok : (Barrier.rounds cfg).Ok (s, log))
    (hok' : (Barrier.rounds cfg).Ok ({ s with net := drop s.net src dst }.put dst hst out,
      (Barrier.rounds cfg).noteHandled log src dst msg out))
    (hnet : s.net src dst = msg :: rest)
    (hs : Served cfg dst (s.host dst) src rnd msg hst out) :
    Directory.Steps cfg.hostc (pageView cfg p (s, (log, cl)))
      (pageView cfg p ({ s with net := drop s.net src dst }.put dst hst out,
        ((Barrier.rounds cfg).noteHandled log src dst msg out, cl))) := by
  have hall := hb.pages
  have hmsg : msg ∈ s.net src dst := by
    rw [hnet]
    exact List.mem_cons_self
  have hin := hb.routed hmsg
  have hrel := hb.relayed hmsg
  have htables := (hall.host dst).tables
  have hmem := served_mem htables (hall.net hmsg) hin hs
  have hoff := offered_noteHandled (Barrier.rounds cfg) log src dst msg out
  cases served_handled hb hok hok' hnet hs with
  | quiet hdown hdue hrounds hgranted hanswer =>
      exact .one (page_quiet hp hnet (hb.home_lt hp) (hb.fetching dst) htables hs hmem hdown (hdue p) hoff
        hrounds hgranted hanswer)
  | last reply hup hcl hlast hout hreply hburst hans hflag =>
      exact .one (page_last hp hb hok hok' hnet hall hs hmem hin hup hcl hlast hout hreply hburst
        hans hflag)
  | heard hdown hout hrounds hanswer hgranted =>
      have hstep := page_heard cl hp hb hok hnet hs hmem hrel hdown hout hoff hrounds hanswer
      rcases hgranted with hgranted | ⟨hgranted, hbehind, hempty⟩
      · rw [← hgranted] at hstep
        exact .one hstep
      · -- the host has the whole answer now
        refine .granted _ hstep rfl (.grant dst ?_ ?_ ?_ ?_ rfl rfl rfl rfl rfl rfl rfl ?_ ?_)
        · simp only [pageView, dueNotice, hempty]
          rfl
        · simp only [pageView, hrounds]
          exact hbehind.symm
        · simp only [pageView, hgranted, set_same]
        · intro h hh
          simp only [pageView, hgranted, set_of_ne _ _ hh]
        · exact fun h _ hcopy => hcopy
        · exact fun h _ _ ht => ht

end Served

/-! ## Runs -/

theorem page_init {p : Nat} (hp : p < cfg.npages) :
    Directory.Inv cfg.hostc (pageView cfg p (initState cfg, (clearHistory cfg).start)) where
  known h hh := by
    have hnil : dueNotice cfg (initState cfg) p h = none := by
      simp [dueNotice, downTo, Relay.Cast.pending, Relay.Cast.segment, initState, noticeOf]
    refine .done rfl ?_ ?_
    · simp only [pageView, hnil]
      rfl
    · simp [pageView, initState, initHost, initmem, hp, homes, clearHistory, System.Observer.chain,
        RoundKind.history]
  safe q hq hhome hown hflag := by
    right
    constructor
    · intro h hh
      have howner : cfg.layout.owner p = q := by
        simpa [pageView, initState, initHost, initmem, hp] using hown
      simp [pageView, initState, initHost, initmem, hp, howner]
    · intro h hh hne hcopy
      rcases hcopy with hcopy | ⟨a, addr, wv, data, xs, hmem, -⟩
      · exact absurd hcopy.1.1 (lt_irrefl _)
      · cases hmem

theorem due_lt {x : State × ClearLog} {p : Nat} (h : Nat) (nt : Directory.Notice)
    (hdue : (pageView cfg p x).due h = some nt) : h < cfg.hostc := by
  by_contra hge
  simp only [pageView, dueNotice, downTo, if_neg hge] at hdue
  cases hdue

/-- What holds of every page in every run. -/
theorem reach_page {x : State × ClearLog} (hx : ((system cfg).withHist (clearHistory cfg)).Reach x)
    {p : Nat} (hp : p < cfg.npages) : Directory.Inv cfg.hostc (pageView cfg p x) := by
  refine hx.invariant (I := fun x => Directory.Inv cfg.hostc (pageView cfg p x)) (page_init hp) ?_
  intro x e x' hreach hinv hnext
  have hok := (Barrier.rounds cfg).reach_ok hreach.unchain
  have hok' := (Barrier.rounds cfg).reach_ok (hreach.step hnext).unchain
  obtain ⟨s, log, cl⟩ := x
  obtain ⟨s', log', cl'⟩ := x'
  obtain ⟨hstep, hlog'⟩ := hnext
  dsimp only at hstep hlog' hok hok'
  have hs := hreach.forget
  rcases step_view hstep with ⟨i, a, hst, out, rfl, hi, hm, hsent, rfl⟩ |
    ⟨src, dst, rnd, msg, rest, hst, out, rfl, hnet, hm, hsent, rfl⟩
  · obtain ⟨rfl, rfl⟩ : log' = (Barrier.rounds cfg).noteSent log i out ∧
        cl' = noteCleared (log.granted i) i cl (s.host i).m hst.m := by
      rw [Prod.mk.injEq] at hlog'
      simpa [clearHistory, System.Observer.chain, RoundKind.history, hsent] using hlog'
    exact Directory.inv_step hinv
      (page_main hi hp hok (reach_stackOk hs i) ((reach_pages hs).host i) hm) due_lt
  · obtain ⟨rfl, rfl⟩ : log' = (Barrier.rounds cfg).noteHandled log src dst msg out ∧ cl' = cl := by
      rw [Prod.mk.injEq] at hlog'
      simpa [clearHistory, System.Observer.chain, RoundKind.history, hsent, handled, hnet] using hlog'
    exact Directory.inv_steps hinv (page_served hp (reach_basics hs) hok hok' hnet hm) due_lt due_lt

end Jiajia
