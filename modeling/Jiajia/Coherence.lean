import Jiajia.Basics
import Jiajia.Lib.Directory

/-!
# Copies, reader flags and the notices of barriers

A home that has written a page leaves its notice out when `home.rdnt` says that
there are no copies.  Seen from one page, a run of the system is a run of
`Directory`.
-/

namespace Jiajia

open Fifo Transition Host MemState Rounds

variable {cfg : Config}

/-! ## The history -/

/-- The barrier history, and for each host and page the barrier the host was on its
way to when its main thread last cleared `rdnt`. -/
abbrev ClearLog := RoundLog × (Nat → Nat → Option Nat)

/-- The main thread of host `i` has taken a step. -/
def noteCleared (granted i : Nat) (cleared : Nat → Nat → Option Nat) (m m' : MemState) :
    Nat → Nat → Option Nat :=
  fun h p => if h = i ∧ m.rdnt p = true ∧ m'.rdnt p = false then some granted else cleared h p

def clearHistory (cfg : Config) : System.Observer State Event ClearLog :=
  (Barrier.rounds cfg).history.chain (fun _ _ => none) fun barr cleared s e s' =>
    match e with
    | .main i _ => noteCleared (barr.granted i) i cleared (s.host i).m (s'.host i).m
    | .deliver _ _ _ => cleared

section History

variable {s s' : State} {log : RoundLog} {cl : Nat → Nat → Option Nat}

end History

/-! ## One page -/

/-- The home of page `p` after the first `k` barriers. -/
def homes (cfg : Config) (answer : Nat → List Msg) (p : Nat) : Nat → Nat
  | 0 => cfg.layout.owner p
  | k + 1 => homeAfter cfg (noticeOf cfg p ((answer k).flatMap Msg.grantNotices))
      (homes cfg answer p k)

/-- The messages of the barrier answer on their way to host `h`. -/
def downTo (cfg : Config) (s : State) (h : Nat) : List Msg :=
  if h < cfg.hostc then (Barrier.rounds cfg).cast.pending s.net h else []

/-- The notice about page `p` on its way to host `h`. -/
def dueNotice (cfg : Config) (s : State) (p h : Nat) : Option GrantNotice :=
  noticeOf cfg p ((downTo cfg s h).flatMap Msg.grantNotices)

/-- A copy of page `p` on its way to host `h`. -/
def InFlight (cfg : Config) (s : State) (p h : Nat) : Prop :=
  ∃ a addr wv data xs, Msg.getpgrant addr wv data xs ∈ s.net a h ∧
    (addr = cfg.pageAddr p ∨ ∃ x ∈ xs, x.addr = cfg.pageAddr p)

/-- The stack top of a host has a notice about page `p`. -/
def Noted (cfg : Config) (y : SynState) (p : Nat) : Prop :=
  pageNum (cfg.pageAddr p) ∈ y.top.wtntp.nums

/-- Host `h` is past page `p` in the home loop before a barrier and has noted it, or
has sent the notice. -/
inductive Told (cfg : Config) (s : State) (log : RoundLog) (p h : Nat) : Prop
  | scan (i n : Nat) (hpc : (s.host h).pc = .scan .barr i n) (hpast : ((s.host h).m.page p).homei < i)
      (hnoted : Noted cfg (s.host h).y p)
  | drain (hpc : (s.host h).pc = .drain .barr) (hnoted : Noted cfg (s.host h).y p)
  | sent (msg : Msg) (nt : StackNotice) (hmsg : msg ∈ log.offered h log.rounds)
      (hnt : nt ∈ msg.stackNotices) (ha : nt.addr = cfg.pageAddr p)

def toNotice (cfg : Config) (n : GrantNotice) : Directory.Notice := ⟨n.fromPid, moves cfg n⟩

/-- A state and its history, seen from page `p`. -/
def pageView (cfg : Config) (p : Nat) (x : State × ClearLog) : Directory.State where
  rounds := x.2.1.rounds
  granted := x.2.1.granted
  last := homes cfg x.2.1.answer p (x.2.1.rounds - 1)
  home := homes cfg x.2.1.answer p x.2.1.rounds
  seen h := ((x.1.host h).m.page p).homepid
  holds h := (x.1.host h).HoldsPage cfg p ∨ InFlight cfg x.1 p h
  told := Told cfg x.1 x.2.1 p
  flag h := (x.1.host h).m.rdnt p
  cleared h := x.2.2 h p
  due h := (dueNotice cfg x.1 p h).map (toNotice cfg)

/-! ## Notices of a barrier -/

theorem homes_congr {answer answer' : Nat → List Msg} {p k : Nat}
    (h : ∀ j < k, answer' j = answer j) : homes cfg answer' p k = homes cfg answer p k := by
  induction k with
  | zero => rfl
  | succ k ih =>
      rw [homes, homes, h k (Nat.lt_succ_self k), ih fun j hj => h j (Nat.lt_succ_of_lt hj)]

theorem applyDue_toNotice (nt : Option GrantNotice) (home : Nat) :
    Directory.applyDue (nt.map (toNotice cfg)) home = homeAfter cfg nt home := by
  cases nt with
  | none => rfl
  | some n => rfl

/-- The list of the manager keeps the notice of a host, or several writers'. -/
theorem exists_foldl_save {src : Nat} {scope : BitVec 32} {num : Nat} {ns : List StackNotice}
    {l : WtntList}
    (h : (∃ n ∈ ns, pageNum n.addr = num) ∨
      ∃ e ∈ l.entries, e.num = num ∧ (e.fromPid = src ∨ e.fromPid = Maxhosts)) :
    ∃ e ∈ (ns.foldl (fun l n => l.save n.addr (n.addr.setWidth 32) src scope) l).entries,
      e.num = num ∧ (e.fromPid = src ∨ e.fromPid = Maxhosts) := by
  induction ns generalizing l with
  | nil =>
      rcases h with ⟨n, hn, -⟩ | h
      · cases hn
      · exact h
  | cons n ns ih =>
      rw [List.foldl_cons]
      apply ih
      by_cases hnum : pageNum n.addr = num
      · right
        obtain ⟨e, he, heq, -, -, hfrom⟩ := l.exists_save n.addr (n.addr.setWidth 32) src scope
        exact ⟨e, he, heq.trans hnum, hfrom⟩
      · rcases h with ⟨n', hn', heq⟩ | ⟨e, he, heq, hfrom⟩
        · rcases List.mem_cons.mp hn' with rfl | hn'
          · exact absurd heq hnum
          · exact Or.inl ⟨n', hn', heq⟩
        · right
          have hne : e.num ≠ pageNum n.addr := by
            rw [heq]
            exact Ne.symm hnum
          exact ⟨e, (WtntList.mem_save_of_ne hne).mpr he, heq, hfrom⟩

/-- Another sender's notice turns the entry into one of several writers at most. -/
theorem foldl_save_keeps {src src' : Nat} {scope : BitVec 32} {num : Nat} {ns : List StackNotice}
    {l : WtntList} (h : ∃ e ∈ l.entries, e.num = num ∧ (e.fromPid = src ∨ e.fromPid = Maxhosts)) :
    ∃ e ∈ (ns.foldl (fun l n => l.save n.addr (n.addr.setWidth 32) src' scope) l).entries,
      e.num = num ∧ (e.fromPid = src ∨ e.fromPid = Maxhosts) := by
  induction ns generalizing l with
  | nil => exact h
  | cons n ns ih =>
      rw [List.foldl_cons]
      apply ih
      obtain ⟨e, he, heq, hfrom⟩ := h
      by_cases hnum : e.num = pageNum n.addr
      · refine ⟨_, (WtntList.mem_save_old he hnum ?_).mpr rfl, ?_, Or.inr rfl⟩
        · exact hnum
        · exact heq
      · exact ⟨e, (WtntList.mem_save_of_ne hnum).mpr he, heq, hfrom⟩

theorem exists_mergeRound {k src num : Nat} {rec : List (Nat × Msg)} {msg : Msg}
    (hmem : (src, msg) ∈ rec) (hnum : ∃ n ∈ msg.stackNotices, pageNum n.addr = num) :
    ∃ e ∈ (mergeRound k rec).entries, e.num = num ∧ (e.fromPid = src ∨ e.fromPid = Maxhosts) := by
  induction rec using List.reverseRecOn with
  | nil => cases hmem
  | append_singleton rec y ih =>
      rw [mergeRound_snoc, mergeMsg]
      rcases List.mem_append.mp hmem with hold | hnew
      · exact foldl_save_keeps (ih hold)
      · rw [List.mem_singleton] at hnew
        subst hnew
        exact exists_foldl_save (Or.inl hnum)

theorem pages_mergeMsg {k : Nat} {l : WtntList} {y : Nat × Msg} (hl : l.Pages cfg)
    (hy : ∀ n ∈ y.2.stackNotices, cfg.IsPage n.addr) : (mergeMsg k l y).Pages cfg := by
  unfold mergeMsg
  generalize y.2.stackNotices = ns at hy
  induction ns generalizing l with
  | nil => exact hl
  | cons n ns ih =>
      exact ih (hl.save (hy n List.mem_cons_self) _ _ _) fun x hx =>
        hy x (List.mem_cons_of_mem _ hx)

theorem stackNotices_pages {msg : Msg} (hp : msg.Pages cfg) :
    ∀ n ∈ msg.stackNotices, cfg.IsPage n.addr := by
  intro n hn
  cases msg <;> first | exact hp n hn | cases hn

/-- The notices of one barrier name each page once. -/
theorem answers_nodup {k : Nat} {rec : List (Nat × Msg)} {reply : List Msg}
    (h : Barrier.Answers k rec reply) :
    ((reply.flatMap Msg.grantNotices).map GrantNotice.addr).Nodup := by
  rw [h.notices, List.map_map]
  refine List.Nodup.of_map pageNum ?_
  rw [List.map_map]
  exact (mergeRound k rec).nodup

/-- The notice about a page is in one part of the list only. -/
theorem noticeOf_append {p : Nat} {ns ns' : List GrantNotice} :
    noticeOf cfg p (ns ++ ns') = (noticeOf cfg p ns).or (noticeOf cfg p ns') := by
  simp [noticeOf, List.find?_append]

theorem noticeOf_rest {p : Nat} {ns ns' : List GrantNotice} {n : GrantNotice}
    (hnodup : ((ns ++ ns').map GrantNotice.addr).Nodup) (hn : noticeOf cfg p ns = some n) :
    noticeOf cfg p ns' = none := by
  obtain ⟨hmem, ha⟩ := noticeOf_some hn
  rw [noticeOf_eq_none]
  intro n' hmem' ha'
  rw [List.map_append, List.nodup_append] at hnodup
  refine hnodup.2.2 _ (List.mem_map_of_mem hmem) _ (List.mem_map_of_mem hmem') ?_
  rw [ha, ha']

/-! ## Steps of main threads -/

section Main

variable {s : State} {log : RoundLog} {i : Nat} {a : Act} {hst : Host} {out : Out}

/-- Host `i` waits for no barrier, so it has the answer to every one that is over. -/
theorem up_to_date (hok : (Barrier.rounds cfg).Ok (s, log)) (hi : i < cfg.hostc)
    (hflag : (s.host i).y.barrwait = false) :
    log.granted i = log.rounds ∧ log.sent i = log.rounds := by
  have hinside : log.sent i = log.granted i + (s.host i).y.barrwait.toNat := hok.inv.inside i
  rw [hflag, Bool.toNat_false] at hinside
  obtain ⟨h₁, h₂, h₃⟩ := hok.inv.separated hi hi
  have h₁' : log.granted i ≤ log.rounds := h₁
  have h₂' : log.rounds ≤ log.arrived i := h₂
  have h₃' : log.arrived i ≤ log.sent i := h₃
  omega

theorem noteSent_frame (k : RoundKind cfg) (log : RoundLog) (i : Nat) (out : Out) :
    (k.noteSent log i out).rounds = log.rounds ∧ (k.noteSent log i out).granted = log.granted ∧
      (k.noteSent log i out).answer = log.answer := by
  unfold RoundKind.noteSent
  by_cases hnil : ((outboxTo out k.root).filter k.up).isEmpty = true
  · simp only [hnil, if_true]
    exact ⟨trivial, trivial, trivial⟩
  · simp only [hnil]
    exact ⟨rfl, rfl, rfl⟩

theorem offered_noteSent (k : RoundKind cfg) (log : RoundLog) (out : Out) (h : Nat) :
    (k.noteSent log i out).offered h =
      if h = i ∧ (outboxTo out k.root).filter k.up ≠ [] then
        set (log.offered i) (log.sent i) ((outboxTo out k.root).filter k.up)
      else log.offered h := by
  unfold RoundKind.noteSent
  by_cases hnil : (outboxTo out k.root).filter k.up = []
  · simp [hnil]
  · have hempty : ((outboxTo out k.root).filter k.up).isEmpty = false := by
      rwa [List.isEmpty_eq_false_iff]
    rw [if_neg (by rw [hempty]; exact Bool.false_ne_true)]
    by_cases hh : h = i
    · subst hh
      rw [if_pos ⟨rfl, hnil⟩]
      exact set_same _ _ _
    · rw [if_neg fun hcon => hh hcon.1]
      exact set_of_ne _ _ hh

theorem exists_chunkMsgs (more last : List WtntEntry → Msg) {cs : List (List WtntEntry)}
    {c : List WtntEntry} (hc : c ∈ cs) :
    more c ∈ chunkMsgs more last cs ∨ last c ∈ chunkMsgs more last cs := by
  have hne : cs ≠ [] := List.ne_nil_of_mem hc
  rw [chunkMsgs_eq hne]
  rw [← List.dropLast_append_getLast hne, List.mem_append, List.mem_singleton] at hc
  rcases hc with hc | hc
  · exact Or.inl (List.mem_append_left _ (List.mem_map_of_mem hc))
  · right
    rw [hc]
    exact List.mem_append_right _ (List.mem_singleton_self _)

/-- A notice at the top of the stack goes out with the burst of the barrier. -/
theorem told_arrive {p : Nat} (hi : i < cfg.hostc) (hp : p < cfg.npages)
    (hok : (Barrier.rounds cfg).Ok (s, log)) (hstack : StackOk (s.host i))
    (hpages : PagesOk cfg i (s.host i)) (hpc : (s.host i).pc = .drain .barr)
    (hnoted : Noted cfg (s.host i).y p) (hm : (s.host i).arrive cfg = .ok (hst, out)) :
    Told cfg (s.put i hst out) ((Barrier.rounds cfg).noteSent log i out) p i := by
  have hbelow := hstack.pc
  rw [hpc] at hbelow
  have htop := hstack.top_hidelock hbelow
  have hflag := (hstack.flags_down (by simp [hpc]) (by simp [hpc]) (by simp [hpc])).2.1
  have hsent := (up_to_date hok hi hflag).2
  obtain ⟨cs, hcs, rfl, -⟩ := arrive_ok hm
  rw [htop]
  -- the entry of the page is in one of the messages
  have hnum : pageNum (cfg.pageAddr p) ∈ (barrNotices cfg (s.host i)).nums := by
    unfold barrNotices
    split
    · exact (WtntList.nums_setMig _ _).symm ▸ hnoted
    · exact hnoted
  have hlist : (barrNotices cfg (s.host i)).Pages cfg := by
    unfold barrNotices
    split
    · exact hpages.lists.top.setMig _
    · exact hpages.lists.top
  obtain ⟨e, he, heq⟩ := WtntList.mem_nums.mp hnum
  have hflat : cs.flatten = (barrNotices cfg (s.host i)).entries :=
    (Packing.chunks_flatten hcs).trans (List.filter_eq_self.mpr fun _ _ => rfl)
  rw [← hflat, List.mem_flatten] at he
  obtain ⟨c, hc, hec⟩ := he
  have haddr : e.addr = cfg.pageAddr p := by
    obtain ⟨q, hq, ha⟩ := hlist e ((WtntList.chunk_pages hcs hc).1 e hec)
    have hqp : pageNum (cfg.pageAddr q) = pageNum (cfg.pageAddr p) := by
      rw [← ha]
      exact heq
    rw [ha, cfg.pageNum_pageAddr_inj hq hp hqp]
  have hburst : (outboxTo ((wtntMsgs hidelock
      (.barr hidelock ((s.host i).y.locks hidelock).myscope) cs).map
        fun msg => (hidelock % cfg.hostc, msg)) (Barrier.rounds cfg).root).filter
          (Barrier.rounds cfg).up =
      wtntMsgs hidelock (.barr hidelock ((s.host i).y.locks hidelock).myscope) cs := by
    have hroot : (Barrier.rounds cfg).root = hidelock % cfg.hostc := rfl
    rw [hroot, outboxTo_map_same]
    exact Barrier.filter_wtntMsgs
  have hne : wtntMsgs hidelock (.barr hidelock ((s.host i).y.locks hidelock).myscope) cs ≠ [] :=
    (Barrier.burst_wtntMsgs (Packing.chunks_ne_nil hcs)).ne_nil
  have hoff : ((Barrier.rounds cfg).noteSent log i ((wtntMsgs hidelock
      (.barr hidelock ((s.host i).y.locks hidelock).myscope) cs).map
        fun msg => (hidelock % cfg.hostc, msg))).offered i log.rounds =
      wtntMsgs hidelock (.barr hidelock ((s.host i).y.locks hidelock).myscope) cs := by
    rw [offered_noteSent, hburst, if_pos ⟨rfl, hne⟩, hsent, set_same]
  have hrounds := (noteSent_frame (Barrier.rounds cfg) log i ((wtntMsgs hidelock
      (.barr hidelock ((s.host i).y.locks hidelock).myscope) cs).map
        fun msg => (hidelock % cfg.hostc, msg))).1
  rcases exists_chunkMsgs (fun c => .wtnt hidelock (c.map WtntEntry.toStack))
      (fun c => .barr hidelock ((s.host i).y.locks hidelock).myscope
        (c.map WtntEntry.toStack)) hc with hmsg | hmsg
  · refine .sent (.wtnt hidelock (c.map WtntEntry.toStack)) e.toStack ?_
      (List.mem_map_of_mem hec) haddr
    rw [hrounds, hoff]
    exact hmsg
  · refine .sent (.barr hidelock ((s.host i).y.locks hidelock).myscope
      (c.map WtntEntry.toStack)) e.toStack ?_ (List.mem_map_of_mem hec) haddr
    rw [hrounds, hoff]
    exact hmsg

/-- The host that has announced its write goes on to send the notice. -/
theorem told_main {p h : Nat} (hi : i < cfg.hostc) (hp : p < cfg.npages)
    (hok : (Barrier.rounds cfg).Ok (s, log)) (hstack : StackOk (s.host i))
    (hpages : PagesOk cfg i (s.host i)) (hm : Main cfg i (s.host i) a hst out)
    (ht : Told cfg s log p h) :
    Told cfg (s.put i hst out) ((Barrier.rounds cfg).noteSent log i out) p h := by
  have hrounds := (noteSent_frame (Barrier.rounds cfg) log i out).1
  by_cases hh : h = i
  · subst hh
    cases ht with
    | scan j n hpc hpast hnoted =>
        cases hm with
        | @scan op j' n' h₁ hpc' hj hm =>
            rw [hpc] at hpc'
            cases hpc'
            have hs := scanHome_spec hm
            refine .scan (j + 1) n ?_ ?_ ?_
            · rw [State.put_host_same]
            · rw [State.put_host_same, hs.page]
              omega
            · rw [State.put_host_same]
              rcases hs.saved with heq | ⟨-, heq⟩
              · unfold Noted
                rw [heq]
                exact hnoted
              · unfold Noted
                rw [heq]
                exact WtntList.mem_nums_save.mpr (Or.inr hnoted)
        | scanEnd hpc' hj =>
            rw [hpc] at hpc'
            cases hpc'
            refine .drain ?_ ?_
            · rw [State.put_host_same]
            · rw [State.put_host_same]
              exact hnoted
        | leave hpc' =>
            rcases hpc' with ⟨hpc', -⟩ | ⟨hpc', -⟩
            · rw [hpc] at hpc'
              cases hpc'
            · rw [hpc] at hpc'
              cases hpc'
        | _ hpc' => rw [hpc] at hpc'; cases hpc'
    | drain hpc hnoted =>
        cases hm with
        | arrive hpc' hwait hm => exact told_arrive hi hp hok hstack hpages hpc hnoted hm
        | leave hpc' =>
            rcases hpc' with ⟨hpc', -⟩ | ⟨hpc', -⟩
            · rw [hpc] at hpc'
              cases hpc'
            · rw [hpc] at hpc'
              cases hpc'
        | _ hpc' => rw [hpc] at hpc'; cases hpc'
    | sent msg nt hmsg hnt ha =>
        refine .sent msg nt ?_ hnt ha
        rw [hrounds, offered_noteSent]
        split
        · rename_i hburst
          -- a host sends no second burst before it has the answer
          have hflag : (s.host h).y.barrwait = false := by
            cases Barrier.main_flag hstack hm with
            | quiet hout hflag =>
                refine absurd ?_ hburst.2
                rw [List.filter_eq_nil_iff]
                intro m hmem
                have hq : (Barrier.rounds cfg).up m = false := hout _ (mem_outboxTo.mp hmem)
                rw [hq]
                exact Bool.false_ne_true
            | enter hflag => exact hflag
          have hlate : log.offered h log.rounds = [] :=
            hok.records.late h log.rounds (up_to_date hok hi hflag).2.le
          rw [hlate] at hmsg
          cases hmsg
        · exact hmsg
  · have hoff : ((Barrier.rounds cfg).noteSent log i out).offered h = log.offered h := by
      rw [offered_noteSent, if_neg fun hcon => hh hcon.1]
    have hhost : (s.put i hst out).host h = s.host h := State.put_host_of_ne _ _ _ hh
    cases ht with
    | scan j n hpc hpast hnoted =>
        exact .scan j n (by rw [hhost, hpc]) (by rw [hhost]; exact hpast) (by rw [hhost]; exact hnoted)
    | drain hpc hnoted => exact .drain (by rw [hhost, hpc]) (by rw [hhost]; exact hnoted)
    | sent msg nt hmsg hnt ha => exact .sent msg nt (by rw [hrounds, hoff]; exact hmsg) hnt ha

theorem inFlight_send {n : Net Msg} {p h : Nat} {s' : State}
    (hn : ∀ {a b msg}, msg ∈ n a b → msg ∈ s.net a b) (hs' : s'.net = send n i out)
    (hout : ∀ y ∈ out, ∀ addr wv data xs, y.2 ≠ .getpgrant addr wv data xs)
    (hf : InFlight cfg s' p h) : InFlight cfg s p h := by
  obtain ⟨a, addr, wv, data, xs, hmem, haddr⟩ := hf
  refine ⟨a, addr, wv, data, xs, ?_, haddr⟩
  rw [hs'] at hmem
  rcases mem_send.mp hmem with hold | ⟨-, hnew⟩
  · exact hn hold
  · exact absurd rfl (hout _ hnew addr wv data xs)

theorem dueNotice_main (hstack : StackOk (s.host i)) (hm : Main cfg i (s.host i) a hst out)
    (p h : Nat) : dueNotice cfg (s.put i hst out) p h = dueNotice cfg s p h := by
  have hquiet : (Barrier.rounds cfg).cast.pending (s.put i hst out).net h =
      (Barrier.rounds cfg).cast.pending s.net h := by
    rw [State.put_net]
    apply Relay.Cast.pending_send_quiet
    intro y hy
    exact (Barrier.rounds cfg).quiet_of_request (main_routed hstack hm hy).1
  unfold dueNotice downTo
  rw [hquiet]

theorem frame_main {cl cl' : Nat → Nat → Option Nat} {p : Nat} (hstack : StackOk (s.host i))
    (hk : Kept cfg i (s.host i) hst) (hm : Main cfg i (s.host i) a hst out) :
    Directory.Frame (pageView cfg p (s, (log, cl)))
      (pageView cfg p (s.put i hst out, ((Barrier.rounds cfg).noteSent log i out, cl'))) := by
  obtain ⟨hrounds, hgranted, hanswer⟩ := noteSent_frame (Barrier.rounds cfg) log i out
  constructor
  · exact hrounds
  · exact hgranted
  · simp only [pageView, hrounds, hanswer]
  · simp only [pageView, hrounds, hanswer]
  · funext h
    simp only [pageView]
    by_cases hh : h = i
    · subst hh
      rw [State.put_host_same, hk.homepid]
    · rw [State.put_host_of_ne _ _ _ hh]
  · funext h
    simp only [pageView, dueNotice_main hstack hm]

/-- The main thread clears `rdnt` of a page that its host is the home of, and notes
the page. -/
theorem clears_main {p : Nat} (log : RoundLog) (out : Out) (hp : p < cfg.npages) (hstack : StackOk (s.host i))
    (hpages : PagesOk cfg i (s.host i)) (hk : Kept cfg i (s.host i) hst)
    (hold : (s.host i).m.rdnt p = true) (hnew : hst.m.rdnt p = false) :
    (s.host i).y.barrwait = false ∧ Told cfg (s.put i hst out)
      ((Barrier.rounds cfg).noteSent log i out) p i := by
  unfold MemState.rdnt at hold hnew
  rw [hk.homei] at hnew
  rcases hk.rdnt ((s.host i).m.page p).homei with heq | ⟨n, hpc, hlt, -, -, hpc', hy⟩
  · rw [heq, hold] at hnew
    cases hnew
  · have hflag := (hstack.flags_down (by simp [hpc]) (by simp [hpc]) (by simp [hpc])).2.1
    have hsize : ((s.host i).m.page p).homei < Homepages := by
      have hn := hpages.scan .barr _ n hpc
      have hle := (hpages.compact (Or.inr hflag)).1
      omega
    have hown : ((s.host i).m.page p).homepid = i := by
      by_contra hne
      have haway := hpages.tables.home.away p hp hne
      omega
    have haddr := (hpages.tables.home.home p hp hown).2
    refine ⟨hflag, .scan (((s.host i).m.page p).homei + 1) n ?_ ?_ ?_⟩
    · rw [State.put_host_same]
      exact hpc'
    · rw [State.put_host_same, hk.homei]
      exact Nat.lt_succ_self _
    · rw [State.put_host_same, Noted, hy, haddr]
      exact WtntList.mem_nums_save.mpr (Or.inl rfl)

theorem page_main {cl : Nat → Nat → Option Nat} {p : Nat} (hi : i < cfg.hostc)
    (hp : p < cfg.npages) (hok : (Barrier.rounds cfg).Ok (s, log)) (hstack : StackOk (s.host i))
    (hpages : PagesOk cfg i (s.host i)) (hm : Main cfg i (s.host i) a hst out) :
    Directory.Step cfg.hostc (pageView cfg p (s, (log, cl)))
      (pageView cfg p (s.put i hst out, ((Barrier.rounds cfg).noteSent log i out,
        noteCleared (log.granted i) i cl (s.host i).m hst.m))) := by
  have hk := main_kept hpages.tables hm
  have hholds : ∀ h < cfg.hostc, (pageView cfg p (s.put i hst out,
      ((Barrier.rounds cfg).noteSent log i out,
        noteCleared (log.granted i) i cl (s.host i).m hst.m))).holds h →
      (pageView cfg p (s, (log, cl))).holds h := by
    intro h _ hcopy
    rcases hcopy with hcopy | hcopy
    · left
      by_cases hh : h = i
      · subst hh
        rw [State.put_host_same] at hcopy
        exact hk.holds p hp hcopy
      · rwa [State.put_host_of_ne _ _ _ hh] at hcopy
    · right
      refine inFlight_send (n := s.net) id (State.put_net _ _ _ _) ?_ hcopy
      intro y hy addr wv data xs heq
      have hreq := (main_routed hstack hm hy).1
      rw [heq] at hreq
      cases hreq
  have htold : ∀ h < cfg.hostc, log.granted h = log.rounds → Told cfg s log p h →
      Told cfg (s.put i hst out) ((Barrier.rounds cfg).noteSent log i out) p h :=
    fun h _ _ ht => told_main hi hp hok hstack hpages hm ht
  by_cases hclr : (s.host i).m.rdnt p = true ∧ hst.m.rdnt p = false
  · obtain ⟨hflag, htoldi⟩ := clears_main log out hp hstack hpages hk hclr.1 hclr.2
    have hup : log.granted i = log.rounds := (up_to_date hok hi hflag).1
    refine .clear i (frame_main hstack hk hm) hup ?_ ?_ ?_ htold htoldi hholds
    · simp only [pageView, noteCleared]
      rw [if_pos ⟨trivial, hclr⟩, hup]
    · intro h hh
      simp only [pageView, noteCleared]
      rw [if_neg fun hcon => hh hcon.1]
    · intro h _ hh hr
      simp only [pageView] at hr ⊢
      rwa [State.put_host_of_ne _ _ _ hh] at hr
  · refine .keep (frame_main hstack hk hm) ?_ ?_ htold fun h hh hcopy => Or.inl (hholds h hh hcopy)
    · funext h
      simp only [pageView, noteCleared]
      rw [if_neg fun hcon => hclr hcon.2]
    · intro h _ _ hr
      simp only [pageView] at hr ⊢
      by_cases hh : h = i
      · subst hh
        rw [State.put_host_same] at hr
        by_contra hne
        rw [Bool.not_eq_false] at hne
        exact hclr ⟨hne, hr⟩
      · rwa [State.put_host_of_ne _ _ _ hh] at hr

end Main

end Jiajia
