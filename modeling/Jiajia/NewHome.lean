import Jiajia.ReaderFlag
import Jiajia.PageFetch
import Jiajia.Contents
import Jiajia.Writers

/-!
# Requests at a new home

A host that has left a barrier sends its requests to the homes its own table names.  A
host that becomes a home at that barrier may not have handled its grant yet, and
`getpserver` and `diffserver` have branches for it.  The notices of the barrier may take
several messages, so a new home may have handled the one about the page before the last.
-/

namespace Jiajia

open Transition Host MemState

variable {cfg : Config}

/-- The addresses of the pages a request is about. -/
def Msg.requests : Msg → List Addr
  | .getp addr _ => [addr]
  | .diff ds => ds.map PageDiff.addr
  | _ => []

/-- Barrier `k` has moved page `p` to host `dst`, and `src` has returned from it; the next
message of `src` at `dst` is a request for the page, and `dst` has not handled its grant of
barrier `k`. -/
structure Early (cfg : Config) (s : State) (log : RoundLog) (k src dst p : Nat) (msg : Msg) :
    Prop where
  mig : cfg.hMig = true
  page : p < cfg.npages
  hosts : src < cfg.hostc ∧ dst < cfg.hostc
  next : ∃ rest, s.net src dst = msg :: rest
  request : cfg.pageAddr p ∈ msg.requests
  moved : homes cfg log.answer p k ≠ dst ∧ homes cfg log.answer p (k + 1) = dst
  returned : k < log.granted src
  waiting : log.granted dst ≤ k

/-- Nothing but the home of the page can go wrong with the request: the host has mapped its
home pages, and has write access to those it has written. -/
def Servable (cfg : Config) (dst : Nat) (m : MemState) : Msg → Prop
  | .getp addr _ => PrefetchRange cfg ∧ HomeOk cfg dst m ∧ ScanInside cfg dst m (cfg.pagei addr)
  | .diff ds => ∀ d ∈ ds, HomeHere cfg m d.addr
  | _ => False

/-- `GETPGRANT` carries the page as `dst` has it and nothing from address 0; diffs are applied
to the page of `dst`, and their entry of the home table exists. -/
structure EarlyServed (cfg : Config) (s : State) (src dst p : Nat) (msg : Msg) : Prop where
  handled : ∀ rnd, Servable cfg dst (s.host dst).m msg →
    ∃ h out, (s.host dst).msgHandle cfg dst src rnd msg = .ok (h, out)
  source : ∀ temp rnd, msg = .getp (cfg.pageAddr p) temp →
    (s.host dst).msgHandle cfg dst src rnd msg ≠ .error (.undefined "copy from address 0")
  answer : ∀ temp rnd h out, msg = .getp (cfg.pageAddr p) temp →
    (s.host dst).msgHandle cfg dst src rnd msg = .ok (h, out) → ∃ wv xs,
      (src, .getpgrant (cfg.pageAddr p) wv (maskPage wv ((s.host dst).m.mem p) zeroPage) xs) ∈ out
  applied : ∀ ds rnd h out, msg = .diff ds →
    (s.host dst).msgHandle cfg dst src rnd msg = .ok (h, out) →
      h.m.mem p = (ds.filter fun d => cfg.pagei d.addr = p).foldl
        (fun pg d => applyRuns d.runs pg) ((s.host dst).m.mem p)
  entry : ∀ ds, msg = .diff ds → (s.host dst).m.homepage cfg (cfg.pageAddr p) < Homepages

/-! ## The notice of the move -/

section Early

variable {s : State} {log : RoundLog} {k src dst p : Nat} {msg : Msg}

theorem reach_clear {x : State × RoundLog}
    (hx : ((system cfg).withHist (Barrier.rounds cfg).history).Reach x) :
    ∃ cl, ((system cfg).withHist (clearHistory cfg)).Reach (x.1, x.2, cl) := hx.rechain _ _

/-- The table of `dst` names `dst` once the notice about the page has been handled. -/
theorem Early.home_iff (hx : ((system cfg).withHist (Barrier.rounds cfg).history).Reach (s, log))
    (he : Early cfg s log k src dst p msg) :
    ((s.host dst).m.page p).homepid = dst ↔ dueNotice cfg s p dst = none := by
  obtain ⟨cl, hcl⟩ := reach_clear hx
  have hok := (Barrier.rounds cfg).reach_ok hx
  have hk := (reach_page hcl he.page).known dst he.hosts.2
  have hle : log.granted src ≤ log.rounds := (hok.inv.separated he.hosts.1 he.hosts.1).1
  have hret := he.returned
  have hwait := he.waiting
  obtain ⟨hold, hnew⟩ := he.moved
  have hgranted : log.granted dst = log.rounds ∨ log.granted dst + 1 = log.rounds := hk.granted
  have hrounds : log.rounds = k + 1 := by omega
  cases hk with
  | done hg =>
      have hg' : log.granted dst = log.rounds := hg
      omega
  | heard hg hdue hseen =>
      have hseen' : ((s.host dst).m.page p).homepid = homes cfg log.answer p log.rounds := hseen
      rw [hrounds, hnew] at hseen'
      exact iff_of_true hseen' (Option.map_eq_none_iff.mp hdue)
  | waits nt hg hdue hseen =>
      have hseen' : ((s.host dst).m.page p).homepid = homes cfg log.answer p (log.rounds - 1) :=
        hseen
      rw [hrounds, Nat.add_sub_cancel] at hseen'
      refine iff_of_false (fun hself => hold (hseen'.symm.trans hself)) ?_
      intro hnone
      have hdue' : (dueNotice cfg s p dst).map (toNotice cfg) = some nt := hdue
      rw [hnone] at hdue'
      cases hdue'

end Early

/-! ## The branches of the servers -/

section Servers

variable {m : MemState} {pid src p : Nat}

/-- On the branch for a new home no page is copied. -/
theorem getpserver_newHome {temp : Bool} (hmig : cfg.hMig = true) (hp : p < cfg.npages)
    (haway : (m.page p).homepid ≠ pid) :
    m.getpserver cfg pid src (cfg.pageAddr p) temp =
      .error (.undefined "copy from address 0") := by
  have hhost : m.homehost cfg (cfg.pageAddr p) ≠ pid := by
    rw [homehost, cfg.pagei_pageAddr hp]
    exact haway
  unfold getpserver
  simp only
  rw [if_pos ⟨hmig, hhost⟩]

/-- Before the notice there is no home entry for the page. -/
theorem homepage_newHome (ht : m.HomeTables cfg pid) (hp : p < cfg.npages)
    (haway : (m.page p).homepid ≠ pid) : m.homepage cfg (cfg.pageAddr p) = Homepages := by
  rw [homepage, cfg.pagei_pageAddr hp]
  exact ht.away p hp haway

end Servers

/-! ### No other branch copies from address 0 -/

section Zero

variable {α β : Type} {m : MemState} {pid p : Nat}

/-- The computation does not end with the copy from address 0. -/
def NotFromZero (x : Result α) : Prop := x ≠ .error (.undefined "copy from address 0")

theorem notFromZero_ok (a : α) : NotFromZero (.ok a : Result α) := fun h => by cases h

theorem NotFromZero.bind {x : Result α} {f : α → Result β} (hx : NotFromZero x)
    (hf : ∀ a, NotFromZero (f a)) : NotFromZero (x >>= f) := by
  cases x with
  | ok a => exact hf a
  | error e =>
      intro h
      apply hx
      have herr : e = .undefined "copy from address 0" := Except.error.inj h
      rw [herr]

theorem notFromZero_defined {c : Prop} [Decidable c] {what : String}
    (hne : what ≠ "copy from address 0") : NotFromZero (defined c what) := by
  unfold defined
  split
  · exact notFromZero_ok ()
  · intro h
    exact hne (Stop.undefined.inj (Except.error.inj h))

theorem notFromZero_assert {c : Prop} [Decidable c] {what : String} :
    NotFromZero (jiaAssert c what) := by
  unfold jiaAssert
  split
  · exact notFromZero_ok ()
  · intro h
    cases Except.error.inj h

theorem notFromZero_copyPage : NotFromZero (m.copyPage cfg pid p) := by
  unfold copyPage
  split
  · exact notFromZero_ok _
  · refine (notFromZero_defined (by decide)).bind fun _ => ?_
    refine NotFromZero.bind ?_ fun _ => notFromZero_ok _
    refine (notFromZero_assert.bind fun _ => notFromZero_ok _).bind fun _ => ?_
    exact (notFromZero_defined (by decide)).bind fun _ => notFromZero_ok _

theorem notFromZero_copyUnless {c : Prop} [Decidable c] {pg : Page} :
    NotFromZero (if c then .ok (m, pg) else m.copyPage cfg pid p) := by
  split
  · exact notFromZero_ok _
  · exact notFromZero_copyPage

theorem notFromZero_copyPages (ps : List Nat) : NotFromZero (copyPages cfg pid m ps) := by
  induction ps generalizing m with
  | nil => exact notFromZero_ok _
  | cons p ps ih => exact notFromZero_copyPage.bind fun r => ih.bind fun _ => notFromZero_ok _

theorem notFromZero_renewTwin (homei : Nat) : NotFromZero (m.renewTwin cfg pid homei) := by
  unfold renewTwin
  split
  · exact notFromZero_copyPage.bind fun _ => notFromZero_ok _
  · exact notFromZero_ok _

theorem notFromZero_prefetchLoop {k num : Nat} {acc : List Nat} :
    NotFromZero (prefetchLoop cfg pid k m p num acc) := by
  induction k generalizing m p num acc with
  | zero => exact notFromZero_ok _
  | succ k ih =>
      unfold prefetchLoop
      refine (notFromZero_defined (by decide)).bind fun _ => ?_
      split
      · refine (notFromZero_defined (by decide)).bind fun _ => ?_
        refine (notFromZero_defined (by decide)).bind fun _ => ?_
        dsimp only
        split
        · exact notFromZero_ok _
        · exact ih
      · exact ih

/-- A host that sees itself as the home copies from the page. -/
theorem getpserver_source {src : Nat} {temp : Bool} (hp : p < cfg.npages)
    (hself : (m.page p).homepid = pid) :
    NotFromZero (m.getpserver cfg pid src (cfg.pageAddr p) temp) := by
  have hhost : m.homehost cfg (cfg.pageAddr p) = pid := by
    rw [homehost, cfg.pagei_pageAddr hp, hself]
  unfold getpserver
  simp only
  rw [if_neg fun h => h.2 hhost]
  refine notFromZero_assert.bind fun _ => ?_
  refine (notFromZero_defined (by decide)).bind fun _ => ?_
  refine (notFromZero_renewTwin _).bind fun m₁ => ?_
  refine NotFromZero.bind ?_ fun r => ?_
  · unfold prefetch
    split
    · exact notFromZero_prefetchLoop
    · exact notFromZero_ok _
  refine notFromZero_copyUnless.bind fun _ => ?_
  refine (notFromZero_copyPages _).bind fun _ => ?_
  exact notFromZero_assert.bind fun _ => notFromZero_ok _

end Zero

/-- What the home sends is what it has. -/
theorem getpserver_answer {m m' : MemState} {pid src : Nat} {addr : Addr} {temp : Bool} {out : Out}
    (h : m.getpserver cfg pid src addr temp = .ok (m', out)) : ∃ wv xs,
      out = [(src, .getpgrant addr wv (maskPage wv (m.mem (cfg.pagei addr)) zeroPage) xs)] := by
  unfold getpserver at h
  simp only at h
  split at h
  · cases h
  · simp only [bind_eq_ok, Prod.exists, pure, Except.pure, Except.ok.injEq, Prod.mk.injEq] at h
    obtain ⟨-, -, -, -, m₁, hrenew, m₂, ps, hpre, m₃, pg, hcopy, m₄, xs, -, -, -, -, rfl⟩ := h
    have hset : Inert m₁ (m₁.setHome (m.homepage cfg addr)
        { m₁.home (m.homepage cfg addr) with rdnt := true }) := ⟨rfl, rfl⟩
    have hmem := ((inert_renewTwin hrenew).trans (hset.trans (inert_prefetch hpre))).mem
    generalize (if cfg.wVec = true ∧ temp = true then
      (m₂.home (m₂.lastHomei (homepage cfg m addr) ps)).wtvect src else WVFULL) = wv at hcopy ⊢
    refine ⟨wv, xs, ?_⟩
    by_cases hzero : wv = 0
    · rw [hzero, maskPage_zero pg (m.mem (cfg.pagei addr))]
    · rw [(inert_copyUnless hcopy).2 hzero, hmem]

/-! ## Requests at the home -/

section Requests

variable {s : State} {src dst p : Nat}

theorem getp_served {temp : Bool} (hp : p < cfg.npages)
    (hself : ((s.host dst).m.page p).homepid = dst) :
    EarlyServed cfg s src dst p (.getp (cfg.pageAddr p) temp) where
  handled rnd hready := by
    obtain ⟨hrange, hok, hin⟩ := hready
    rw [cfg.pagei_pageAddr hp] at hin
    obtain ⟨m', hget, -⟩ := (getpserver_home hrange hok hp hself src temp).1 hin
    simp only [msgHandle, onMem, bind_eq_ok, Prod.exists]
    exact ⟨_, _, m', _, hget, rfl⟩
  source temp' rnd _ := by
    have hsource : NotFromZero ((s.host dst).m.getpserver cfg dst src (cfg.pageAddr p) temp) :=
      getpserver_source hp hself
    exact hsource.bind fun _ => notFromZero_ok _
  answer temp' rnd h out heq hok := by
    obtain ⟨-, rfl⟩ := Msg.getp.inj heq
    simp only [msgHandle, onMem, bind_eq_ok, Prod.exists, pure, Except.pure, Except.ok.injEq,
      Prod.mk.injEq] at hok
    obtain ⟨m', out', hget, rfl, rfl⟩ := hok
    obtain ⟨wv, xs, hout⟩ := getpserver_answer hget
    rw [cfg.pagei_pageAddr hp] at hout
    exact ⟨wv, xs, hout ▸ List.mem_singleton_self _⟩
  applied ds rnd h out heq := by cases heq
  entry ds heq := by cases heq

theorem diff_served {ds : List PageDiff} (hp : p < cfg.npages)
    (hentry : ((s.host dst).m.page p).homei < Homepages) :
    EarlyServed cfg s src dst p (.diff ds) where
  handled rnd hready := by
    obtain ⟨m', hds, -⟩ := applyDiffs_total src hready
    simp only [msgHandle, onMem, diffserver, bind_eq_ok, Prod.exists]
    exact ⟨_, _, m', _, ⟨m', hds, rfl⟩, rfl⟩
  source temp rnd heq := by cases heq
  answer temp rnd h out heq := by cases heq
  applied ds' rnd h out heq hok := by
    obtain rfl := Msg.diff.inj heq
    simp only [msgHandle, onMem, diffserver, bind_eq_ok, Prod.exists, pure, Except.pure,
      Except.ok.injEq, Prod.mk.injEq] at hok
    obtain ⟨m', out', ⟨m'', hds, rfl, -⟩, rfl, -⟩ := hok
    exact applyDiffs_mem hds p
  entry ds' _ := by
    rw [homepage, cfg.pagei_pageAddr hp]
    exact hentry

end Requests

/-- A request that reaches a new home before its grant is served if and only if the home has
handled the notice that moves the page. -/
theorem early_served_iff {s : State} {log : RoundLog} {k src dst p : Nat} {msg : Msg}
    (hx : ((system cfg).withHist (Barrier.rounds cfg).history).Reach (s, log))
    (he : Early cfg s log k src dst p msg) :
    EarlyServed cfg s src dst p msg ↔ dueNotice cfg s p dst = none := by
  rw [← he.home_iff hx]
  have htables := ((reach_pages hx.forget).host dst).tables.home
  have hrequest := he.request
  constructor
  · intro hserved
    by_contra haway
    cases msg with
    | getp addr temp =>
        obtain rfl := List.mem_singleton.mp hrequest
        refine hserved.source temp [] rfl ?_
        have hnone := @getpserver_newHome cfg (s.host dst).m dst src p temp he.mig he.page haway
        simp only [msgHandle, onMem, hnone]
        rfl
    | diff ds =>
        have hentry := hserved.entry ds rfl
        rw [homepage_newHome htables he.page haway] at hentry
        exact absurd hentry (lt_irrefl _)
    | _ => cases hrequest
  · intro hself
    cases msg with
    | getp addr temp =>
        obtain rfl := List.mem_singleton.mp hrequest
        exact getp_served he.page hself
    | diff ds => exact diff_served he.page (htables.home p he.page hself).1
    | _ => cases hrequest

/-! ## A request that overtakes a grant -/

theorem movedHome_one : 1 < 3 := by decide

theorem movedHome_zero : 0 < 3 := by decide

theorem movedHome_ne : 1 ≠ 0 := by decide

theorem movedHome_pages : 2 < Homepages ∧ 0 < Homepages := by decide

/-- Three hosts that migrate homes; host 1 is the home of the two pages. -/
def movedHome : Config :=
  { Config.prefetchPair with
    layout := Layout.twoBlocks 3 1 0 2 0 movedHome_one movedHome_zero movedHome_ne movedHome_pages
    prefetchFlag := false }

/-- Host 0 writes the second page and becomes its home at a barrier.  Host 2 leaves the
barrier and asks host 0 for the page, before host 0 has its grant. -/
def overtaking : List Event :=
  [.main 0 (.fault 1 true 0), .deliver 0 1 [], .deliver 1 0 [], .main 0 .go,
    .main 0 (.fault 1 true 0), .main 0 .go, .main 0 (.store 1 Config.unit0 7),
    .main 0 .barrier, .deliver 0 1 [], .deliver 1 0 [], .main 0 .go, .main 0 .go,
    .main 1 .barrier, .main 1 .go, .main 1 .go, .main 1 .go, .main 1 .go,
    .main 2 .barrier, .main 2 .go, .main 2 .go,
    .deliver 0 1 [], .deliver 1 1 [], .deliver 2 1 [], .deliver 1 2 [],
    .main 2 .go, .main 2 (.fault 1 false 0)]

/-- The notice that makes host 0 the home. -/
def toNewHome (n : GrantNotice) : Bool :=
  n.addr == movedHome.pageAddr 1 && n.fromPid == 0 && n.mig != 0

/-- The request and the grant are on their way to host 0. -/
def overtaken (x : State × RoundLog) : Bool :=
  (match x.1.net 2 0 with
    | [.getp addr _] => addr == movedHome.pageAddr 1
    | _ => false) &&
  (match x.1.net 1 0 with
    | [.barrgrant _ _ ns] => ns.any toNewHome
    | _ => false) &&
  decide (((x.1.host 0).m.page 1).homepid ≠ 0 ∧ (x.1.host 0).m.mem 1 Config.unit0 = 7 ∧
    homes movedHome x.2.answer 1 0 ≠ 0 ∧ homes movedHome x.2.answer 1 1 = 0 ∧
    0 < x.2.granted 2 ∧ x.2.granted 0 ≤ 0)

theorem exists_overtaken : ∃ s log temp scope lock ns,
    ((system movedHome).withHist (Barrier.rounds movedHome).history).Reach (s, log) ∧
    s.net 1 0 = [.barrgrant lock scope ns] ∧ (∃ n ∈ ns, toNewHome n = true) ∧
    Early movedHome s log 0 2 0 1 (.getp (movedHome.pageAddr 1) temp) ∧
    ((s.host 0).m.page 1).homepid ≠ 0 ∧ (s.host 0).m.mem 1 Config.unit0 = 7 := by
  obtain ⟨⟨s, log⟩, hx, hcheck⟩ := exists_execHist movedHome
    (Barrier.rounds movedHome).history overtaking overtaken (by decide +kernel)
  unfold overtaken at hcheck
  simp only [Bool.and_eq_true, decide_eq_true_eq] at hcheck
  obtain ⟨⟨hgetp, hgrant⟩, haway, hstored, hold, hnew, hreturned, hwaiting⟩ := hcheck
  split at hgetp
  · rename_i addr temp hnet
    split at hgrant
    · rename_i lock scope ns hnet'
      have haddr : addr = movedHome.pageAddr 1 := beq_iff_eq.mp hgetp
      refine ⟨s, log, temp, scope, lock, ns, hx, hnet', List.any_eq_true.mp hgrant, ?_, haway,
        hstored⟩
      exact
        { mig := rfl
          page := by decide
          hosts := by decide
          next := ⟨[], haddr ▸ hnet⟩
          request := List.mem_singleton_self _
          moved := ⟨hold, hnew⟩
          returned := hreturned
          waiting := hwaiting }
    · cases hgrant
  · cases hgetp

/-- The request of host 2 overtakes the grant, and host 0 copies from address 0. -/
theorem overtaking_request_fails : ∃ s log temp lock scope ns,
    ((system movedHome).withHist (Barrier.rounds movedHome).history).Reach (s, log) ∧
    s.net 1 0 = [.barrgrant lock scope ns] ∧ (∃ n ∈ ns, toNewHome n = true) ∧
    Early movedHome s log 0 2 0 1 (.getp (movedHome.pageAddr 1) temp) ∧
    (s.host 0).m.mem 1 Config.unit0 = 7 ∧
    (∀ rnd, step movedHome s (.deliver 2 0 rnd) = .error (.undefined "copy from address 0")) ∧
    ¬ EarlyServed movedHome s 2 0 1 (.getp (movedHome.pageAddr 1) temp) := by
  obtain ⟨s, log, temp, scope, lock, ns, hx, hgrant, hn, he, haway, hstored⟩ := exists_overtaken
  have hnone := @getpserver_newHome movedHome (s.host 0).m 0 2 1 temp he.mig he.page haway
  have hfails : ∀ rnd, (s.host 0).msgHandle movedHome 0 2 rnd
      (.getp (movedHome.pageAddr 1) temp) = .error (.undefined "copy from address 0") := by
    intro rnd
    simp only [msgHandle, onMem, hnone]
    rfl
  refine ⟨s, log, temp, lock, scope, ns, hx, hgrant, hn, he, hstored, ?_, ?_⟩
  · intro rnd
    obtain ⟨rest, hnet⟩ := he.next
    simp only [step, hnet, hfails]
    rfl
  · exact fun hserved => hserved.source temp [] rfl (hfails [])

theorem early_served_iff_overtaken : ∃ s log temp,
    ((system movedHome).withHist (Barrier.rounds movedHome).history).Reach (s, log) ∧
    Early movedHome s log 0 2 0 1 (.getp (movedHome.pageAddr 1) temp) ∧
    dueNotice movedHome s 1 0 ≠ none ∧
    ¬ EarlyServed movedHome s 2 0 1 (.getp (movedHome.pageAddr 1) temp) := by
  obtain ⟨s, log, temp, -, -, -, hx, -, -, he, haway, -⟩ := exists_overtaken
  have hdue : dueNotice movedHome s 1 0 ≠ none := fun hnone => haway ((he.home_iff hx).mpr hnone)
  exact ⟨s, log, temp, hx, he, hdue, fun hserved => hdue ((early_served_iff hx he).mp hserved)⟩

end Jiajia
