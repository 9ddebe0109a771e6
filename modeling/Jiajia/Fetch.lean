import Jiajia.Pages

/-!
# One page request at a time

A host has at most one GETP or GETPGRANT in flight, for the page its main thread
waits for.
-/

namespace Jiajia

open Fifo Transition Host MemState

variable {cfg : Config}

def Msg.isGetp : Msg → Bool
  | .getp _ _ => true
  | _ => false

def Msg.isGetpgrant : Msg → Bool
  | .getpgrant _ _ _ _ => true
  | _ => false

/-! ## Messages of one kind on a channel -/

section Channels

variable {f : Msg → Bool} {n : Net Msg} {src dst a b : Nat} {msg : Msg} {rest : List Msg}
  {out : Out}

theorem filter_send_quiet (hout : ∀ y ∈ out, f y.2 = false) :
    (send n src out a b).filter f = (n a b).filter f := by
  by_cases ha : a = src
  · subst ha
    have hnone : (outboxTo out b).filter f = [] := by
      rw [List.filter_eq_nil_iff]
      intro m hm
      rw [hout _ (mem_outboxTo.mp hm)]
      simp
    rw [send_same, List.filter_append, hnone, List.append_nil]
  · rw [send_of_ne _ _ _ ha]

theorem filter_drop_quiet (hnet : n src dst = msg :: rest) (hmsg : f msg = false) :
    (drop n src dst a b).filter f = (n a b).filter f := by
  by_cases hab : a = src ∧ b = dst
  · obtain ⟨rfl, rfl⟩ := hab
    rw [drop_same hnet, hnet, List.filter_cons, hmsg]
    rfl
  · rw [drop_of_ne _ hab]

theorem filter_taken (hnet : n src dst = msg :: rest) (hmsg : f msg = true) :
    (n src dst).filter f = msg :: (drop n src dst src dst).filter f := by
  rw [drop_same hnet, hnet, List.filter_cons, hmsg]
  rfl

theorem filter_send_one (hmsg : f msg = true) :
    (send n src [(dst, msg)] a b).filter f =
      if a = src ∧ b = dst then (n a b).filter f ++ [msg] else (n a b).filter f := by
  by_cases ha : a = src
  · subst ha
    by_cases hb : b = dst
    · subst hb
      rw [if_pos ⟨rfl, rfl⟩, send_same, outboxTo_cons_same, outboxTo_nil, List.filter_append]
      simp [hmsg]
    · rw [if_neg fun h => hb h.2, send_same, outboxTo_cons_ne _ _ (Ne.symm hb), outboxTo_nil,
        List.append_nil]
  · rw [if_neg fun h => ha h.1, send_of_ne _ _ _ ha]

end Channels

/-! ## The request of a host -/

/-- Where the page request of host `h` is. -/
inductive Fetching (cfg : Config) (s : State) (h : Nat) : Prop
  | idle (hwait : (s.host h).m.getpwait = false)
      (hask : ∀ b, (s.net h b).filter Msg.isGetp = [])
      (hans : ∀ a, (s.net a h).filter Msg.isGetpgrant = [])
  | asked (w : FaultWait) (b : Nat) (temp : Bool) (hpc : (s.host h).pc = .fault w)
      (hwait : (s.host h).m.getpwait = true)
      (hone : (s.net h b).filter Msg.isGetp = [.getp (cfg.pageAddr w.page) temp])
      (hask : ∀ b', b' ≠ b → (s.net h b').filter Msg.isGetp = [])
      (hans : ∀ a, (s.net a h).filter Msg.isGetpgrant = [])
  | answered (w : FaultWait) (a : Nat) (wv : BitVec Wvbits) (data : Page) (xs : List ExtraPage)
      (hpc : (s.host h).pc = .fault w) (hwait : (s.host h).m.getpwait = true)
      (hask : ∀ b, (s.net h b).filter Msg.isGetp = [])
      (hone : (s.net a h).filter Msg.isGetpgrant = [.getpgrant (cfg.pageAddr w.page) wv data xs])
      (hans : ∀ a', a' ≠ a → (s.net a' h).filter Msg.isGetpgrant = [])

/-- What one step of a main thread means to page requests. -/
inductive MainFetch (cfg : Config) (h h' : Host) (out : Out) : Prop
  | quiet (hpc : ∀ w, h.pc = .fault w → h.m.getpwait = false)
      (hwait : h'.m.getpwait = h.m.getpwait) (hout : ∀ y ∈ out, y.2.isGetp = false)
  | ask (w : FaultWait) (b : Nat) (temp : Bool) (hpc : h.pc = .app) (hpc' : h'.pc = .fault w)
      (hwait : h'.m.getpwait = true) (hout : out = [(b, .getp (cfg.pageAddr w.page) temp)])

theorem main_fetch {pid : Nat} {h h' : Host} {a : Act} {out : Out} (ht : h.m.Tables cfg pid)
    (hm : Main cfg pid h a h' out) : MainFetch cfg h h' out := by
  have hstart : ∀ {m₁ m₂ : MemState} {barr : Bool}, startCache cfg h.m = .ok m₁ →
      startHomes cfg barr m₁ = .ok m₂ → m₂.getpwait = h.m.getpwait := by
    intro m₁ m₂ barr h₁ h₂
    exact (still_startHomes h₂).getpwait.trans (startCache_ok ht.cache h₁).2.2.2
  have hnotices : ∀ {l d : Nat} {cs : List (List WtntEntry)} {last : List StackNotice → Msg},
      (∀ ns, (last ns).isGetp = false) →
      ∀ y ∈ (wtntMsgs l last cs).map (fun msg => (d, msg)), y.2.isGetp = false := by
    intro l d cs last hlast y hy
    obtain ⟨msg, hmsg, rfl⟩ := List.mem_map.mp hy
    obtain ⟨c, -, rfl | rfl⟩ := mem_chunkMsgs hmsg
    · rfl
    · exact hlast _
  cases hm with
  | load hpc => exact .quiet (by simp [hpc]) rfl (by simp)
  | store hpc => exact .quiet (by simp [hpc]) rfl (by simp)
  | homeFault hpc hp hfault hhome hm =>
      exact .quiet (by simp [hpc]) (still_homeFault hm).getpwait (by simp)
  | @cacheFault p seti write m w out hpc hp hfault hhome hm =>
      obtain ⟨-, -, -, hpage, hask⟩ := cacheFault_ok ht.cache hp hm
      rcases hask with ⟨rfl, -, hwait⟩ | ⟨temp, rfl, hwait⟩
      · exact .quiet (by simp [hpc]) hwait (by simp)
      · exact .ask w _ temp hpc rfl hwait (by rw [hpage])
  | faultEnd hpc hwait hm =>
      exact .quiet (fun _ _ => hwait) (faultEnd_ok ht.cache hm).2.2.2 (by simp)
  | single hpc => exact .quiet (by simp [hpc]) rfl (by simp)
  | start hpc hhost ha hop hm =>
      obtain ⟨y, dm, -, rfl, rfl⟩ := endinterval_ok hm
      refine .quiet (by simp [hpc]) rfl ?_
      intro y hy
      obtain ⟨k, -, -, rfl⟩ := mem_senddiffs.mp hy
      rfl
  | scan hpc hi hm => exact .quiet (by simp [hpc]) (scanHome_spec hm).getpwait (by simp)
  | scanEnd hpc => exact .quiet (by simp [hpc]) rfl (by simp)
  | acquire hpc => exact .quiet (by simp [hpc]) rfl (by simp [Msg.isGetp])
  | acquired hpc hwait hm =>
      obtain ⟨m₁, m₂, h₁, h₂, rfl⟩ := startinterval_ok hm
      exact .quiet (by simp [hpc]) (hstart h₁ h₂) (by simp)
  | release hpc hwait hout hm =>
      obtain ⟨m₁, m₂, h₁, h₂, rfl⟩ := startinterval_ok hm
      obtain ⟨cs, -, rfl⟩ := sendwtnts_ok hout
      exact .quiet (by simp [hpc]) (hstart h₁ h₂) (hnotices fun _ => rfl)
  | arrive hpc hwait hm =>
      obtain ⟨cs, -, rfl, rfl⟩ := arrive_ok hm
      exact .quiet (by simp [hpc]) rfl (hnotices fun _ => rfl)
  | barrsync hpc => exact .quiet (by simp [hpc]) rfl (by simp [Msg.isGetp])
  | leave hpc hm =>
      obtain ⟨m₁, m₂, h₁, h₂, rfl⟩ := leaveBarrier_ok hm
      refine .quiet ?_ (hstart h₁ h₂) (by simp)
      rcases hpc with ⟨hpc, -⟩ | ⟨hpc, -⟩ <;> simp [hpc]
  | wait hpc => exact .quiet (by simp [hpc]) rfl (by simp [Msg.isGetp])
  | waited hpc => exact .quiet (by simp [hpc]) rfl (by simp)
  | stay hpc => exact .quiet (by simp [hpc]) rfl (by simp)

section Steps

variable {s : State}

theorem fetching_init (h : Nat) : Fetching cfg (initState cfg) h :=
  .idle rfl (fun _ => rfl) fun _ => rfl

/-- The request of `h` depends on its flag, its program counter while the flag is
up, and its channels. -/
theorem Fetching.congr {s' : State} {h : Nat} (hf : Fetching cfg s h)
    (hwait : (s'.host h).m.getpwait = (s.host h).m.getpwait)
    (hpc : (s.host h).m.getpwait = true → (s'.host h).pc = (s.host h).pc)
    (hask : ∀ b, (s'.net h b).filter Msg.isGetp = (s.net h b).filter Msg.isGetp)
    (hans : ∀ a, (s'.net a h).filter Msg.isGetpgrant = (s.net a h).filter Msg.isGetpgrant) :
    Fetching cfg s' h := by
  cases hf with
  | idle hw ha hg =>
      exact .idle (hwait.trans hw) (fun b => (hask b).trans (ha b)) fun a => (hans a).trans (hg a)
  | asked w b temp hp hw hone ha hg =>
      exact .asked w b temp ((hpc hw).trans hp) (hwait.trans hw) ((hask b).trans hone)
        (fun b' hb => (hask b').trans (ha b' hb)) fun a => (hans a).trans (hg a)
  | answered w a wv data xs hp hw ha hone hg =>
      exact .answered w a wv data xs ((hpc hw).trans hp) (hwait.trans hw)
        (fun b => (hask b).trans (ha b)) ((hans a).trans hone)
        fun a' hne => (hans a').trans (hg a' hne)

theorem fetching_main {i : Nat} {a : Act} {hst : Host} {out : Out}
    (hall : ∀ h, Fetching cfg s h) (ht : (s.host i).m.Tables cfg i) (hok : StackOk (s.host i))
    (hm : Main cfg i (s.host i) a hst out) (h : Nat) : Fetching cfg (s.put i hst out) h := by
  have hans : ∀ a b, ((s.put i hst out).net a b).filter Msg.isGetpgrant =
      (s.net a b).filter Msg.isGetpgrant := by
    intro a b
    apply filter_send_quiet
    intro y hy
    have hreq := (main_routed hok hm hy).1
    cases hmsg : y.2 <;> first | rfl | (rw [hmsg] at hreq; cases hreq)
  cases main_fetch ht hm with
  | quiet hpc hwait hout =>
      have hask : ∀ b, ((s.put i hst out).net h b).filter Msg.isGetp =
          (s.net h b).filter Msg.isGetp := fun b => filter_send_quiet hout
      by_cases hi : h = i
      · subst hi
        refine (hall h).congr ?_ ?_ hask (hans · h)
        · rw [State.put_host_same, hwait]
        · -- a main thread that waits for a page does not act
          intro hup
          cases hall h with
          | idle hw => rw [hw] at hup; cases hup
          | asked w b temp hp hw =>
              rw [hpc w hp] at hup
              cases hup
          | answered w a wv data xs hp hw =>
              rw [hpc w hp] at hup
              cases hup
      · refine (hall h).congr ?_ ?_ hask (hans · h)
        · rw [State.put_host_of_ne _ _ _ hi]
        · intro _
          rw [State.put_host_of_ne _ _ _ hi]
  | ask w b temp hpc hpc' hwait hout =>
      subst hout
      have hask : ∀ h b', ((s.put i hst [(b, .getp (cfg.pageAddr w.page) temp)]).net h b').filter
          Msg.isGetp = if h = i ∧ b' = b then
            (s.net h b').filter Msg.isGetp ++ [.getp (cfg.pageAddr w.page) temp]
          else (s.net h b').filter Msg.isGetp := fun h b' => filter_send_one rfl
      by_cases hi : h = i
      · subst hi
        cases hall h with
        | idle hw ha hg =>
            refine .asked w b temp ?_ ?_ ?_ ?_ ?_
            · rw [State.put_host_same, hpc']
            · rw [State.put_host_same, hwait]
            · rw [hask, if_pos ⟨rfl, rfl⟩, ha b, List.nil_append]
            · intro b' hb
              rw [hask, if_neg fun hcon => hb hcon.2, ha b']
            · intro a
              rw [hans, hg a]
        | asked w' b' temp' hp hw => rw [hpc] at hp; cases hp
        | answered w' a' wv data xs hp hw => rw [hpc] at hp; cases hp
      · refine (hall h).congr ?_ ?_ ?_ (hans · h)
        · rw [State.put_host_of_ne _ _ _ hi]
        · intro _
          rw [State.put_host_of_ne _ _ _ hi]
        · intro b'
          rw [hask, if_neg fun hcon => hi hcon.1]

/-- A host answers a request. -/
theorem fetching_answer {src dst : Nat} {addr : Addr} {temp : Bool} {rest : List Msg} {hst : Host}
    {wv : BitVec Wvbits} {data : Page} {xs : List ExtraPage} (hall : ∀ h, Fetching cfg s h)
    (hnet : s.net src dst = .getp addr temp :: rest) (hsame : hst.pc = (s.host dst).pc)
    (hup : hst.m.getpwait = (s.host dst).m.getpwait) (h : Nat) :
    Fetching cfg ({ s with net := drop s.net src dst }.put dst hst
      [(src, .getpgrant addr wv data xs)]) h := by
  have hpc : ∀ h, (({ s with net := drop s.net src dst }.put dst hst
      [(src, .getpgrant addr wv data xs)]).host h).pc = (s.host h).pc := by
    intro h
    by_cases hd : h = dst
    · subst hd
      rw [State.put_host_same, hsame]
    · rw [State.put_host_of_ne _ _ _ hd]
  have hwait : ∀ h, (({ s with net := drop s.net src dst }.put dst hst
      [(src, .getpgrant addr wv data xs)]).host h).m.getpwait = (s.host h).m.getpwait := by
    intro h
    by_cases hd : h = dst
    · subst hd
      rw [State.put_host_same, hup]
    · rw [State.put_host_of_ne _ _ _ hd]
  have hnoask : ∀ y ∈ [(src, Msg.getpgrant addr wv data xs)], y.2.isGetp = false := by
    intro y hy
    rw [List.mem_singleton.mp hy]
    rfl
  have hans : ∀ a b, (({ s with net := drop s.net src dst }.put dst hst
      [(src, .getpgrant addr wv data xs)]).net a b).filter Msg.isGetpgrant =
      if a = dst ∧ b = src then
        (s.net a b).filter Msg.isGetpgrant ++ [.getpgrant addr wv data xs]
      else (s.net a b).filter Msg.isGetpgrant := by
    intro a b
    have hsend : (send (drop s.net src dst) dst [(src, .getpgrant addr wv data xs)] a b).filter
        Msg.isGetpgrant = _ := filter_send_one rfl
    have hdrop : (drop s.net src dst a b).filter Msg.isGetpgrant =
        (s.net a b).filter Msg.isGetpgrant := filter_drop_quiet hnet rfl
    rw [hdrop] at hsend
    exact hsend
  have hask : ∀ a b, (({ s with net := drop s.net src dst }.put dst hst
      [(src, .getpgrant addr wv data xs)]).net a b).filter Msg.isGetp =
      (drop s.net src dst a b).filter Msg.isGetp := fun a b => filter_send_quiet hnoask
  by_cases hsrc : h = src
  · subst hsrc
    have htaken : (s.net h dst).filter Msg.isGetp =
        .getp addr temp :: (drop s.net h dst h dst).filter Msg.isGetp := filter_taken hnet rfl
    cases hall h with
    | idle hw ha hg => rw [ha dst] at htaken; cases htaken
    | asked w b temp' hpw hw hone ha hg =>
        have hb : b = dst := by
          by_contra hne
          rw [ha dst (Ne.symm hne)] at htaken
          cases htaken
        subst hb
        rw [hone, List.cons.injEq] at htaken
        obtain ⟨heq, hnil⟩ := htaken
        obtain ⟨haddr, -⟩ := Msg.getp.inj heq
        refine .answered w b wv data xs ((hpc h).trans hpw) ((hwait h).trans hw) ?_ ?_ ?_
        · intro b'
          rw [hask]
          by_cases hb' : b' = b
          · subst hb'
            exact hnil.symm
          · rw [drop_of_ne _ fun hcon => hb' hcon.2, ha b' hb']
        · rw [hans, if_pos ⟨rfl, rfl⟩, hg b, List.nil_append, haddr]
        · intro a' ha'
          rw [hans, if_neg fun hcon => ha' hcon.1, hg a']
    | answered w a wv' data' xs' hpw hw ha => rw [ha dst] at htaken; cases htaken
  · refine (hall h).congr (hwait h) (fun _ => hpc h) ?_ ?_
    · intro b
      rw [hask, drop_of_ne _ fun hcon => hsrc hcon.1]
    · intro a
      rw [hans, if_neg fun hcon => hsrc hcon.2]

theorem fetching_served {src dst : Nat} {rnd : List Nat} {msg : Msg} {rest : List Msg}
    {hst : Host} {out : Out} (hall : ∀ h, Fetching cfg s h) (hnet : s.net src dst = msg :: rest)
    (ht : (s.host dst).m.Tables cfg dst) (hp : msg.Pages cfg) (hin : Routed cfg src dst msg)
    (hs : Served cfg dst (s.host dst) src rnd msg hst out) (h : Nat) :
    Fetching cfg ({ s with net := drop s.net src dst }.put dst hst out) h := by
  have hpc : ∀ h, (({ s with net := drop s.net src dst }.put dst hst out).host h).pc =
      (s.host h).pc := by
    intro h
    by_cases hd : h = dst
    · subst hd
      rw [State.put_host_same, (served_stack hs).1]
    · rw [State.put_host_of_ne _ _ _ hd]
  have hwait : (h = dst → hst.m.getpwait = (s.host dst).m.getpwait) →
      (({ s with net := drop s.net src dst }.put dst hst out).host h).m.getpwait =
        (s.host h).m.getpwait := by
    intro hsame
    by_cases hd : h = dst
    · subst hd
      rw [State.put_host_same, hsame rfl]
    · rw [State.put_host_of_ne _ _ _ hd]
  have hnoask : ∀ y ∈ out, y.2.isGetp = false := by
    intro y hy
    have hreq := (served_routed hin hs hy).1
    cases hmsg : y.2 <;> first | rfl | (rw [hmsg] at hreq; cases hreq)
  -- a message that has nothing to do with page requests
  have hquiet : msg.isGetp = false → msg.isGetpgrant = false →
      (∀ y ∈ out, y.2.isGetpgrant = false) → hst.m.getpwait = (s.host dst).m.getpwait →
      Fetching cfg ({ s with net := drop s.net src dst }.put dst hst out) h := by
    intro hgetp hgrant hout hsame
    refine (hall h).congr (hwait fun _ => hsame) (fun _ => hpc h) ?_ ?_
    · intro b
      exact (filter_send_quiet hnoask).trans (filter_drop_quiet hnet hgetp)
    · intro a
      exact (filter_send_quiet hout).trans (filter_drop_quiet hnet hgrant)
  cases served_mem ht hp hin hs with
  | still hstill hout hmsg hgetp =>
      refine hquiet ?_ ?_ ?_ hstill.getpwait
      · cases msg <;> first | rfl | exact absurd rfl (hgetp _ _)
      · cases msg <;> first | rfl | exact absurd rfl (hmsg _ _ _ _)
      · intro y hy
        have hne := hout y hy
        cases hy' : y.2 <;> first | rfl | exact absurd hy' (hne _ _ _ _)
  | drop hre hsame hout hmsg hgetp =>
      refine hquiet ?_ ?_ (by simp [hout]) hsame
      · cases msg <;> first | rfl | exact absurd rfl (hgetp _ _)
      · cases msg <;> first | rfl | exact absurd rfl (hmsg _ _ _ _)
  | invld ns hmsg hout hns => exact hquiet (by rw [hmsg]; rfl) (by rw [hmsg]; rfl) (by simp [hout]) hns.getpwait
  | barrgrant scope ns hmsg hout hns =>
      exact hquiet (by rw [hmsg]; rfl) (by rw [hmsg]; rfl) (by simp [hout]) hns.getpwait
  | serve addr temp hmsg hserve =>
      subst hmsg
      obtain ⟨hflag, -, -, wv, data, xs, rfl, -⟩ := hserve
      exact fetching_answer hall hnet (served_stack hs).1 hflag.getpwait h
  | install addr wv data xs hmsg hout hre hdone =>
      subst hmsg
      subst hout
      have hask : ∀ a b, (({ s with net := drop s.net src dst }.put dst hst []).net a b).filter
          Msg.isGetp = (s.net a b).filter Msg.isGetp :=
        fun a b => (filter_send_quiet (by simp)).trans (filter_drop_quiet hnet rfl)
      have hans : ∀ a b, (({ s with net := drop s.net src dst }.put dst hst []).net a b).filter
          Msg.isGetpgrant = (drop s.net src dst a b).filter Msg.isGetpgrant :=
        fun a b => filter_send_quiet (by simp)
      by_cases hd : h = dst
      · subst hd
        have htaken : (s.net src h).filter Msg.isGetpgrant =
            .getpgrant addr wv data xs :: (drop s.net src h src h).filter Msg.isGetpgrant :=
          filter_taken hnet rfl
        cases hall h with
        | idle hw ha hg => rw [hg src] at htaken; cases htaken
        | asked w b temp hpw hw hone ha hg => rw [hg src] at htaken; cases htaken
        | answered w a wv' data' xs' hpw hw ha hone hg =>
            have hsrc : a = src := by
              by_contra hne
              rw [hg src (Ne.symm hne)] at htaken
              cases htaken
            subst hsrc
            rw [hone, List.cons.injEq] at htaken
            refine .idle ?_ (fun b => (hask h b).trans (ha b)) ?_
            · rw [State.put_host_same, hdone]
            · intro a'
              rw [hans]
              by_cases ha' : a' = a
              · subst ha'
                exact htaken.2.symm
              · rw [drop_of_ne _ fun hcon => ha' hcon.1, hg a' ha']
      · refine (hall h).congr (hwait fun hcon => absurd hcon hd) (fun _ => hpc h) (hask h) ?_
        intro a
        rw [hans, drop_of_ne _ fun hcon => hd hcon.2]

end Steps

theorem reach_fetching {s : State} (hs : (system cfg).Reach s) (h : Nat) : Fetching cfg s h := by
  revert h
  refine hs.invariant (I := fun s => ∀ h, Fetching cfg s h) fetching_init ?_
  intro s e s' hreach hall hnext
  have hpages := reach_pages hreach
  rcases step_view hnext with ⟨i, act, hst, out, -, hi, hm, -, rfl⟩ |
    ⟨src, dst, rnd, msg, rest, hst, out, -, hnet, hm, -, rfl⟩
  · exact fetching_main hall (hpages.host i).tables (reach_stackOk hreach i) hm
  · have hmem : msg ∈ s.net src dst := by
      rw [hnet]
      exact List.mem_cons_self
    exact fetching_served hall hnet (hpages.host dst).tables (hpages.net hmem)
      (reach_routed hreach hmem) hm

/-- A host outside the fault handler has no page on its way. -/
theorem Fetching.no_reply {s : State} {h : Nat} (hf : Fetching cfg s h)
    (hpc : ∀ w, (s.host h).pc ≠ .fault w) (a : Nat) : (s.net a h).filter Msg.isGetpgrant = [] := by
  cases hf with
  | idle hw ha hg => exact hg a
  | asked w b temp hp => exact absurd hp (hpc w)
  | answered w a' wv data xs hp => exact absurd hp (hpc w)

/-- A reply that arrives is for the page the main thread waits for. -/
theorem Fetching.reply {s : State} {a h : Nat} (hf : Fetching cfg s h) {addr : Addr}
    {wv : BitVec Wvbits} {data : Page} {xs : List ExtraPage}
    (hm : Msg.getpgrant addr wv data xs ∈ s.net a h) :
    ∃ w, (s.host h).pc = .fault w ∧ (s.host h).m.getpwait = true ∧
      addr = cfg.pageAddr w.page := by
  have hmem : Msg.getpgrant addr wv data xs ∈ (s.net a h).filter Msg.isGetpgrant :=
    List.mem_filter.mpr ⟨hm, rfl⟩
  cases hf with
  | idle hw ha hg => rw [hg a] at hmem; cases hmem
  | asked w b temp hp hw hone ha hg => rw [hg a] at hmem; cases hmem
  | answered w a' wv' data' xs' hp hw ha hone hg =>
      refine ⟨w, hp, hw, ?_⟩
      by_cases haa : a = a'
      · subst haa
        rw [hone, List.mem_singleton] at hmem
        exact (Msg.getpgrant.inj hmem).1
      · rw [hg a haa] at hmem
        cases hmem

end Jiajia
