import Jiajia.Contents
import Jiajia.Locks
import Jiajia.Lib.Acks

/-!
# The diffs of an interval

`diffwait` counts the DIFF messages of a host on their way to the homes and the
DIFFGRANT messages on their way back.  A host that has left `endinterval` has none:
its homes have handled every diff it ever sent.
-/

namespace Jiajia

open Fifo Transition Host

variable {cfg : Config}

def Msg.isDiffgrant : Msg → Bool
  | .diffgrant => true
  | _ => false

theorem isDiffgrant_eq_false {msg : Msg} (h : msg.isAnswer = false) : msg.isDiffgrant = false := by
  cases msg <;> first | rfl | cases h

theorem isDiff_eq_false {msg : Msg} (h : msg.isRequest = false) : msg.isDiff = false := by
  cases msg <;> first | rfl | cases h

/-- Inside `endinterval`, past the point where the diffs go out. -/
def Pc.closing : Pc → Bool
  | .scan _ _ _ => true
  | .drain _ => true
  | _ => false

/-- What host `i` waits for from host `b` at `while (diffwait)`. -/
abbrev diffsPending (n : Net Msg) (i b : Nat) : Nat :=
  Acks.pending Msg.isDiff Msg.isDiffgrant n i b

/-- `diffwait` is exact, and 0 outside `endinterval`. -/
structure DiffAcks (cfg : Config) (s : State) (i : Nat) : Prop where
  count : (s.host i).m.diffwait = Acks.outstanding Msg.isDiff Msg.isDiffgrant cfg.hostc s.net i
  once : ∀ b, diffsPending s.net i b ≤ 1
  inside : ∀ b, cfg.hostc ≤ b → diffsPending s.net i b = 0
  calm : (s.host i).pc.closing = false → (s.host i).m.diffwait = 0

section Steps

variable {s : State}

theorem DiffAcks.idle {i : Nat} (h : DiffAcks cfg s i) (hwait : (s.host i).m.diffwait = 0) (b : Nat) :
    diffsPending s.net i b = 0 := by
  by_cases hb : b < cfg.hostc
  · have hsum := h.count
    rw [hwait] at hsum
    exact Acks.outstanding_eq_zero.mp hsum.symm b hb
  · exact h.inside b (by omega)

theorem diffAcks_init (i : Nat) : DiffAcks cfg (initState cfg) i where
  count := by simp [initState, initHost, initmem, Acks.outstanding, Acks.pending]
  once b := by simp [initState, Acks.pending]
  inside b _ := by simp [initState, Acks.pending]
  calm _ := rfl

/-- The diffs of host `i` depend on its counter, its place and what it waits for. -/
theorem DiffAcks.congr {s' : State} {i : Nat} (h : DiffAcks cfg s i)
    (hwait : (s'.host i).m.diffwait = (s.host i).m.diffwait)
    (hnet : ∀ b, diffsPending s'.net i b = diffsPending s.net i b)
    (hpc : (s'.host i).pc.closing = true ∨ (s.host i).pc.closing = false ∨
      (s.host i).m.diffwait = 0) : DiffAcks cfg s' i where
  count := by
    rw [hwait, h.count]
    exact (Acks.outstanding_congr hnet).symm
  once b := by
    rw [hnet]
    exact h.once b
  inside b hb := by
    rw [hnet]
    exact h.inside b hb
  calm hcalm := by
    rw [hwait]
    rcases hpc with hpc | hpc | hpc
    · rw [hcalm] at hpc
      cases hpc
    · exact h.calm hpc
    · exact hpc

/-- A step of the main thread goes on in `endinterval`, starts it with its diffs, or
happens with none of them on the way. -/
theorem main_closing {pid : Nat} {h h' : Host} {a : Act} {out : Out}
    (hm : Main cfg pid h a h' out) :
    ((∀ y ∈ out, y.2.isDiff = false) ∧
      (h'.pc.closing = true ∨ h.pc.closing = false ∨ h.m.diffwait = 0)) ∨
    ∃ op y dm, h.pc = .app ∧
      savepages cfg pid h.m h.y (fun _ => []) (List.range cfg.cachepages) = .ok (y, dm) ∧
      out = senddiffs cfg dm ∧
      h' = ⟨{ h.m with diffwait := h.m.diffwait + out.length }, y, .scan op 0 h.m.hpages⟩ := by
  cases hm with
  | load hpc => exact .inl ⟨by simp, by simp [hpc, Pc.closing]⟩
  | store hpc => exact .inl ⟨by simp, by simp [hpc, Pc.closing]⟩
  | homeFault hpc => exact .inl ⟨by simp, by simp [hpc, Pc.closing]⟩
  | cacheFault hpc hp hfault hhome hm =>
      refine .inl ⟨?_, by simp [hpc, Pc.closing]⟩
      rcases cacheFault_out hm with rfl | ⟨temp, rfl⟩
      · simp
      · simp [Msg.isDiff]
  | faultEnd hpc => exact .inl ⟨by simp, by simp [hpc, Pc.closing]⟩
  | single hpc => exact .inl ⟨by simp, by simp [hpc, Pc.closing]⟩
  | start hpc hhost ha hop hm =>
      obtain ⟨y, dm, hsave, hout, hh⟩ := endinterval_ok hm
      exact .inr ⟨_, y, dm, hpc, hsave, hout, hh⟩
  | scan => exact .inl ⟨by simp, Or.inl rfl⟩
  | scanEnd => exact .inl ⟨by simp, Or.inl rfl⟩
  | acquire hpc hwait => exact .inl ⟨by simp [Msg.isDiff], Or.inr (Or.inr hwait)⟩
  | acquired hpc => exact .inl ⟨by simp, by simp [hpc, Pc.closing]⟩
  | release hpc hwait hout =>
      obtain ⟨cs, -, rfl⟩ := sendwtnts_ok hout
      exact .inl ⟨isDiff_wtntMsgs fun _ => rfl, Or.inr (Or.inr hwait)⟩
  | arrive hpc hwait hm =>
      obtain ⟨cs, -, rfl, -⟩ := arrive_ok hm
      exact .inl ⟨isDiff_wtntMsgs fun _ => rfl, Or.inr (Or.inr hwait)⟩
  | barrsync hpc => exact .inl ⟨by simp [Msg.isDiff], by simp [hpc, Pc.closing]⟩
  | leave hpc =>
      refine .inl ⟨by simp, ?_⟩
      rcases hpc with ⟨hpc, -⟩ | ⟨hpc, -⟩ <;> simp [hpc, Pc.closing]
  | wait hpc => exact .inl ⟨by simp [Msg.isDiff], by simp [hpc, Pc.closing]⟩
  | waited hpc => exact .inl ⟨by simp, by simp [hpc, Pc.closing]⟩
  | stay hpc => exact .inl ⟨by simp, by simp [hpc, Pc.closing]⟩

/-- `senddiffs` sends a host its message, if it has one. -/
theorem outboxTo_senddiffs (dm : Nat → List PageDiff) (b : Nat) :
    outboxTo (senddiffs cfg dm) b =
      if b < cfg.hostc ∧ dm b ≠ [] then [.diff (dm b)] else [] := by
  rw [senddiffs, outboxTo_map_nodup (fun k => Msg.diff (dm k)) (List.nodup_range.filter _)]
  simp only [List.mem_filter, List.mem_range, Bool.not_eq_eq_eq_not, Bool.not_true,
    List.isEmpty_eq_false_iff]

theorem diffAcks_main {i : Nat} {a : Act} {hst : Host} {out : Out}
    (hall : ∀ i, DiffAcks cfg s i) (hok : StackOk (s.host i))
    (hm : Main cfg i (s.host i) a hst out) (j : Nat) : DiffAcks cfg (s.put i hst out) j := by
  have hans : ∀ y ∈ out, y.2.isDiffgrant = false := by
    intro y hy
    have hreq := (main_routed hok hm hy).1
    cases hmsg : y.2 <;> first | rfl | (rw [hmsg] at hreq; cases hreq)
  have hwait := (main_contents hm).2
  rcases main_closing hm with ⟨hout, hpc⟩ | ⟨op, y, dm, hpcapp, -, rfl, hhst⟩
  · rw [countP_isDiff_eq_zero hout, Nat.add_zero] at hwait
    have hnet : ∀ b, diffsPending (s.put i hst out).net j b = diffsPending s.net j b :=
      fun b => Acks.pending_send_quiet hout hans
    by_cases hj : j = i
    · subst hj
      refine (hall j).congr ?_ hnet ?_
      · rw [State.put_host_same, hwait]
      · rw [State.put_host_same]
        exact hpc
    · refine (hall j).congr ?_ hnet ?_
      · rw [State.put_host_of_ne _ _ _ hj]
      · rw [State.put_host_of_ne _ _ _ hj]
        cases (s.host j).pc.closing <;> simp
  · -- the diffs of host `i` go out while none of it is on the way
    have hpc : (s.host i).pc.closing = false := by
      rw [hpcapp]
      rfl
    have hpc' : hst.pc.closing = true := by
      rw [hhst]
      rfl
    have hdst : ∀ y ∈ senddiffs cfg dm, y.1 < cfg.hostc := by
      intro y hy
      obtain ⟨k, hk, -, rfl⟩ := mem_senddiffs.mp hy
      exact hk
    have hpending : ∀ b, diffsPending (s.put i hst (senddiffs cfg dm)).net j b =
        diffsPending s.net j b + if j = i then
          (if b < cfg.hostc ∧ dm b ≠ [] then 1 else 0) else 0 := by
      intro b
      rw [State.put_net, diffsPending, Acks.pending_send, Acks.countP_outboxTo_quiet hans, ite_self,
        Nat.add_zero, outboxTo_senddiffs]
      by_cases hb : b < cfg.hostc ∧ dm b ≠ []
      · simp [hb, Msg.isDiff]
      · simp [hb]
    by_cases hj : j = i
    · subst hj
      have hzero := (hall j).idle ((hall j).calm hpc)
      constructor
      · rw [State.put_host_same, hwait, (hall j).count, State.put_net,
          Acks.outstanding_ask hdst hans, if_pos rfl]
      · intro b
        rw [hpending, hzero, if_pos rfl]
        split <;> omega
      · intro b hb
        rw [hpending, hzero, if_pos rfl, if_neg (by omega)]
      · intro hcalm
        rw [State.put_host_same, hpc'] at hcalm
        cases hcalm
    · refine (hall j).congr ?_ ?_ ?_
      · rw [State.put_host_of_ne _ _ _ hj]
      · intro b
        rw [hpending, if_neg hj, Nat.add_zero]
      · rw [State.put_host_of_ne _ _ _ hj]
        cases (s.host j).pc.closing <;> simp

theorem diffAcks_served {src dst : Nat} {rnd : List Nat} {msg : Msg} {rest : List Msg}
    {hst : Host} {out : Out} (hall : ∀ i, DiffAcks cfg s i) (hnet : s.net src dst = msg :: rest)
    (hin : Routed cfg src dst msg) (hs : Served cfg dst (s.host dst) src rnd msg hst out)
    (j : Nat) : DiffAcks cfg ({ s with net := drop s.net src dst }.put dst hst out) j := by
  have hpc : ∀ j, (({ s with net := drop s.net src dst }.put dst hst out).host j).pc =
      (s.host j).pc := by
    intro j
    by_cases hj : j = dst
    · subst hj
      rw [State.put_host_same, (served_stack hs).1]
    · rw [State.put_host_of_ne _ _ _ hj]
  have hdiff : ∀ y ∈ out, y.2.isDiff = false := fun y hy =>
    isDiff_eq_false (served_routed hin hs hy).1
  have hsame : hst.m.diffwait = (s.host dst).m.diffwait →
      (∀ b, diffsPending ({ s with net := drop s.net src dst }.put dst hst out).net j b =
        diffsPending s.net j b) →
      DiffAcks cfg ({ s with net := drop s.net src dst }.put dst hst out) j := by
    intro hwait hpending
    refine (hall j).congr ?_ hpending ?_
    · by_cases hj : j = dst
      · subst hj
        rw [State.put_host_same, hwait]
      · rw [State.put_host_of_ne _ _ _ hj]
    · rw [hpc]
      cases (s.host j).pc.closing <;> simp
  have hc := served_contents hin hs
  generalize hm' : hst.m = m' at hc
  cases hc with
  | inert hi hmsg hans hgetp hout =>
      refine hsame (hm' ▸ hi.diffwait) fun b => ?_
      exact (Acks.pending_send_quiet hdiff fun y hy => isDiffgrant_eq_false (hout y hy)).trans
        (Acks.pending_drop_quiet hnet hmsg (isDiffgrant_eq_false hans))
  | diff hm hwait =>
      exact hsame (hm' ▸ hwait) fun b => Acks.pending_answer hnet rfl rfl rfl rfl
  | getp hm hi =>
      refine hsame (hm' ▸ hi.diffwait) fun b => ?_
      obtain ⟨wv, data, extra, rfl⟩ := getpserver_out hm
      exact (Acks.pending_send_quiet (by simp [Msg.isDiff]) (by simp [Msg.isDiffgrant])).trans
        (Acks.pending_drop_quiet hnet rfl rfl)
  | getpgrant hm hwait =>
      refine hsame (hm' ▸ hwait) fun b => ?_
      exact (Acks.pending_send_quiet (by simp) (by simp)).trans
        (Acks.pending_drop_quiet hnet rfl rfl)
  | diffgrant =>
      -- one answer less on the way, and one less counted
      have hpending : ∀ b, diffsPending s.net j b =
          diffsPending (drop s.net src dst) j b + if j = dst ∧ b = src then 1 else 0 :=
        fun b => Acks.pending_hear hnet rfl rfl
      by_cases hj : j = dst
      · subst hj
        have hsrc : src < cfg.hostc := by
          by_contra hle
          have hzero := (hall j).inside src (by omega)
          rw [hpending, if_pos ⟨rfl, rfl⟩] at hzero
          omega
        have hcount : (s.host j).m.diffwait = Acks.outstanding Msg.isDiff Msg.isDiffgrant
            cfg.hostc (drop s.net src j) j + 1 := by
          rw [(hall j).count, Acks.outstanding_hear hnet rfl rfl hsrc, if_pos rfl]
        constructor
        · rw [State.put_host_same, hm', State.put_net, send_nil]
          simp only [MemState.diffgrantserver]
          omega
        · intro b
          have hle := (hall j).once b
          rw [hpending] at hle
          rw [State.put_net, send_nil]
          exact (Nat.le_add_right _ _).trans hle
        · intro b hb
          have hzero := (hall j).inside b hb
          rw [hpending] at hzero
          rw [State.put_net, send_nil]
          exact (Nat.add_eq_zero_iff.mp hzero).1
        · intro hcalm
          rw [hpc] at hcalm
          have hzero := (hall j).calm hcalm
          omega
      · refine (hall j).congr ?_ ?_ ?_
        · rw [State.put_host_of_ne _ _ _ hj]
        · intro b
          rw [State.put_net, send_nil, hpending, if_neg fun hcon => hj hcon.1, Nat.add_zero]
        · rw [hpc]
          cases (s.host j).pc.closing <;> simp

end Steps

theorem reach_diffAcks {s : State} (hs : (system cfg).Reach s) (i : Nat) : DiffAcks cfg s i := by
  revert i
  refine hs.invariant (I := fun s => ∀ i, DiffAcks cfg s i) diffAcks_init ?_
  intro s e s' hreach hall hnext
  rcases step_view hnext with ⟨i, act, hst, out, -, hi, hm, -, rfl⟩ |
    ⟨src, dst, rnd, msg, rest, hst, out, -, hnet, hm, -, rfl⟩
  · exact diffAcks_main hall (reach_stackOk hreach i) hm
  · have hmem : msg ∈ s.net src dst := by
      rw [hnet]
      exact List.mem_cons_self
    exact diffAcks_served hall hnet (reach_routed hreach hmem) hm

/-! ## The history of the channels -/

/-- The messages of one kind put on each channel, and those handled. -/
structure WireLog where
  posted : Nat → Nat → List Msg
  taken : Nat → Nat → List Msg

/-- The host that acts in a step. -/
def Event.actor : Event → Nat
  | .main i _ => i
  | .deliver _ dst _ => dst

def wireHistory (cfg : Config) (f : Msg → Bool) : System.Observer State Event WireLog where
  start := ⟨fun _ _ => [], fun _ _ => []⟩
  obs log s e _ :=
    { posted := fun a b =>
        if a = e.actor then log.posted a b ++ (outboxTo (sent cfg s e) b).filter f
        else log.posted a b
      taken := fun a b =>
        if a = e.source ∧ b = e.actor then log.taken a b ++ (handled s e).toList.filter f
        else log.taken a b }

/-- What was put on a channel was handled or is on its way, in order. -/
theorem wire_fifo {f : Msg → Bool} {x : State × WireLog}
    (hx : ((system cfg).withHist (wireHistory cfg f)).Reach x) (a b : Nat) :
    x.2.posted a b = x.2.taken a b ++ (x.1.net a b).filter f := by
  revert a b
  refine hx.invariant
    (I := fun x => ∀ a b, x.2.posted a b = x.2.taken a b ++ (x.1.net a b).filter f)
    (fun _ _ => rfl) ?_
  rintro ⟨s, log⟩ e ⟨s', log'⟩ - hok ⟨hnext, hlog⟩ a b
  dsimp only at hnext hlog hok ⊢
  subst hlog
  have hsend : ∀ (n : Net Msg) (i : Nat) (out : Out), (send n i out a b).filter f =
      (n a b).filter f ++ if a = i then (outboxTo out b).filter f else [] := by
    intro n i out
    by_cases ha : a = i
    · subst ha
      rw [send_same, List.filter_append, if_pos rfl]
    · rw [send_of_ne _ _ _ ha, if_neg ha, List.append_nil]
  rcases step_view hnext with ⟨i, act, hst, out, rfl, hi, hm, hsent, rfl⟩ |
    ⟨src, dst, rnd, msg, rest, hst, out, rfl, hnet, hm, hsent, rfl⟩
  · simp only [wireHistory, Event.actor, Event.source, handled, Option.toList_none,
      List.filter_nil, List.append_nil, ite_self, hsent, State.put_net, hsend]
    by_cases ha : a = i
    · rw [if_pos ha, if_pos ha, hok, List.append_assoc]
    · rw [if_neg ha, if_neg ha, List.append_nil, hok]
  · have hhandled : handled s (.deliver src dst rnd) = some msg := by
      simp [handled, hnet]
    simp only [wireHistory, Event.actor, Event.source, hhandled, Option.toList_some, hsent,
      State.put_net, hsend]
    -- the message that was on its way first is handled now
    have hdrop : log.taken a b ++ (s.net a b).filter f =
        (if a = src ∧ b = dst then log.taken a b ++ [msg].filter f else log.taken a b) ++
          (drop s.net src dst a b).filter f := by
      by_cases hab : a = src ∧ b = dst
      · obtain ⟨rfl, rfl⟩ := hab
        rw [if_pos ⟨rfl, rfl⟩, drop_same hnet, hnet, List.append_assoc, ← List.filter_append,
          List.singleton_append]
      · rw [if_neg hab, drop_of_ne _ hab]
    by_cases ha : a = dst
    · rw [if_pos ha, if_pos ha, hok, hdrop, List.append_assoc]
    · rw [if_neg ha, if_neg ha, List.append_nil, hok, hdrop]

/-- A message of the main thread other than a DIFF finds none of its diffs on the way. -/
theorem main_sends_idle {pid : Nat} {h h' : Host} {a : Act} {out : Out}
    (hm : Main cfg pid h a h' out) (hout : ∃ y ∈ out, y.2.isDiff = false) :
    h.pc.closing = false ∨ h.m.diffwait = 0 := by
  obtain ⟨y, hy, hno⟩ := hout
  rcases main_closing hm with ⟨-, -⟩ | ⟨op, y, dm, hpc, -⟩
  · cases hm with
    | acquire hpc hwait => exact Or.inr hwait
    | release hpc hwait => exact Or.inr hwait
    | arrive hpc hwait => exact Or.inr hwait
    | cacheFault hpc => exact Or.inl (by rw [hpc]; rfl)
    | start hpc => exact Or.inl (by rw [hpc]; rfl)
    | barrsync hpc => exact Or.inl (by rw [hpc]; rfl)
    | wait hpc => exact Or.inl (by rw [hpc]; rfl)
    | _ => cases hy
  · exact Or.inl (by rw [hpc]; rfl)

/-- The homes have handled every diff of a host when it is not in `endinterval`, and
when its main thread sends anything but a diff; `diffwait` counts the diffs on their
way and the answers to them. -/
theorem interval_diffs_handled {x : State × WireLog}
    (hx : ((system cfg).withHist (wireHistory cfg Msg.isDiff)).Reach x) (i : Nat) :
    (x.1.host i).m.diffwait = ∑ b ∈ Finset.range cfg.hostc,
      ((x.1.net i b).countP Msg.isDiff + (x.1.net b i).countP Msg.isDiffgrant) ∧
    ((x.1.host i).pc.closing = false → ∀ b, x.2.taken i b = x.2.posted i b) ∧
    ∀ a x', ((system cfg).withHist (wireHistory cfg Msg.isDiff)).next x (.main i a) x' →
      (∃ y ∈ sent cfg x.1 (.main i a), y.2.isDiff = false) →
      ∀ b, x.2.taken i b = x.2.posted i b := by
  have hacks := reach_diffAcks hx.forget i
  have hidle : (x.1.host i).m.diffwait = 0 → ∀ b, x.2.taken i b = x.2.posted i b := by
    intro hwait b
    have hnone : (x.1.net i b).filter Msg.isDiff = [] := by
      rw [List.filter_eq_nil_iff]
      intro m hm
      simp [(Acks.pending_eq_zero.mp (hacks.idle hwait b)).1 m hm]
    rw [wire_fifo hx, hnone, List.append_nil]
  refine ⟨hacks.count, fun hpc => hidle (hacks.calm hpc), ?_⟩
  rintro a x' ⟨hnext, -⟩ hout
  rcases step_view hnext with ⟨i', act, hst, out, he, hi, hm, hsent, -⟩ |
    ⟨src, dst, rnd, msg, rest, hst, out, he, -⟩
  · cases he
    rw [hsent] at hout
    rcases main_sends_idle hm hout with hpc | hwait
    · exact hidle (hacks.calm hpc)
    · exact hidle hwait
  · cases he

/-- Host 1 writes the page of host 0 and asks for lock 0. -/
def writeThenLock : List Event :=
  [.main 1 (.fault 0 true 0), .deliver 1 0 [], .deliver 0 1 [], .main 1 .go,
    .main 1 (.fault 0 true 0), .main 1 .go, .main 1 (.store 0 Config.unit0 7),
    .main 1 (.lock 0), .main 1 .go, .deliver 1 0 [], .deliver 0 1 [], .main 1 .go]

theorem interval_diffs_handled_writeThenLock :
    ∃ x, ((system .onePage).withHist (wireHistory .onePage Msg.isDiff)).Reach x ∧
      (x.1.host 1).pc = .acqwait 0 ∧ (x.2.posted 1 0).length = 1 ∧
      x.2.taken 1 0 = x.2.posted 1 0 := by
  obtain ⟨x, hx, hcheck⟩ := exists_execHist .onePage (wireHistory .onePage Msg.isDiff) writeThenLock
    (fun x => decide ((x.1.host 1).pc = .acqwait 0 ∧ (x.2.posted 1 0).length = 1))
    (by decide +kernel)
  obtain ⟨hpc, hlen⟩ := of_decide_eq_true hcheck
  exact ⟨x, hx, hpc, hlen, (interval_diffs_handled hx 1).2.1 (by rw [hpc]; rfl) 0⟩

end Jiajia
