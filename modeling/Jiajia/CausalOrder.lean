import Jiajia.Delivery
import Jiajia.Lib.Causal

/-!
# Causal order over UDP

While no message is given up, the transport sends like the parties of `Causal`:
an ack means that the message has been accepted, and `client_thread` waits for it.
-/

namespace Jiajia.Udp

open Transition MaskRing Causal

variable {β : Type} {h r s : Nat} {es es' : List (Event β)} {e : Event β}

/-- No message exhausts its retries. -/
def NoGiveUp (es : List (Event β)) : Prop := ∀ h msg, .giveUp h msg ∉ es

theorem NoGiveUp.of_append (h : NoGiveUp (es ++ es')) : NoGiveUp es :=
  fun i msg hmem => h i msg (List.mem_append_left _ hmem)

/-! ## Acks without loss -/

/-- What was taken for another host has been accepted there, but for the message in hand. -/
def NoGap (es : List (Event β)) (st : State (Queue (Packet β)) β) : Prop :=
  ∀ s r, r ≠ s → (takenFor s r es).length ≤ (acceptedFrom r s es).length +
    (((st.host s).outqueue.cur.toList.map Packet.msg).filter fun m => m.topid = r).length

section NoLoss

variable [DecidableEq β] {size hostc : Nat} {st st' : State (Queue (Packet β)) β}

theorem NoGap.notAhead (hgap : NoGap es st) (hr : ∀ r s, Receiver r s es (st.host r))
    (hb : Bounded es) (hgen : ∀ p ∈ st.net, Genuine es p ∧ p.msg.topid ≠ p.msg.frompid)
    (hstep : step (fifoQueue size) hostc st e = .ok st') : NotAhead st e := by
  have hle : ∀ p ∈ st.net, p.seqno ≤ (st.host p.msg.topid).rcvSeq p.msg.frompid := by
    intro p hp
    obtain ⟨⟨n, hn, hseq⟩, hne⟩ := hgen p hp
    have hn' := (List.getElem?_eq_some_iff.mp hn).1
    have hlt := hb p.msg.frompid p.msg.topid
    have hacc := (hr p.msg.topid p.msg.frompid).accepted.length_le
    have hone : (((st.host p.msg.frompid).outqueue.cur.toList.map Packet.msg).filter
        fun m => m.topid = p.msg.topid).length ≤ 1 := by
      calc _ ≤ ((st.host p.msg.frompid).outqueue.cur.toList.map Packet.msg).length :=
            List.length_filter_le _ _
        _ ≤ 1 := by
            rw [List.length_map]
            exact Option.length_toList_le
    have hgap' := hgap p.msg.frompid p.msg.topid hne
    rw [hseq, (hr p.msg.topid p.msg.frompid).seq, BitVec.le_def, BitVec.toNat_ofNat,
      BitVec.toNat_ofNat, Nat.mod_eq_of_lt (by omega), Nat.mod_eq_of_lt (by omega)]
    omega
  cases e with
  | accept i p =>
      obtain ⟨hnet, rfl, -, -, -⟩ := step_accept hstep
      exact hle p hnet
  | discard i p =>
      obtain ⟨hnet, rfl, -, -⟩ := step_discard hstep
      exact hle p hnet
  | _ => trivial

theorem NoGap.step (hgap : NoGap es st)
    (hacked : ∀ h p, e = .acked h p.msg → (st.host h).outqueue.cur = some p →
      acceptedFrom p.msg.topid h es = takenFor h p.msg.topid es)
    (hfrom : ∀ h p, (st.host h).outqueue.cur = some p → p.msg.frompid = h)
    (hno : ∀ h msg, e ≠ .giveUp h msg)
    (hstep : Udp.step (fifoQueue size) hostc st e = .ok st') : NoGap (es ++ [e]) st' := by
  intro s r hne
  have hold := hgap s r hne
  have hacc : (acceptedFrom r s es).length ≤ (acceptedFrom r s (es ++ [e])).length := by
    rw [acceptedFrom_append, List.length_append]
    exact Nat.le_add_right _ _
  refine le_trans ?_ (Nat.add_le_add_right hacc _)
  have hsend := sendStep hstep s
  generalize st'.host s = x' at hsend
  cases hsend with
  | quiet hhanded htaken hout hseq hno =>
      rw [takenFor, takenBy_append, htaken, List.append_nil, hout]
      exact hold
  | hand msg seqno hfrom hno hx' =>
      subst hx'
      rw [takenFor_append]
      exact (congrArg List.length (List.append_nil _)).le.trans hold
  | take msg seqno rest hout hx' =>
      subst hx'
      rw [hout] at hold
      rw [takenFor_append, List.length_append]
      have hnew : (takenFor s r [.take s msg]).length = ([msg].filter fun m => m.topid = r).length := by
        simp [takenFor, takenBy]
      rw [hnew]
      exact Nat.add_le_add_right hold _
  | done p hcur hhanded htaken hout hseq hno' hevent =>
      rw [takenFor, takenBy_append, htaken, List.append_nil, hout]
      rw [hcur] at hold
      by_cases hto : p.msg.topid = r
      · rcases hevent with he | he | he
        · have heq := hacked s p he hcur
          rw [hto] at heq
          rw [heq]
          exact Nat.le_add_right _ _
        · exact absurd he (hno s p.msg)
        · rw [hto, hfrom s p hcur] at he
          exact absurd he hne
      · simp only [Option.toList_some, List.map_singleton, List.filter_singleton, hto, decide_false,
          cond_false, List.length_nil] at hold
        exact hold

/-- While no message is given up, no datagram is ahead. -/
theorem noLoss (htrace : (udp (fifoQueue size) hostc).Trace es st) (hb : Bounded es)
    (hno : NoGiveUp es) : ((udp (fifoQueue size) hostc).restrict NotAhead).Trace es st ∧
      NoGap es st := by
  refine htrace.invariant (I := fun es st => Bounded es → NoGiveUp es →
    ((udp (fifoQueue size) hostc).restrict NotAhead).Trace es st ∧ NoGap es st) ?_ ?_ hb hno
  · intro _ _
    exact ⟨.nil, fun s r _ => Nat.zero_le _⟩
  · intro es st e st' htrace ih hstep hb hno
    have hb' : Bounded es := hb.of_append
    obtain ⟨hres, hgap⟩ := ih hb' hno.of_append
    have hgen : ∀ p ∈ st.net, Genuine es p ∧ p.msg.topid ≠ p.msg.frompid :=
      fun p hp => ⟨genuine htrace p hp, net_remote htrace p hp⟩
    have hahead := hgap.notAhead (fun r s => receiver htrace hb' r s) hb' hgen hstep
    refine ⟨hres.snoc ⟨hahead, hstep⟩, hgap.step ?_ ?_ ?_ hstep⟩
    · rintro h p rfl hcur
      obtain ⟨q, hcur', heq, -, hack, -⟩ := step_acked hstep
      obtain rfl : p = q := Option.some.inj (hcur.symm.trans hcur')
      exact accepted_eq_of_trusted (sender htrace h) hcur hb'
        (receiver htrace hb' p.msg.topid h).accepted (trusted hres hb' _ hack)
    · intro h p hcur
      exact ((sender htrace h).genuine hcur).1
    · rintro h msg rfl
      exact hno h msg (List.mem_append_right _ (List.mem_singleton_self _))

end NoLoss

/-! ## The abstract view of a run -/

/-- Handing and handling. -/
def act : Event β → Option (Act (Message β))
  | .hand h msg _ => some (.handed h msg)
  | .handle h msg => some (.handled h msg)
  | _ => none

def acts (es : List (Event β)) : List (Act (Message β)) := es.filterMap act

theorem acts_append : acts (es ++ es') = acts es ++ acts es' := List.filterMap_append

theorem mem_acts_handed {i : Nat} {msg : Message β} :
    .handed i msg ∈ acts es ↔ msg ∈ handedBy i es := by
  induction es with
  | nil => exact iff_of_false List.not_mem_nil List.not_mem_nil
  | cons e es ih =>
      have hacts : acts ([e] ++ es) = acts [e] ++ acts es := acts_append
      have hhanded : handedBy i ([e] ++ es) = handedBy i [e] ++ handedBy i es := handedBy_append
      rw [List.singleton_append] at hacts hhanded
      rw [hacts, hhanded, List.mem_append, List.mem_append, ih]
      apply or_congr_left
      cases e with
      | hand j msg' seqno =>
          by_cases hj : j = i
          · subst hj
            simp [acts, act, handedBy]
          · simp [acts, act, handedBy, hj, Ne.symm hj]
      | handle j msg' => simp [acts, act, handedBy]
      | _ => exact iff_of_false List.not_mem_nil List.not_mem_nil

/-- The run so far as parties that wait for the arrival of their messages. -/
structure View (es : List (Event β)) (st : State (Queue (Packet β)) β)
    (v : Post (Message β)) : Prop where
  log : v.log = acts es
  taken : ∀ msg, msg ∈ v.taken ↔ ∃ h, msg ∈ takenBy h es
  pend : ∀ h, v.pend h = (st.host h).outqueue.all.map Packet.msg
  inbox : ∀ h, v.inbox h = (st.host h).inqueue.rest.map Packet.msg
  held : ∀ h, v.held h = (st.host h).listen.map Packet.msg
  accepted : ∀ r s, ∀ msg ∈ acceptedFrom r s es, v.At r msg

/-- The steps that matter, and those that do not. -/
def Advances (v v' : Post (Message β)) : Prop :=
  v' = v ∨ Causal.Step Message.frompid Message.topid v v'

section View

variable {st st' : State (Queue (Packet β)) β} {v v' : Post (Message β)} {i : Nat}
variable {x : Host (Queue (Packet β)) β}

/-- A step of host `i` that accepts nothing. -/
theorem View.update (hv : View es st v) (hadv : Advances v v') (hst : st'.host = upd st.host i x)
    (hlog : v'.log = v.log ++ acts [e])
    (htaken : ∀ msg, msg ∈ v'.taken ↔ msg ∈ v.taken ∨ ∃ h, msg ∈ takenBy h [e])
    (hpend : v'.pend = Function.update v.pend i (x.outqueue.all.map Packet.msg))
    (hinbox : v'.inbox = Function.update v.inbox i (x.inqueue.rest.map Packet.msg))
    (hheld : v'.held = Function.update v.held i (x.listen.map Packet.msg))
    (haccepted : ∀ r s, ∀ msg ∈ acceptedFrom r s [e], v'.At r msg) :
    Advances v v' ∧ View (es ++ [e]) st' v' := by
  refine ⟨hadv, ?_, ?_, ?_, ?_, ?_, ?_⟩
  · rw [hlog, hv.log, acts_append]
  · intro msg
    rw [htaken, hv.taken]
    simp only [takenBy_append, List.mem_append, exists_or]
  · intro h
    rw [hpend, hst]
    by_cases hi : h = i
    · subst hi
      rw [Function.update_self, upd_same]
    · rw [Function.update_of_ne hi, upd_of_ne _ _ hi]
      exact hv.pend h
  · intro h
    rw [hinbox, hst]
    by_cases hi : h = i
    · subst hi
      rw [Function.update_self, upd_same]
    · rw [Function.update_of_ne hi, upd_of_ne _ _ hi]
      exact hv.inbox h
  · intro h
    rw [hheld, hst]
    by_cases hi : h = i
    · subst hi
      rw [Function.update_self, upd_same]
    · rw [Function.update_of_ne hi, upd_of_ne _ _ hi]
      exact hv.held h
  · intro r s msg hmsg
    rw [acceptedFrom_append] at hmsg
    rcases List.mem_append.mp hmsg with hmsg | hmsg
    · have hat := hv.accepted r s msg hmsg
      rcases hadv with rfl | hstep
      · exact hat
      · exact hstep.at hat
    · exact haccepted r s msg hmsg

theorem taken_none (hv : v'.taken = v.taken) (htake : ∀ h, takenBy h [e] = [])
    (msg : Message β) : msg ∈ v'.taken ↔ msg ∈ v.taken ∨ ∃ h, msg ∈ takenBy h [e] := by
  simp only [hv, htake, List.not_mem_nil, exists_false, or_false]

/-- A step that changes nothing the view shows. -/
theorem View.quiet (hv : View es st v) (hst : st'.host = upd st.host i x)
    (hact : acts [e] = []) (htake : ∀ h, takenBy h [e] = [])
    (haccept : ∀ r s, acceptedFrom r s [e] = [])
    (hout : x.outqueue.all.map Packet.msg = (st.host i).outqueue.all.map Packet.msg)
    (hin : x.inqueue.rest = (st.host i).inqueue.rest) (hlisten : x.listen = (st.host i).listen) :
    ∃ v', Advances v v' ∧ View (es ++ [e]) st' v' := by
  refine ⟨v, hv.update (.inl rfl) hst ?_ ?_ ?_ ?_ ?_ ?_⟩
  · rw [hact, List.append_nil]
  · exact taken_none rfl htake
  · rw [hout, ← hv.pend, Function.update_eq_self]
  · rw [hin, ← hv.inbox, Function.update_eq_self]
  · rw [hlisten, ← hv.held, Function.update_eq_self]
  · intro r s msg hmsg
    rw [haccept] at hmsg
    cases hmsg

/-- A message that is handed over is a new one. -/
theorem Sender.fresh {h : Nat} {y : Host (Queue (Packet β)) β} {msg : Message β}
    (hsnd : Sender h es y) (hno : msg.no = y.handed) : msg ∉ handedBy h es := by
  intro hmem
  have hmem' := List.mem_map_of_mem (f := Message.no) hmem
  rw [hsnd.no, List.mem_range, hno] at hmem'
  exact Nat.lt_irrefl _ hmem'

/-- The message in hand stands in front and has been taken. -/
theorem View.front (hv : View es st v) (hsnd : ∀ h, Sender h es (st.host h)) {h : Nat}
    {p : Packet β} (hcur : (st.host h).outqueue.cur = some p) :
    v.pend h = p.msg :: (st.host h).outqueue.rest.map Packet.msg ∧ p.msg ∈ v.taken := by
  refine ⟨?_, (hv.taken _).mpr ⟨h, List.mem_of_mem_filter ((hsnd h).mem_takenFor hcur)⟩⟩
  rw [hv.pend, Queue.all, hcur]
  rfl

section Step

variable [DecidableEq β] {size hostc : Nat} {msg : Message β} {p : Packet β}

/-- A message handed over is new. -/
theorem View.hand (hv : View es st v) (hsnd : ∀ h, Sender h es (st.host h)) {seqno : BitVec 32}
    (hstep : Udp.step (fifoQueue size) hostc st (.hand i msg seqno) = .ok st') :
    ∃ v', Advances v v' ∧ View (es ++ [(.hand i msg seqno)]) st' v' := by
  obtain ⟨hfrom, hmsgno, rfl⟩ := step_hand hstep
  have hfresh : ∀ j, .handed j msg ∉ v.log := by
    intro j hmem
    rw [hv.log, mem_acts_handed] at hmem
    have hj := (hsnd j).frompid msg hmem
    rw [hfrom] at hj
    subst hj
    exact (hsnd i).fresh hmsgno hmem
  refine ⟨_, hv.update (.inr (.hand i msg hfrom hfresh)) rfl rfl ?_ ?_ ?_ ?_ ?_⟩
  · exact taken_none rfl fun _ => rfl
  · dsimp only
    have hall : (put (st.host i).outqueue ⟨msg, seqno⟩).all =
        (st.host i).outqueue.all ++ [⟨msg, seqno⟩] := by
      rw [Queue.all, Queue.all, put, List.append_assoc]
    rw [hv.pend, hall, List.map_append]
    rfl
  · dsimp only
    rw [← hv.inbox, Function.update_eq_self]
  · dsimp only
    rw [← hv.held, Function.update_eq_self]
  · intro r s m hm
    cases hm

theorem View.take (hv : View es st v)
    (hstep : Udp.step (fifoQueue size) hostc st (.take i msg) = .ok st') :
    ∃ v', Advances v v' ∧ View (es ++ [(.take i msg)]) st' v' := by
  obtain ⟨seqno, rest, hout, rfl⟩ := step_take hstep
  have hpend : v.pend i = msg :: rest.map Packet.msg := by
    rw [hv.pend, hout]
    rfl
  refine ⟨_, hv.update (.inr (.take i msg _ hpend)) rfl (List.append_nil _).symm ?_ ?_ ?_ ?_ ?_⟩
  · intro m
    dsimp only
    rw [List.mem_cons]
    constructor
    · rintro (rfl | hm)
      · exact .inr ⟨i, by simp [takenBy]⟩
      · exact .inl hm
    · rintro (hm | ⟨h, hm⟩)
      · exact .inr hm
      · simp only [takenBy, List.filterMap_cons, List.filterMap_nil] at hm
        split at hm
        · cases hm
        · rename_i heq
          split at heq
          · rw [← Option.some.inj heq] at hm
            exact .inl (List.mem_singleton.mp hm)
          · cases heq
  · dsimp only
    rw [Queue.all_mk_some, List.map_cons, ← hpend, Function.update_eq_self]
  · dsimp only
    rw [← hv.inbox, Function.update_eq_self]
  · dsimp only
    rw [← hv.held, Function.update_eq_self]
  · intro r s m hm
    cases hm

theorem View.selfSend (hv : View es st v) (hsnd : ∀ h, Sender h es (st.host h))
    (hstep : Udp.step (fifoQueue size) hostc st (.selfSend i msg) = .ok st') :
    ∃ v', Advances v v' ∧ View (es ++ [(.selfSend i msg)]) st' v' := by
  obtain ⟨p, hcur, rfl, hself, rfl⟩ := step_selfSend hstep
  obtain ⟨hpend, htaken⟩ := hv.front hsnd hcur
  have hfrom := ((hsnd i).genuine hcur).1
  have hto := hself.trans hfrom
  refine ⟨_, hv.update (.inr (.selfSend i p.msg _ hpend htaken hto)) rfl
    (List.append_nil _).symm ?_ rfl ?_ ?_ ?_⟩
  · exact taken_none rfl fun _ => rfl
  · dsimp only [done, put]
    rw [hv.inbox, List.map_append]
    rfl
  · dsimp only [done]
    rw [← hv.held, Function.update_eq_self]
  · intro r s m hm
    cases hm

/-- A message leaves its sender when the receiver has accepted it. -/
theorem View.acked (hv : View es st v) (hsnd : ∀ h, Sender h es (st.host h))
    (hacked : ∀ p : Packet β, msg = p.msg → (st.host i).outqueue.cur = some p →
      acceptedFrom p.msg.topid i es = takenFor i p.msg.topid es)
    (hstep : Udp.step (fifoQueue size) hostc st (.acked i msg) = .ok st') :
    ∃ v', Advances v v' ∧ View (es ++ [(.acked i msg)]) st' v' := by
  obtain ⟨p, hcur, rfl, -, -, rfl⟩ := step_acked hstep
  obtain ⟨hpend, htaken⟩ := hv.front hsnd hcur
  have hat : v.At p.msg.topid p.msg := by
    apply hv.accepted p.msg.topid i
    rw [hacked p rfl hcur]
    exact (hsnd i).mem_takenFor hcur
  refine ⟨_, hv.update (.inr (.leave i p.msg _ hpend htaken hat)) rfl
    (List.append_nil _).symm ?_ rfl ?_ ?_ ?_⟩
  · exact taken_none rfl fun _ => rfl
  · dsimp only [done]
    rw [← hv.inbox, Function.update_eq_self]
  · dsimp only [done]
    rw [← hv.held, Function.update_eq_self]
  · intro r s m hm
    cases hm

/-- The listener holds the message it accepts. -/
theorem View.accept (hv : View es st v)
    (hgen : p ∈ st.net → Genuine es p ∧ p.msg.topid ≠ p.msg.frompid)
    (hstep : Udp.step (fifoQueue size) hostc st (.accept i p) = .ok st') :
    ∃ v', Advances v v' ∧ View (es ++ [(.accept i p)]) st' v' := by
  obtain ⟨hnet, hto, hnone, -, rfl⟩ := step_accept hstep
  obtain ⟨⟨n, hn, -⟩, hne⟩ := hgen hnet
  have htaken : p.msg ∈ v.taken :=
    (hv.taken _).mpr ⟨_, List.mem_of_mem_filter (List.mem_of_getElem? hn)⟩
  have hheld : v.held i = none := by
    rw [hv.held, hnone]
    rfl
  refine ⟨_, hv.update (.inr (.hold i p.msg htaken hto ?_ hheld)) rfl
    (List.append_nil _).symm ?_ ?_ ?_ rfl ?_⟩
  · rw [← hto]
    exact Ne.symm hne
  · exact taken_none rfl fun _ => rfl
  · dsimp only
    rw [← hv.pend, Function.update_eq_self]
  · dsimp only
    rw [← hv.inbox, Function.update_eq_self]
  · intro r s m hm
    simp only [acceptedFrom, List.filterMap_cons, List.filterMap_nil] at hm
    split at hm
    · cases hm
    · rename_i heq
      split at heq
      · rename_i hi
        rw [← Option.some.inj heq] at hm
        rw [List.mem_singleton.mp hm, ← hi.1]
        refine .inr (.inr ?_)
        dsimp only
        rw [Function.update_self]
      · cases heq

theorem View.enqueue (hv : View es st v)
    (hstep : Udp.step (fifoQueue size) hostc st (.enqueue i p) = .ok st') :
    ∃ v', Advances v v' ∧ View (es ++ [(.enqueue i p)]) st' v' := by
  obtain ⟨hlisten, rfl⟩ := step_enqueue hstep
  have hheld : v.held i = some p.msg := by
    rw [hv.held, hlisten]
    rfl
  refine ⟨_, hv.update (.inr (.land i p.msg hheld)) rfl (List.append_nil _).symm ?_ ?_ ?_ rfl ?_⟩
  · exact taken_none rfl fun _ => rfl
  · dsimp only
    rw [← hv.pend, Function.update_eq_self]
  · dsimp only [put]
    rw [hv.inbox, List.map_append]
    rfl
  · intro r s m hm
    cases hm

theorem View.handle (hv : View es st v)
    (hstep : Udp.step (fifoQueue size) hostc st (.handle i msg) = .ok st') :
    ∃ v', Advances v v' ∧ View (es ++ [(.handle i msg)]) st' v' := by
  obtain ⟨seqno, rest, hin, rfl⟩ := step_handle hstep
  have hinbox : v.inbox i = msg :: rest.map Packet.msg := by
    rw [hv.inbox, hin]
    rfl
  refine ⟨_, hv.update (.inr (.handle i msg _ hinbox)) rfl rfl ?_ ?_ rfl ?_ ?_⟩
  · exact taken_none rfl fun _ => rfl
  · dsimp only
    rw [← hv.pend, Function.update_eq_self]
  · dsimp only
    rw [← hv.held, Function.update_eq_self]
  · intro r s m hm
    cases hm

end Step

theorem View.step [DecidableEq β] {size hostc : Nat} (hv : View es st v)
    (hsnd : ∀ h, Sender h es (st.host h))
    (hgen : ∀ p ∈ st.net, Genuine es p ∧ p.msg.topid ≠ p.msg.frompid)
    (hacked : ∀ h p, e = .acked h p.msg → (st.host h).outqueue.cur = some p →
      acceptedFrom p.msg.topid h es = takenFor h p.msg.topid es)
    (hno : ∀ h msg, e ≠ .giveUp h msg)
    (hstep : Udp.step (fifoQueue size) hostc st e = .ok st') :
    ∃ v', Advances v v' ∧ View (es ++ [e]) st' v' := by
  cases e with
  | hand i msg seqno => exact hv.hand hsnd hstep
  | take i msg => exact hv.take hstep
  | sendto i =>
      obtain ⟨p, -, -, -, rfl⟩ := step_sendto hstep
      exact hv.quiet rfl rfl (fun _ => rfl) (fun _ _ => rfl) rfl rfl rfl
  | selfSend i msg => exact hv.selfSend hsnd hstep
  | acked i msg =>
      refine hv.acked hsnd ?_ hstep
      rintro p rfl hcur
      exact hacked i p rfl hcur
  | resend i =>
      obtain rfl := step_resend hstep
      exact hv.quiet rfl rfl (fun _ => rfl) (fun _ _ => rfl) rfl rfl rfl
  | giveUp i msg => exact absurd rfl (hno i msg)
  | accept i p => exact hv.accept (hgen p) hstep
  | discard i p =>
      obtain ⟨-, -, -, rfl⟩ := step_discard hstep
      exact hv.quiet (i := i) (upd_eq_self _ _).symm rfl (fun _ => rfl) (fun _ _ => rfl) rfl rfl rfl
  | enqueue i p => exact hv.enqueue hstep
  | handle i msg => exact hv.handle hstep
  | finish i =>
      obtain rfl := step_finish hstep
      exact hv.quiet rfl rfl (fun _ => rfl) (fun _ _ => rfl) rfl rfl rfl

end View

/-- The abstract parties keep up with a run without loss. -/
theorem exists_view [DecidableEq β] {size hostc : Nat} {st : State (Queue (Packet β)) β}
    (htrace : (udp (fifoQueue size) hostc).Trace es st) (hb : Bounded es) (hno : NoGiveUp es) :
    ∃ v, View es st v ∧ Ordered Message.frompid Message.topid v := by
  refine htrace.invariant (I := fun es st => Bounded es → NoGiveUp es →
    ∃ v, View es st v ∧ Ordered Message.frompid Message.topid v) ?_ ?_ hb hno
  · intro _ _
    refine ⟨Post.init, ⟨rfl, ?_, fun _ => rfl, fun _ => rfl, fun _ => rfl, nofun⟩, ordered_init⟩
    intro msg
    apply iff_of_false List.not_mem_nil
    rintro ⟨h, hmem⟩
    exact List.not_mem_nil hmem
  · intro es st e st' htrace ih hstep hb hno
    have hb' : Bounded es := hb.of_append
    obtain ⟨v, hv, hord⟩ := ih hb' hno.of_append
    obtain ⟨hres, -⟩ := noLoss htrace hb' hno.of_append
    have hview : ∃ v', Advances v v' ∧ View (es ++ [e]) st' v' := by
      apply hv.step (sender htrace) (fun p hp => ⟨genuine htrace p hp, net_remote htrace p hp⟩)
        ?_ ?_ hstep
      · rintro h p rfl hcur
        obtain ⟨q, hcur', -, -, hack, -⟩ := step_acked hstep
        obtain rfl : p = q := Option.some.inj (hcur.symm.trans hcur')
        exact accepted_eq_of_trusted (sender htrace h) hcur hb'
          (receiver htrace hb' p.msg.topid h).accepted (trusted hres hb' _ hack)
      · rintro h msg rfl
        exact hno h msg (List.mem_append_right _ (List.mem_singleton_self _))
    obtain ⟨v', hadv, hv'⟩ := hview
    refine ⟨v', hv', ?_⟩
    rcases hadv with rfl | hadv
    · exact hord
    · exact hadv.ordered hord

/-! ## Chains of messages -/

/-- Handling the first message leads, through any chain of messages, to the last. -/
inductive Leads (log : List (Act (Message β))) : Message β → Message β → Prop
  | handler {m m' : Message β} (i : Nat) (hto : m.topid = i)
      (h : [Act.handled i m, Act.handed i m'].Sublist log) : Leads log m m'
  | chain {m m' m'' : Message β} (h : Leads log m m') (h' : Leads log m' m'') : Leads log m m''

theorem Leads.before {log : List (Act (Message β))} {m m' : Message β} (h : Leads log m m') :
    Before log m m' := by
  induction h with
  | handler i _ h => exact .reply h
  | chain _ _ ih ih' => exact ih.trans ih'

/-- When `m₁` is handed over before `m₂`, and `m₂` leads to `m₃` for the host of
`m₁`, that host handles `m₁` before `m₃`. -/
def CausallyHandled (log : List (Act (Message β))) : Prop :=
  ∀ a m₁ m₂ m₃, [Act.handed a m₁, Act.handed a m₂].Sublist log → Leads log m₂ m₃ →
    m₁.topid = m₃.topid → Act.handled m₃.topid m₃ ∈ log →
    [Act.handled m₃.topid m₁, Act.handled m₃.topid m₃].Sublist log

theorem causal_delivery [DecidableEq β] (k : Nat) (blank : Packet β) (hostc : Nat)
    {es : List (Event β)} {st : State (Buffer (Packet β)) β}
    (htrace : (udp (msgQueue (2 ^ k) blank) hostc).Trace es st) (hb : Bounded es)
    (hno : NoGiveUp es) : CausallyHandled (acts es) := by
  obtain ⟨t, htrace', -⟩ := trace_fifo htrace
  obtain ⟨v, hv, hord⟩ := exists_view htrace' hb hno
  intro a m₁ m₂ m₃ horder hleads hto hhandled
  have hbefore : Before (acts es) m₁ m₃ := (Before.order horder).trans hleads.before
  rw [← hv.log] at hhandled hbefore ⊢
  exact hord.order m₃.topid m₃ hhandled m₁ hbefore hto

/-- Host 0 sends two messages to host 1, which then sends one to itself. -/
def chainOfThree : List (Event Nat) :=
  let m₁ : Message Nat := ⟨0, 1, 0, 7⟩
  let m₂ : Message Nat := ⟨0, 1, 1, 8⟩
  let m₃ : Message Nat := ⟨1, 1, 0, 9⟩
  [.hand 0 m₁ 0, .hand 0 m₂ 0, .take 0 m₁, .sendto 0, .accept 1 ⟨m₁, 0⟩, .acked 0 m₁,
    .take 0 m₂, .sendto 0, .resend 0, .enqueue 1 ⟨m₁, 0⟩, .accept 1 ⟨m₂, 1⟩, .sendto 0,
    .acked 0 m₂, .enqueue 1 ⟨m₂, 1⟩, .handle 1 m₁, .finish 1, .handle 1 m₂, .hand 1 m₃ 0,
    .finish 1, .take 1 m₃, .selfSend 1 m₃, .handle 1 m₃]

theorem causal_delivery_chainOfThree : CausallyHandled (acts chainOfThree) := by
  have hexec : (System.execBy (step (msgQueue (2 ^ 1) blank) 2) chainOfThree
      (udp (msgQueue (2 ^ 1) blank) 2).start).isOk = true := by
    decide +kernel
  obtain ⟨st, htrace⟩ := System.exists_trace (fun _ _ _ h => h) _ hexec
  have hno : NoGiveUp chainOfThree := by
    intro h msg hmem
    have hall : (chainOfThree.all fun e => match e with
        | .giveUp _ _ => false
        | _ => true) = true := by decide
    cases List.all_eq_true.mp hall _ hmem
  exact causal_delivery 1 blank 2 htrace (bounded_of_length (by decide)) hno

/-- The same with queues of three slots: with the mask 2 every index is 0, and the
second message overwrites the first in the outqueue. -/
def overwritten : List (Event Nat) :=
  let m₁ : Message Nat := ⟨0, 1, 0, 7⟩
  let m₂ : Message Nat := ⟨0, 1, 1, 8⟩
  let m₃ : Message Nat := ⟨1, 1, 0, 9⟩
  [.hand 0 m₁ 0, .hand 0 m₂ 0, .take 0 m₂, .sendto 0, .accept 1 ⟨m₂, 0⟩, .acked 0 m₂,
    .enqueue 1 ⟨m₂, 0⟩, .handle 1 m₂, .hand 1 m₃ 0, .finish 1, .take 1 m₃, .selfSend 1 m₃,
    .handle 1 m₃]

theorem overwritten_not_causal : ∃ st, (udp (msgQueue 3 blank) 2).Trace overwritten st ∧
    Bounded overwritten ∧ NoGiveUp overwritten ∧ ¬ CausallyHandled (acts overwritten) := by
  have hexec : (System.execBy (step (msgQueue 3 blank) 2) overwritten
      (udp (msgQueue 3 blank) 2).start).isOk = true := by
    decide +kernel
  obtain ⟨st, htrace⟩ := System.exists_trace (fun _ _ _ h => h) _ hexec
  refine ⟨st, htrace, bounded_of_length (by decide), ?_, ?_⟩
  · intro h msg hmem
    have hall : (overwritten.all fun e => match e with
        | .giveUp _ _ => false
        | _ => true) = true := by decide
    cases List.all_eq_true.mp hall _ hmem
  · intro hcausal
    have hleads : Leads (acts overwritten) ⟨0, 1, 1, 8⟩ ⟨1, 1, 0, 9⟩ :=
      .handler 1 rfl (by decide)
    have hsub := hcausal 0 ⟨0, 1, 0, 7⟩ ⟨0, 1, 1, 8⟩ ⟨1, 1, 0, 9⟩ (by decide) hleads rfl
      (by decide)
    have hmem := hsub.subset List.mem_cons_self
    revert hmem
    decide

end Jiajia.Udp
