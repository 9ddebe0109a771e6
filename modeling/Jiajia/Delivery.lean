import Jiajia.Udp
import Mathlib.Data.List.Nodup
import Mathlib.Data.List.Infix

/-!
# What the UDP transport delivers

The histories of a run, and what the sequence numbers say about them.
-/

namespace Jiajia.Udp

open Transition MaskRing

variable {β : Type}

/-! ## Histories -/

section Histories

variable (h r s : Nat) (es : List (Event β))

/-- The messages `h` handed to its outqueue, in order. -/
def handedBy : List (Message β) :=
  es.filterMap fun
    | .hand i msg _ => if i = h then some msg else none
    | _ => none

/-- The messages `client_thread` of `h` took from its outqueue, in order. -/
def takenBy : List (Message β) :=
  es.filterMap fun
    | .take i msg => if i = h then some msg else none
    | _ => none

/-- Those of them that are for `r`. -/
def takenFor : List (Message β) := (takenBy h es).filter fun msg => msg.topid = r

/-- The messages from `s` that `listen_thread` of `h` accepted, in order. -/
def acceptedFrom : List (Message β) :=
  es.filterMap fun
    | .accept i p => if i = h ∧ p.msg.frompid = s then some p.msg else none
    | _ => none

/-- The messages from `s` that `listen_thread` of `h` enqueued, in order. -/
def enqueuedFrom : List (Message β) :=
  es.filterMap fun
    | .enqueue i p => if i = h ∧ p.msg.frompid = s then some p.msg else none
    | _ => none

end Histories

/-- No pair of hosts has used all sequence numbers. -/
def Bounded (es : List (Event β)) : Prop := ∀ s r, (takenFor s r es).length < 2 ^ 32

variable {h r s : Nat} {es es' : List (Event β)} {e : Event β}

theorem takenBy_append : takenBy h (es ++ es') = takenBy h es ++ takenBy h es' :=
  List.filterMap_append

theorem handedBy_append : handedBy h (es ++ es') = handedBy h es ++ handedBy h es' :=
  List.filterMap_append

theorem takenFor_append : takenFor h r (es ++ es') = takenFor h r es ++ takenFor h r es' := by
  rw [takenFor, takenBy_append, List.filter_append]
  rfl

theorem acceptedFrom_append :
    acceptedFrom h s (es ++ es') = acceptedFrom h s es ++ acceptedFrom h s es' :=
  List.filterMap_append

theorem enqueuedFrom_append :
    enqueuedFrom h s (es ++ es') = enqueuedFrom h s es ++ enqueuedFrom h s es' :=
  List.filterMap_append

theorem Bounded.of_append (hb : Bounded (es ++ es')) : Bounded es := by
  intro s r
  have h := hb s r
  rw [takenFor_append, List.length_append] at h
  omega

/-! ## What a step does -/

section Steps

variable {size hostc : Nat} {st st' : State (Queue (Packet β)) β}
variable {i : Nat} {msg : Message β} {p : Packet β}

@[simp] theorem setHost_net (x : Host (Queue (Packet β)) β) : (st.setHost i x).net = st.net := rfl

@[simp] theorem setHost_acks (x : Host (Queue (Packet β)) β) :
    (st.setHost i x).acks = st.acks := rfl

@[simp] theorem setHost_host (x : Host (Queue (Packet β)) β) :
    (st.setHost i x).host = upd st.host i x := rfl

/-- The queue with one more message. -/
def put (q : Queue (Packet β)) (p : Packet β) : Queue (Packet β) := ⟨q.cur, q.rest ++ [p]⟩

variable [DecidableEq β]

theorem step_hand {seqno : BitVec 32}
    (h : step (fifoQueue size) hostc st (.hand i msg seqno) = .ok st') :
    msg.frompid = i ∧ msg.no = (st.host i).handed ∧
      st' = st.setHost i { st.host i with
        outqueue := put (st.host i).outqueue ⟨msg, seqno⟩
        handed := (st.host i).handed + 1 } := by
  simp only [step, bind_eq_ok, await_eq_ok, present_eq_ok, pure, Except.pure, Except.ok.injEq] at h
  obtain ⟨-, ⟨-, -, hfrom, hno⟩, q, hq, rfl⟩ := h
  obtain ⟨-, rfl⟩ := Queue.put_eq_some hq
  exact ⟨hfrom, hno, rfl⟩

theorem step_take (h : step (fifoQueue size) hostc st (.take i msg) = .ok st') :
    ∃ seqno rest, (st.host i).outqueue = ⟨none, ⟨msg, seqno⟩ :: rest⟩ ∧
      st' = st.setHost i { st.host i with
        outqueue := ⟨some ⟨msg, (st.host i).sndSeq msg.topid⟩, rest⟩
        retries := 0
        waiting := false } := by
  simp only [step, bind_eq_ok, await_eq_ok, present_eq_ok, pure, Except.pure, Except.ok.injEq] at h
  obtain ⟨q, hq, p, hp, -, rfl, rfl⟩ := h
  obtain ⟨x, hout, hcur⟩ := Queue.take_eq_some hq
  have hxp : x = p := Option.some.inj (hcur.symm.trans hp)
  subst hxp
  refine ⟨x.seqno, q.rest, hout, ?_⟩
  simp only [fifoQueue, Queue.setCur, hcur, Option.map_some]

theorem step_sendto (h : step (fifoQueue size) hostc st (.sendto i) = .ok st') :
    ∃ p, (st.host i).outqueue.cur = some p ∧ (st.host i).waiting = false ∧
      p.msg.topid ≠ p.msg.frompid ∧
      st' = { st.setHost i { st.host i with waiting := true } with net := p :: st.net } := by
  simp only [step, bind_eq_ok, await_eq_ok, present_eq_ok, pure, Except.pure, Except.ok.injEq] at h
  obtain ⟨p, hp, -, ⟨hwait, hne⟩, rfl⟩ := h
  exact ⟨p, hp, hwait, hne, rfl⟩

/-- The host after an iteration of `client_thread`. -/
def done (x : Host (Queue (Packet β)) β) (topid : Nat) : Host (Queue (Packet β)) β :=
  { x with
    outqueue := ⟨none, x.outqueue.rest⟩
    waiting := false
    sndSeq := upd x.sndSeq topid (x.sndSeq topid + 1) }

theorem step_selfSend (h : step (fifoQueue size) hostc st (.selfSend i msg) = .ok st') :
    ∃ p, (st.host i).outqueue.cur = some p ∧ p.msg = msg ∧ msg.topid = msg.frompid ∧
      st' = st.setHost i
        (done { st.host i with inqueue := put (st.host i).inqueue p } msg.topid) := by
  simp only [step, bind_eq_ok, await_eq_ok, present_eq_ok, pure, Except.pure, Except.ok.injEq] at h
  obtain ⟨p, hp, -, ⟨-, hself, rfl⟩, q, hq, rfl⟩ := h
  obtain ⟨-, rfl⟩ := Queue.put_eq_some hq
  exact ⟨p, hp, rfl, hself, rfl⟩

theorem step_acked (h : step (fifoQueue size) hostc st (.acked i msg) = .ok st') :
    ∃ p, (st.host i).outqueue.cur = some p ∧ p.msg = msg ∧ (st.host i).waiting = true ∧
      (i, ⟨p.seqno + 1, msg.topid⟩) ∈ st.acks ∧
      st' = st.setHost i (done (st.host i) msg.topid) := by
  simp only [step, bind_eq_ok, await_eq_ok, present_eq_ok, pure, Except.pure, Except.ok.injEq] at h
  obtain ⟨p, hp, -, ⟨hwait, rfl, hack⟩, rfl⟩ := h
  exact ⟨p, hp, rfl, hwait, hack, rfl⟩

theorem step_resend (h : step (fifoQueue size) hostc st (.resend i) = .ok st') :
    st' = st.setHost i { st.host i with
      retries := (st.host i).retries + 1
      waiting := false } := by
  simp only [step, bind_eq_ok, await_eq_ok, pure, Except.pure, Except.ok.injEq] at h
  obtain ⟨-, -, rfl⟩ := h
  rfl

theorem step_giveUp (h : step (fifoQueue size) hostc st (.giveUp i msg) = .ok st') :
    ∃ p, (st.host i).outqueue.cur = some p ∧ p.msg = msg ∧
      st' = st.setHost i (done (st.host i) msg.topid) := by
  simp only [step, bind_eq_ok, await_eq_ok, present_eq_ok, pure, Except.pure, Except.ok.injEq] at h
  obtain ⟨p, hp, -, ⟨-, rfl, -⟩, rfl⟩ := h
  exact ⟨p, hp, rfl, rfl⟩

theorem step_accept (h : step (fifoQueue size) hostc st (.accept i p) = .ok st') :
    p ∈ st.net ∧ p.msg.topid = i ∧ (st.host i).listen = none ∧
      p.seqno = (st.host i).rcvSeq p.msg.frompid ∧
      st' = { st.setHost i { st.host i with
          listen := some p
          rcvSeq := upd (st.host i).rcvSeq p.msg.frompid ((st.host i).rcvSeq p.msg.frompid + 1) }
        with acks := p.ack :: st.acks } := by
  simp only [step, bind_eq_ok, await_eq_ok, pure, Except.pure, Except.ok.injEq] at h
  obtain ⟨-, ⟨hnet, hto, hlisten, hseq⟩, rfl⟩ := h
  exact ⟨hnet, hto, hlisten, hseq, rfl⟩

theorem step_discard (h : step (fifoQueue size) hostc st (.discard i p) = .ok st') :
    p ∈ st.net ∧ p.msg.topid = i ∧ p.seqno ≠ (st.host i).rcvSeq p.msg.frompid ∧
      st' = { st with acks := p.ack :: st.acks } := by
  simp only [step, bind_eq_ok, await_eq_ok, pure, Except.pure, Except.ok.injEq] at h
  obtain ⟨-, ⟨hnet, hto, -, hseq⟩, rfl⟩ := h
  exact ⟨hnet, hto, hseq, rfl⟩

theorem step_enqueue (h : step (fifoQueue size) hostc st (.enqueue i p) = .ok st') :
    (st.host i).listen = some p ∧
      st' = st.setHost i { st.host i with
        inqueue := put (st.host i).inqueue p
        listen := none } := by
  simp only [step, bind_eq_ok, await_eq_ok, present_eq_ok, pure, Except.pure, Except.ok.injEq] at h
  obtain ⟨-, hlisten, q, hq, rfl⟩ := h
  obtain ⟨-, rfl⟩ := Queue.put_eq_some hq
  exact ⟨hlisten, rfl⟩

theorem step_handle (h : step (fifoQueue size) hostc st (.handle i msg) = .ok st') :
    ∃ seqno rest, (st.host i).inqueue = ⟨none, ⟨msg, seqno⟩ :: rest⟩ ∧
      st' = st.setHost i { st.host i with inqueue := ⟨some ⟨msg, seqno⟩, rest⟩ } := by
  simp only [step, bind_eq_ok, await_eq_ok, present_eq_ok, pure, Except.pure, Except.ok.injEq] at h
  obtain ⟨q, hq, p, hp, -, rfl, rfl⟩ := h
  obtain ⟨x, hin, hcur⟩ := Queue.take_eq_some hq
  have hxp : x = p := Option.some.inj (hcur.symm.trans hp)
  subst hxp
  obtain ⟨cur, rest⟩ := q
  dsimp only at hcur
  subst hcur
  exact ⟨x.seqno, rest, hin, rfl⟩

theorem step_finish (h : step (fifoQueue size) hostc st (.finish i) = .ok st') :
    st' = st.setHost i { st.host i with inqueue := ⟨none, (st.host i).inqueue.rest⟩ } := by
  simp only [step, bind_eq_ok, present_eq_ok, pure, Except.pure, Except.ok.injEq] at h
  obtain ⟨p, -, rfl⟩ := h
  rfl

theorem step_net (h : step (fifoQueue size) hostc st e = .ok st') (he : ¬ ∃ i, e = .sendto i) :
    st'.net = st.net := by
  cases e with
  | hand i msg seqno =>
      obtain ⟨-, -, rfl⟩ := step_hand h
      rfl
  | take i msg =>
      obtain ⟨seqno, rest, -, rfl⟩ := step_take h
      rfl
  | sendto i => exact absurd ⟨i, rfl⟩ he
  | selfSend i msg =>
      obtain ⟨p, -, -, -, rfl⟩ := step_selfSend h
      rfl
  | acked i msg =>
      obtain ⟨p, -, -, -, -, rfl⟩ := step_acked h
      rfl
  | resend i =>
      obtain rfl := step_resend h
      rfl
  | giveUp i msg =>
      obtain ⟨p, -, -, rfl⟩ := step_giveUp h
      rfl
  | accept i p =>
      obtain ⟨-, -, -, -, rfl⟩ := step_accept h
      rfl
  | discard i p =>
      obtain ⟨-, -, -, rfl⟩ := step_discard h
      rfl
  | enqueue i p =>
      obtain ⟨-, rfl⟩ := step_enqueue h
      rfl
  | handle i msg =>
      obtain ⟨seqno, rest, -, rfl⟩ := step_handle h
      rfl
  | finish i =>
      obtain rfl := step_finish h
      rfl

/-! ## The sender's side -/

/-- What a step means to the sending side of `h`. -/
inductive SendStep (h : Nat) (x x' : Host (Queue (Packet β)) β) : Event β → Prop
  | quiet {e : Event β} (hhanded : handedBy h [e] = []) (htaken : takenBy h [e] = [])
      (hout : x'.outqueue = x.outqueue) (hseq : x'.sndSeq = x.sndSeq)
      (hno : x'.handed = x.handed) : SendStep h x x' e
  | hand (msg : Message β) (seqno : BitVec 32) (hfrom : msg.frompid = h)
      (hno : msg.no = x.handed) (hx' : x' = { x with
        outqueue := put x.outqueue ⟨msg, seqno⟩
        handed := x.handed + 1 }) : SendStep h x x' (.hand h msg seqno)
  | take (msg : Message β) (seqno : BitVec 32) (rest : List (Packet β))
      (hout : x.outqueue = ⟨none, ⟨msg, seqno⟩ :: rest⟩)
      (hx' : x' = { x with
        outqueue := ⟨some ⟨msg, x.sndSeq msg.topid⟩, rest⟩
        retries := 0
        waiting := false }) : SendStep h x x' (.take h msg)
  | done {e : Event β} (p : Packet β) (hcur : x.outqueue.cur = some p)
      (hhanded : handedBy h [e] = []) (htaken : takenBy h [e] = [])
      (hout : x'.outqueue = ⟨none, x.outqueue.rest⟩)
      (hseq : x'.sndSeq = upd x.sndSeq p.msg.topid (x.sndSeq p.msg.topid + 1))
      (hno : x'.handed = x.handed)
      (hevent : e = .acked h p.msg ∨ e = .giveUp h p.msg ∨ p.msg.topid = p.msg.frompid) :
      SendStep h x x' e

theorem sendStep (hstep : step (fifoQueue size) hostc st e = .ok st') (h : Nat) :
    SendStep h (st.host h) (st'.host h) e := by
  have hat : ∀ {i : Nat} {x : Host (Queue (Packet β)) β}, st'.host = upd st.host i x →
      (h = i → SendStep h (st.host h) x e) → (h ≠ i → handedBy h [e] = []) →
      (h ≠ i → takenBy h [e] = []) → SendStep h (st.host h) (st'.host h) e := by
    intro i x hst hown hhanded htaken
    rw [hst]
    by_cases hi : h = i
    · subst hi
      rw [upd_same]
      exact hown rfl
    · rw [upd_of_ne _ _ hi]
      exact .quiet (hhanded hi) (htaken hi) rfl rfl rfl
  cases e with
  | hand i msg seqno =>
      obtain ⟨hfrom, hno, rfl⟩ := step_hand hstep
      refine hat rfl ?_ (fun hi => by simp [handedBy, Ne.symm hi]) fun _ => rfl
      rintro rfl
      exact .hand msg seqno hfrom hno rfl
  | take i msg =>
      obtain ⟨seqno, rest, hout, rfl⟩ := step_take hstep
      refine hat rfl ?_ (fun _ => rfl) fun hi => by simp [takenBy, Ne.symm hi]
      rintro rfl
      exact .take msg seqno rest hout rfl
  | sendto i =>
      obtain ⟨p, -, -, -, rfl⟩ := step_sendto hstep
      refine hat rfl ?_ (fun _ => rfl) fun _ => rfl
      rintro rfl
      exact .quiet rfl rfl rfl rfl rfl
  | selfSend i msg =>
      obtain ⟨p, hcur, rfl, hself, rfl⟩ := step_selfSend hstep
      refine hat rfl ?_ (fun _ => rfl) fun _ => rfl
      rintro rfl
      exact .done p hcur rfl rfl rfl rfl rfl (.inr (.inr hself))
  | acked i msg =>
      obtain ⟨p, hcur, rfl, -, -, rfl⟩ := step_acked hstep
      refine hat rfl ?_ (fun _ => rfl) fun _ => rfl
      rintro rfl
      exact .done p hcur rfl rfl rfl rfl rfl (.inl rfl)
  | resend i =>
      obtain rfl := step_resend hstep
      refine hat rfl ?_ (fun _ => rfl) fun _ => rfl
      rintro rfl
      exact .quiet rfl rfl rfl rfl rfl
  | giveUp i msg =>
      obtain ⟨p, hcur, rfl, rfl⟩ := step_giveUp hstep
      refine hat rfl ?_ (fun _ => rfl) fun _ => rfl
      rintro rfl
      exact .done p hcur rfl rfl rfl rfl rfl (.inr (.inl rfl))
  | accept i p =>
      obtain ⟨-, -, -, -, rfl⟩ := step_accept hstep
      refine hat rfl ?_ (fun _ => rfl) fun _ => rfl
      rintro rfl
      exact .quiet rfl rfl rfl rfl rfl
  | discard i p =>
      obtain ⟨-, -, -, rfl⟩ := step_discard hstep
      exact .quiet rfl rfl rfl rfl rfl
  | enqueue i p =>
      obtain ⟨-, rfl⟩ := step_enqueue hstep
      refine hat rfl ?_ (fun _ => rfl) fun _ => rfl
      rintro rfl
      exact .quiet rfl rfl rfl rfl rfl
  | handle i msg =>
      obtain ⟨seqno, rest, -, rfl⟩ := step_handle hstep
      refine hat rfl ?_ (fun _ => rfl) fun _ => rfl
      rintro rfl
      exact .quiet rfl rfl rfl rfl rfl
  | finish i =>
      obtain rfl := step_finish hstep
      refine hat rfl ?_ (fun _ => rfl) fun _ => rfl
      rintro rfl
      exact .quiet rfl rfl rfl rfl rfl

end Steps

/-- The sending side of `h` and its history. -/
structure Sender (h : Nat) (es : List (Event β)) (x : Host (Queue (Packet β)) β) : Prop where
  handed : handedBy h es = takenBy h es ++ x.outqueue.rest.map Packet.msg
  no : (handedBy h es).map Message.no = List.range x.handed
  frompid : ∀ msg ∈ handedBy h es, msg.frompid = h
  /-- The messages for `r` that `client_thread` is done with, and their number. -/
  seq : ∀ r, ∃ l, x.sndSeq r = BitVec.ofNat 32 l.length ∧
    takenFor h r es = l ++ (x.outqueue.cur.toList.map Packet.msg).filter (fun m => m.topid = r) ∧
    ∀ p ∈ x.outqueue.cur, p.msg.topid = r → p.seqno = BitVec.ofNat 32 l.length

section Sender

variable {x x' : Host (Queue (Packet β)) β}

theorem Sender.congr (hs : Sender h es x) (hhanded : handedBy h [e] = [])
    (htaken : takenBy h [e] = []) (hout : x'.outqueue = x.outqueue) (hseq : x'.sndSeq = x.sndSeq)
    (hno : x'.handed = x.handed) : Sender h (es ++ [e]) x' := by
  have htaken' : takenBy h (es ++ [e]) = takenBy h es := by
    rw [takenBy_append, htaken, List.append_nil]
  have hhanded' : handedBy h (es ++ [e]) = handedBy h es := by
    rw [handedBy_append, hhanded, List.append_nil]
  refine ⟨?_, ?_, ?_, ?_⟩
  · rw [hhanded', htaken', hout]
    exact hs.handed
  · rw [hhanded', hno]
    exact hs.no
  · rw [hhanded']
    exact hs.frompid
  · intro r
    rw [takenFor, htaken', hout, hseq]
    exact hs.seq r

theorem Sender.hand (hs : Sender h es x) {msg : Message β} {seqno : BitVec 32}
    (hfrom : msg.frompid = h) (hno : msg.no = x.handed) :
    Sender h (es ++ [.hand h msg seqno]) { x with
      outqueue := put x.outqueue ⟨msg, seqno⟩
      handed := x.handed + 1 } := by
  have hhanded : handedBy h (es ++ [.hand h msg seqno]) = handedBy h es ++ [msg] := by
    rw [handedBy_append]
    simp [handedBy]
  have htaken : takenBy h (es ++ [.hand h msg seqno]) = takenBy h es := by
    rw [takenBy_append]
    exact List.append_nil _
  refine ⟨?_, ?_, ?_, ?_⟩
  · rw [hhanded, htaken, hs.handed, put, List.map_append, List.append_assoc]
    rfl
  · rw [hhanded, List.map_append, hs.no, List.range_succ, ← hno]
    rfl
  · intro m hm
    rw [hhanded, List.mem_append, List.mem_singleton] at hm
    rcases hm with hm | rfl
    · exact hs.frompid m hm
    · exact hfrom
  · intro r
    rw [takenFor, htaken]
    exact hs.seq r

theorem Sender.take (hs : Sender h es x) {msg : Message β} {seqno : BitVec 32}
    {rest : List (Packet β)} (hout : x.outqueue = ⟨none, ⟨msg, seqno⟩ :: rest⟩) :
    Sender h (es ++ [.take h msg]) { x with
      outqueue := ⟨some ⟨msg, x.sndSeq msg.topid⟩, rest⟩
      retries := 0
      waiting := false } := by
  have hhanded : handedBy h (es ++ [.take h msg]) = handedBy h es := by
    rw [handedBy_append]
    exact List.append_nil _
  have htaken : takenBy h (es ++ [.take h msg]) = takenBy h es ++ [msg] := by
    rw [takenBy_append]
    simp [takenBy]
  refine ⟨?_, ?_, ?_, ?_⟩
  · rw [hhanded, htaken, hs.handed, hout, List.append_assoc]
    rfl
  · rw [hhanded]
    exact hs.no
  · rw [hhanded]
    exact hs.frompid
  · intro r
    obtain ⟨l, hseq, hl, -⟩ := hs.seq r
    rw [hout, Option.toList_none, List.map_nil, List.filter_nil, List.append_nil] at hl
    refine ⟨l, hseq, ?_, ?_⟩
    · rw [← hl, takenFor, takenFor, htaken, List.filter_append]
      rfl
    · intro p hp hto
      obtain rfl : _ = p := Option.some.inj hp
      dsimp only at hto ⊢
      rw [hto]
      exact hseq

theorem Sender.done (hs : Sender h es x) {p : Packet β} (hcur : x.outqueue.cur = some p)
    (hhanded : handedBy h [e] = []) (htaken : takenBy h [e] = [])
    (hout : x'.outqueue = ⟨none, x.outqueue.rest⟩)
    (hseq : x'.sndSeq = upd x.sndSeq p.msg.topid (x.sndSeq p.msg.topid + 1))
    (hno : x'.handed = x.handed) : Sender h (es ++ [e]) x' := by
  have htaken' : takenBy h (es ++ [e]) = takenBy h es := by
    rw [takenBy_append, htaken, List.append_nil]
  have hhanded' : handedBy h (es ++ [e]) = handedBy h es := by
    rw [handedBy_append, hhanded, List.append_nil]
  refine ⟨?_, ?_, ?_, ?_⟩
  · rw [hhanded', htaken', hout]
    exact hs.handed
  · rw [hhanded', hno]
    exact hs.no
  · rw [hhanded']
    exact hs.frompid
  · intro r
    obtain ⟨l, hseq', hl, -⟩ := hs.seq r
    rw [takenFor, htaken', hout, hseq]
    by_cases hr : p.msg.topid = r
    · subst hr
      refine ⟨l ++ [p.msg], ?_, ?_, nofun⟩
      · rw [upd_same, hseq', List.length_append, List.length_singleton, BitVec.ofNat_add]
        rfl
      · rw [takenFor] at hl
        rw [hl, hcur]
        simp
    · refine ⟨l, ?_, ?_, nofun⟩
      · rw [upd_of_ne _ _ (Ne.symm hr), hseq']
      · rw [takenFor] at hl
        rw [hl, hcur]
        simp [hr]

theorem Sender.step (hs : Sender h es x) (hstep : SendStep h x x' e) :
    Sender h (es ++ [e]) x' := by
  cases hstep with
  | quiet hhanded htaken hout hseq hno => exact hs.congr hhanded htaken hout hseq hno
  | hand msg seqno hfrom hno hx' =>
      rw [hx']
      exact hs.hand hfrom hno
  | take msg seqno rest hout hx' =>
      rw [hx']
      exact hs.take hout
  | done p hcur hhanded htaken hout hseq hno _ => exact hs.done hcur hhanded htaken hout hseq hno

end Sender

/-! ## The receiver's side -/

/-- A datagram carries the message its seqno stands for. -/
def Genuine (es : List (Event β)) (p : Packet β) : Prop :=
  ∃ n, (takenFor p.msg.frompid p.msg.topid es)[n]? = some p.msg ∧ p.seqno = BitVec.ofNat 32 n

theorem Genuine.append {p : Packet β} (hp : Genuine es p) : Genuine (es ++ es') p := by
  obtain ⟨n, hn, hseq⟩ := hp
  refine ⟨n, ?_, hseq⟩
  rw [takenFor_append, List.getElem?_append_left (List.getElem?_eq_some_iff.mp hn).1]
  exact hn

/-- The message in hand is the last one taken. -/
theorem Sender.mem_takenFor {x : Host (Queue (Packet β)) β} {p : Packet β} (hs : Sender h es x)
    (hcur : x.outqueue.cur = some p) : p.msg ∈ takenFor h p.msg.topid es := by
  obtain ⟨l, -, hl, -⟩ := hs.seq p.msg.topid
  rw [hl, hcur]
  simp

/-- The message in hand is genuine. -/
theorem Sender.genuine {x : Host (Queue (Packet β)) β} {p : Packet β} (hs : Sender h es x)
    (hcur : x.outqueue.cur = some p) : p.msg.frompid = h ∧ Genuine es p := by
  obtain ⟨l, hseq, hl, hp⟩ := hs.seq p.msg.topid
  rw [hcur] at hl hp
  simp only [Option.toList_some, List.map_singleton, decide_true, List.filter_cons_of_pos,
    List.filter_nil] at hl
  have hmem : p.msg ∈ takenBy h es := List.mem_of_mem_filter (hs.mem_takenFor hcur)
  have hfrom : p.msg.frompid = h := by
    apply hs.frompid
    rw [hs.handed]
    exact List.mem_append_left _ hmem
  refine ⟨hfrom, l.length, ?_, hp p rfl rfl⟩
  rw [hfrom, hl, List.getElem?_append_right (Nat.le_refl _), Nat.sub_self]
  rfl

/-- What a step means to the receiving side of `r`. -/
inductive RecvStep (r : Nat) (net : List (Packet β)) (x x' : Host (Queue (Packet β)) β) :
    Event β → Prop
  | quiet {e : Event β} (haccepted : ∀ s, acceptedFrom r s [e] = [])
      (henqueued : ∀ s, enqueuedFrom r s [e] = []) (hlisten : x'.listen = x.listen)
      (hseq : x'.rcvSeq = x.rcvSeq) : RecvStep r net x x' e
  | accept (p : Packet β) (hnet : p ∈ net) (hto : p.msg.topid = r) (hnone : x.listen = none)
      (hseq : p.seqno = x.rcvSeq p.msg.frompid) (hx' : x' = { x with
        listen := some p
        rcvSeq := upd x.rcvSeq p.msg.frompid (x.rcvSeq p.msg.frompid + 1) }) :
      RecvStep r net x x' (.accept r p)
  | enqueue (p : Packet β) (hlisten : x.listen = some p) (hx' : x' = { x with
        inqueue := put x.inqueue p
        listen := none }) : RecvStep r net x x' (.enqueue r p)

theorem recvStep [DecidableEq β] {size hostc : Nat} {st st' : State (Queue (Packet β)) β}
    (hstep : step (fifoQueue size) hostc st e = .ok st') (r : Nat) :
    RecvStep r st.net (st.host r) (st'.host r) e := by
  have hquiet : ∀ {i : Nat} {x : Host (Queue (Packet β)) β}, st'.host = upd st.host i x →
      x.listen = (st.host i).listen → x.rcvSeq = (st.host i).rcvSeq →
      (∀ s, acceptedFrom r s [e] = []) → (∀ s, enqueuedFrom r s [e] = []) →
      RecvStep r st.net (st.host r) (st'.host r) e := by
    intro i x hst hlisten hseq haccepted henqueued
    rw [hst]
    by_cases hi : r = i
    · subst hi
      rw [upd_same]
      exact .quiet haccepted henqueued hlisten hseq
    · rw [upd_of_ne _ _ hi]
      exact .quiet haccepted henqueued rfl rfl
  cases e with
  | hand i msg seqno =>
      obtain ⟨-, -, rfl⟩ := step_hand hstep
      exact hquiet rfl rfl rfl (fun _ => rfl) fun _ => rfl
  | take i msg =>
      obtain ⟨seqno, rest, -, rfl⟩ := step_take hstep
      exact hquiet rfl rfl rfl (fun _ => rfl) fun _ => rfl
  | sendto i =>
      obtain ⟨p, -, -, -, rfl⟩ := step_sendto hstep
      exact hquiet rfl rfl rfl (fun _ => rfl) fun _ => rfl
  | selfSend i msg =>
      obtain ⟨p, -, -, -, rfl⟩ := step_selfSend hstep
      exact hquiet rfl rfl rfl (fun _ => rfl) fun _ => rfl
  | acked i msg =>
      obtain ⟨p, -, -, -, -, rfl⟩ := step_acked hstep
      exact hquiet rfl rfl rfl (fun _ => rfl) fun _ => rfl
  | resend i =>
      obtain rfl := step_resend hstep
      exact hquiet rfl rfl rfl (fun _ => rfl) fun _ => rfl
  | giveUp i msg =>
      obtain ⟨p, -, -, rfl⟩ := step_giveUp hstep
      exact hquiet rfl rfl rfl (fun _ => rfl) fun _ => rfl
  | accept i p =>
      obtain ⟨hnet, hto, hnone, hseq, rfl⟩ := step_accept hstep
      by_cases hi : r = i
      · subst hi
        rw [setHost_host, upd_same]
        exact .accept p hnet hto hnone hseq rfl
      · rw [setHost_host, upd_of_ne _ _ hi]
        exact .quiet (fun _ => by simp [acceptedFrom, Ne.symm hi]) (fun _ => rfl) rfl rfl
  | discard i p =>
      obtain ⟨-, -, -, rfl⟩ := step_discard hstep
      exact .quiet (fun _ => rfl) (fun _ => rfl) rfl rfl
  | enqueue i p =>
      obtain ⟨hlisten, rfl⟩ := step_enqueue hstep
      by_cases hi : r = i
      · subst hi
        rw [setHost_host, upd_same]
        exact .enqueue p hlisten rfl
      · rw [setHost_host, upd_of_ne _ _ hi]
        exact .quiet (fun _ => rfl) (fun _ => by simp [enqueuedFrom, Ne.symm hi]) rfl rfl
  | handle i msg =>
      obtain ⟨seqno, rest, -, rfl⟩ := step_handle hstep
      exact hquiet rfl rfl rfl (fun _ => rfl) fun _ => rfl
  | finish i =>
      obtain rfl := step_finish hstep
      exact hquiet rfl rfl rfl (fun _ => rfl) fun _ => rfl

/-- The receiving side of `r` and its history with `s`. -/
structure Receiver (r s : Nat) (es : List (Event β)) (x : Host (Queue (Packet β)) β) : Prop where
  accepted : acceptedFrom r s es <+: takenFor s r es
  seq : x.rcvSeq s = BitVec.ofNat 32 (acceptedFrom r s es).length
  listen : acceptedFrom r s es =
    enqueuedFrom r s es ++ (x.listen.toList.map Packet.msg).filter fun msg => msg.frompid = s

theorem prefix_snoc {α : Type} {l t : List α} {x : α} (hl : l <+: t)
    (hx : t[l.length]? = some x) : l ++ [x] <+: t := by
  obtain ⟨u, rfl⟩ := hl
  rw [List.getElem?_append_right (Nat.le_refl _), Nat.sub_self] at hx
  obtain ⟨u', rfl⟩ : ∃ u', u = x :: u' := by
    cases u with
    | nil => cases hx
    | cons y u' => exact ⟨u', by rw [Option.some.inj hx]⟩
  exact ⟨u', by rw [List.append_assoc, List.singleton_append]⟩

theorem ofNat_inj {m n : Nat} (hm : m < 2 ^ 32) (hn : n < 2 ^ 32)
    (heq : BitVec.ofNat 32 m = BitVec.ofNat 32 n) : m = n := by
  have h := congrArg BitVec.toNat heq
  rwa [BitVec.toNat_ofNat, BitVec.toNat_ofNat, Nat.mod_eq_of_lt hm, Nat.mod_eq_of_lt hn] at h

theorem Receiver.step {x x' : Host (Queue (Packet β)) β} {net : List (Packet β)}
    (hr : Receiver r s es x) (hb : Bounded es) (hnet : ∀ p ∈ net, Genuine es p)
    (hstep : RecvStep r net x x' e) : Receiver r s (es ++ [e]) x' := by
  have htaken : takenFor s r es <+: takenFor s r (es ++ [e]) := by
    rw [takenFor_append]
    exact List.prefix_append _ _
  cases hstep with
  | quiet haccepted henqueued hlisten hseq =>
      have haccepted' : acceptedFrom r s (es ++ [e]) = acceptedFrom r s es := by
        rw [acceptedFrom_append, haccepted, List.append_nil]
      refine ⟨?_, ?_, ?_⟩
      · rw [haccepted']
        exact hr.accepted.trans htaken
      · rw [haccepted', hseq]
        exact hr.seq
      · rw [haccepted', enqueuedFrom_append, henqueued, List.append_nil, hlisten]
        exact hr.listen
  | accept p hp hto hnone hseq hx' =>
      have hlisten := hr.listen
      rw [hnone, Option.toList_none, List.map_nil, List.filter_nil, List.append_nil] at hlisten
      have henqueued : enqueuedFrom r s (es ++ [.accept r p]) = enqueuedFrom r s es := by
        rw [enqueuedFrom_append]
        exact List.append_nil _
      subst hx'
      by_cases hs : p.msg.frompid = s
      · subst hs
        have haccepted : acceptedFrom r p.msg.frompid (es ++ [.accept r p]) =
            acceptedFrom r p.msg.frompid es ++ [p.msg] := by
          rw [acceptedFrom_append]
          simp [acceptedFrom]
        -- the datagram is the next one, since no seqno is used twice
        obtain ⟨n, hn, hpn⟩ := hnet p hp
        rw [hto] at hn
        have hlt := hb p.msg.frompid r
        have hle := hr.accepted.length_le
        have hn' := (List.getElem?_eq_some_iff.mp hn).1
        have heq : n = (acceptedFrom r p.msg.frompid es).length := by
          apply ofNat_inj (by omega) (by omega)
          rw [← hpn, hseq, hr.seq]
        rw [heq] at hn
        refine ⟨?_, ?_, ?_⟩
        · rw [haccepted]
          exact (prefix_snoc hr.accepted hn).trans htaken
        · dsimp only
          rw [haccepted, upd_same, hr.seq, List.length_append, List.length_singleton,
            BitVec.ofNat_add]
          rfl
        · rw [haccepted, henqueued, hlisten]
          simp
      · have haccepted : acceptedFrom r s (es ++ [.accept r p]) = acceptedFrom r s es := by
          rw [acceptedFrom_append]
          simp [acceptedFrom, hs]
        refine ⟨?_, ?_, ?_⟩
        · rw [haccepted]
          exact hr.accepted.trans htaken
        · dsimp only
          rw [haccepted, upd_of_ne _ _ (Ne.symm hs)]
          exact hr.seq
        · rw [haccepted, henqueued, hlisten]
          simp [hs]
  | enqueue p hlisten hx' =>
      have haccepted : acceptedFrom r s (es ++ [.enqueue r p]) = acceptedFrom r s es := by
        rw [acceptedFrom_append]
        exact List.append_nil _
      subst hx'
      refine ⟨?_, ?_, ?_⟩
      · rw [haccepted]
        exact hr.accepted.trans htaken
      · rw [haccepted]
        exact hr.seq
      · rw [haccepted, hr.listen, hlisten, enqueuedFrom_append]
        by_cases hs : p.msg.frompid = s
        · simp [enqueuedFrom, hs]
        · simp [enqueuedFrom, hs]

section Trace

variable [DecidableEq β] {size hostc : Nat} {st : State (Queue (Packet β)) β}

theorem sender (htrace : (udp (fifoQueue size) hostc).Trace es st) (h : Nat) :
    Sender h es (st.host h) := by
  refine htrace.invariant (I := fun es st => Sender h es (st.host h)) ?_ ?_
  · exact ⟨rfl, rfl, nofun, fun r => ⟨[], rfl, rfl, nofun⟩⟩
  · intro es st e st' _ hs hstep
    exact hs.step (sendStep hstep h)

theorem genuine (htrace : (udp (fifoQueue size) hostc).Trace es st) :
    ∀ p ∈ st.net, Genuine es p := by
  refine htrace.invariant (I := fun es st => ∀ p ∈ st.net, Genuine es p)
    (fun p hp => absurd hp List.not_mem_nil) ?_
  intro es st e st' htrace hgen hstep p hp
  have hold : p ∈ st.net → Genuine (es ++ [e]) p := fun hp => (hgen p hp).append
  by_cases he : ∃ i, e = .sendto i
  · obtain ⟨i, rfl⟩ := he
    obtain ⟨q, hcur, -, -, rfl⟩ := step_sendto hstep
    rcases List.mem_cons.mp hp with rfl | hp
    · exact ((sender htrace i).genuine hcur).2.append
    · exact hold hp
  · exact hold (step_net hstep he ▸ hp)

theorem net_remote (htrace : (udp (fifoQueue size) hostc).Trace es st) :
    ∀ p ∈ st.net, p.msg.topid ≠ p.msg.frompid := by
  refine htrace.invariant (I := fun _ st => ∀ p ∈ st.net, p.msg.topid ≠ p.msg.frompid)
    (fun p hp => absurd hp List.not_mem_nil) ?_
  intro es st e st' _ hremote hstep p hp
  by_cases he : ∃ i, e = .sendto i
  · obtain ⟨i, rfl⟩ := he
    obtain ⟨q, -, -, hne, rfl⟩ := step_sendto hstep
    rcases List.mem_cons.mp hp with rfl | hp
    · exact hne
    · exact hremote p hp
  · exact hremote p (step_net hstep he ▸ hp)

theorem receiver (htrace : (udp (fifoQueue size) hostc).Trace es st) (hb : Bounded es)
    (r s : Nat) : Receiver r s es (st.host r) := by
  refine htrace.invariant (I := fun es st => Bounded es → Receiver r s es (st.host r)) ?_ ?_ hb
  · intro _
    exact ⟨List.nil_prefix, rfl, rfl⟩
  · intro es st e st' htrace hr hstep hb
    exact (hr hb.of_append).step hb.of_append (genuine htrace) (recvStep hstep r)

end Trace

/-- `listen_thread` enqueues from each host a prefix of what that host's
`client_thread` took for it, and no message of these twice. -/
theorem udp_in_order [DecidableEq β] (k : Nat) (blank : Packet β) (hostc : Nat)
    {es : List (Event β)} {st : State (Buffer (Packet β)) β}
    (htrace : (udp (msgQueue (2 ^ k) blank) hostc).Trace es st) (hb : Bounded es) (s r : Nat) :
    enqueuedFrom r s es <+: takenFor s r es ∧ (takenFor s r es).Nodup := by
  obtain ⟨t, htrace', -⟩ := trace_fifo htrace
  have hr := receiver htrace' hb r s
  have hs := sender htrace' s
  refine ⟨?_, ?_⟩
  · refine List.IsPrefix.trans ?_ hr.accepted
    rw [hr.listen]
    exact List.prefix_append _ _
  · have hnodup : (handedBy s es).Nodup := by
      apply List.Nodup.of_map Message.no
      rw [hs.no]
      exact List.nodup_range
    rw [hs.handed] at hnodup
    exact hnodup.of_append_left.filter _

theorem bounded_of_length (h : es.length < 2 ^ 32) : Bounded es := by
  intro s r
  calc (takenFor s r es).length ≤ (takenBy s es).length := List.length_filter_le _ _
    _ ≤ es.length := List.length_filterMap_le _ _
    _ < 2 ^ 32 := h

abbrev blank : Packet Nat := ⟨⟨0, 0, 0, 0⟩, 0⟩

/-- Two messages from host 0 to host 1; the first datagram arrives twice. -/
def duplicateArrives : List (Event Nat) :=
  let m₀ : Message Nat := ⟨0, 1, 0, 7⟩
  let m₁ : Message Nat := ⟨0, 1, 1, 8⟩
  [.hand 0 m₀ 0, .hand 0 m₁ 0, .take 0 m₀, .sendto 0, .accept 1 ⟨m₀, 0⟩, .resend 0, .sendto 0,
    .enqueue 1 ⟨m₀, 0⟩, .acked 0 m₀, .take 0 m₁, .sendto 0, .discard 1 ⟨m₀, 0⟩,
    .accept 1 ⟨m₁, 1⟩, .enqueue 1 ⟨m₁, 1⟩]

theorem udp_in_order_duplicateArrives :
    enqueuedFrom 1 0 duplicateArrives <+: takenFor 0 1 duplicateArrives ∧
      (takenFor 0 1 duplicateArrives).Nodup := by
  have hexec : (System.execBy (step (msgQueue (2 ^ 1) blank) 2) duplicateArrives
      (udp (msgQueue (2 ^ 1) blank) 2).start).isOk = true := by
    decide +kernel
  obtain ⟨st, htrace⟩ := System.exists_trace (fun _ _ _ h => h) _ hexec
  exact udp_in_order 1 blank 2 htrace (bounded_of_length (by decide)) 0 1

/-- Queues of three slots: with the mask 2 every index is 0, the second message
overwrites the first in the outqueue, and `client_thread` takes it twice. -/
def sharedSlot : List (Event Nat) :=
  let m₀ : Message Nat := ⟨0, 1, 0, 7⟩
  let m₁ : Message Nat := ⟨0, 1, 1, 8⟩
  [.hand 0 m₀ 0, .hand 0 m₁ 0, .take 0 m₁, .sendto 0, .accept 1 ⟨m₁, 0⟩, .enqueue 1 ⟨m₁, 0⟩,
    .acked 0 m₁, .take 0 m₁, .sendto 0, .accept 1 ⟨m₁, 1⟩, .enqueue 1 ⟨m₁, 1⟩, .acked 0 m₁]

theorem sharedSlot_not_in_order : ∃ st, (udp (msgQueue 3 blank) 2).Trace sharedSlot st ∧
    Bounded sharedSlot ∧ ¬ (enqueuedFrom 1 0 sharedSlot <+: takenFor 0 1 sharedSlot ∧
      (takenFor 0 1 sharedSlot).Nodup) := by
  have hexec : (System.execBy (step (msgQueue 3 blank) 2) sharedSlot
      (udp (msgQueue 3 blank) 2).start).isOk = true := by
    decide +kernel
  obtain ⟨st, htrace⟩ := System.exists_trace (fun _ _ _ h => h) _ hexec
  refine ⟨st, htrace, bounded_of_length (by decide), ?_⟩
  rintro ⟨-, hnodup⟩
  revert hnodup
  decide

/-! ## Acknowledged messages -/

/-- Every acknowledged message was accepted before. -/
def Honoured (es : List (Event β)) : Prop :=
  ∀ h msg, .acked h msg ∈ es → ∃ seqno, [.accept msg.topid ⟨msg, seqno⟩, .acked h msg].Sublist es

/-- `listen_thread` receives no datagram ahead of the one it waits for. -/
def NotAhead {Q : Type} (st : State Q β) : Event β → Prop
  | .accept h p | .discard h p => p.seqno ≤ (st.host h).rcvSeq p.msg.frompid
  | _ => True

instance {Q : Type} (st : State Q β) (e : Event β) : Decidable (NotAhead st e) := by
  cases e <;> unfold NotAhead <;> infer_instance

theorem NotAhead.rel {Q Q' : Type} {R : Q → Q' → Prop} {st : State Q β} {t : State Q' β}
    (hrel : StateRel R st t) (h : NotAhead st e) : NotAhead t e := by
  cases e with
  | accept i p =>
      rw [NotAhead, ← (hrel.host i).rcvSeq]
      exact h
  | discard i p =>
      rw [NotAhead, ← (hrel.host i).rcvSeq]
      exact h
  | _ => trivial

/-- An ack stands for a message that its sender's peer has accepted. -/
def Trusted (es : List (Event β)) (x : Nat × Ack) : Prop :=
  ∃ n, x.2.seqno = BitVec.ofNat 32 n + 1 ∧ n < (acceptedFrom x.2.sid x.1 es).length

theorem Trusted.append {x : Nat × Ack} (hx : Trusted es x) : Trusted (es ++ es') x := by
  obtain ⟨n, hseq, hn⟩ := hx
  refine ⟨n, hseq, ?_⟩
  rw [acceptedFrom_append, List.length_append]
  omega

theorem step_acks [DecidableEq β] {size hostc : Nat} {st st' : State (Queue (Packet β)) β}
    (h : step (fifoQueue size) hostc st e = .ok st') :
    st'.acks = st.acks ∨ ∃ i p, (e = .accept i p ∨ e = .discard i p) ∧ p ∈ st.net ∧
      p.msg.topid = i ∧ st'.acks = p.ack :: st.acks := by
  cases e with
  | hand i msg seqno =>
      obtain ⟨-, -, rfl⟩ := step_hand h
      exact .inl rfl
  | take i msg =>
      obtain ⟨seqno, rest, -, rfl⟩ := step_take h
      exact .inl rfl
  | sendto i =>
      obtain ⟨p, -, -, -, rfl⟩ := step_sendto h
      exact .inl rfl
  | selfSend i msg =>
      obtain ⟨p, -, -, -, rfl⟩ := step_selfSend h
      exact .inl rfl
  | acked i msg =>
      obtain ⟨p, -, -, -, -, rfl⟩ := step_acked h
      exact .inl rfl
  | resend i =>
      obtain rfl := step_resend h
      exact .inl rfl
  | giveUp i msg =>
      obtain ⟨p, -, -, rfl⟩ := step_giveUp h
      exact .inl rfl
  | accept i p =>
      obtain ⟨hnet, hto, -, -, rfl⟩ := step_accept h
      exact .inr ⟨i, p, .inl rfl, hnet, hto, rfl⟩
  | discard i p =>
      obtain ⟨hnet, hto, -, rfl⟩ := step_discard h
      exact .inr ⟨i, p, .inr rfl, hnet, hto, rfl⟩
  | enqueue i p =>
      obtain ⟨-, rfl⟩ := step_enqueue h
      exact .inl rfl
  | handle i msg =>
      obtain ⟨seqno, rest, -, rfl⟩ := step_handle h
      exact .inl rfl
  | finish i =>
      obtain rfl := step_finish h
      exact .inl rfl

section Acked

variable {size hostc : Nat} {st : State (Queue (Packet β)) β}

/-- What is received in turn, or again, has been accepted afterwards. -/
theorem trusted_ack {p : Packet β} (hr : Receiver p.msg.topid p.msg.frompid es (st.host p.msg.topid))
    (hb : Bounded es) (hgen : Genuine es p)
    (hle : p.seqno ≤ (st.host p.msg.topid).rcvSeq p.msg.frompid) :
    ∃ n, p.seqno = BitVec.ofNat 32 n ∧
      n ≤ (acceptedFrom p.msg.topid p.msg.frompid es).length ∧
      (p.seqno ≠ (st.host p.msg.topid).rcvSeq p.msg.frompid →
        n ≠ (acceptedFrom p.msg.topid p.msg.frompid es).length) := by
  obtain ⟨n, hn, hseq⟩ := hgen
  have hlt := hb p.msg.frompid p.msg.topid
  have hacc := hr.accepted.length_le
  have hn' := (List.getElem?_eq_some_iff.mp hn).1
  refine ⟨n, hseq, ?_, ?_⟩
  · rw [hseq, hr.seq, BitVec.le_def, BitVec.toNat_ofNat, BitVec.toNat_ofNat,
      Nat.mod_eq_of_lt (by omega), Nat.mod_eq_of_lt (by omega)] at hle
    exact hle
  · intro hne heq
    rw [hseq, hr.seq, heq] at hne
    exact hne rfl

/-- When an ack matches the message in hand, all that was taken has been accepted. -/
theorem accepted_eq_of_trusted {x : Host (Queue (Packet β)) β} {p : Packet β}
    (hs : Sender h es x) (hcur : x.outqueue.cur = some p) (hb : Bounded es)
    (hr : acceptedFrom p.msg.topid h es <+: takenFor h p.msg.topid es)
    (hack : Trusted es (h, ⟨p.seqno + 1, p.msg.topid⟩)) :
    acceptedFrom p.msg.topid h es = takenFor h p.msg.topid es := by
  obtain ⟨n, hseq, hn⟩ := hack
  obtain ⟨l, -, hl, hp⟩ := hs.seq p.msg.topid
  rw [hcur] at hl hp
  simp only [Option.toList_some, List.map_singleton, decide_true, List.filter_cons_of_pos,
    List.filter_nil] at hl
  have hlt := hb h p.msg.topid
  have hlen := congrArg List.length hl
  rw [List.length_append, List.length_singleton] at hlen
  have hle := hr.length_le
  dsimp only at hn hseq
  have heq : l.length = n := by
    apply ofNat_inj (by omega) (by omega)
    rw [← hp p rfl rfl]
    exact (BitVec.add_left_inj _).mp hseq
  exact hr.eq_of_length_le (by omega)

theorem exists_accept {msg : Message β} (h : msg ∈ acceptedFrom r s es) :
    ∃ seqno, .accept r ⟨msg, seqno⟩ ∈ es := by
  obtain ⟨e, he, hsome⟩ := List.mem_filterMap.mp h
  cases e with
  | accept i p =>
      dsimp only at hsome
      split at hsome
      · rename_i hi
        obtain ⟨rfl, -⟩ := hi
        rw [← Option.some.inj hsome]
        exact ⟨p.seqno, he⟩
      · cases hsome
  | _ => cases hsome

theorem Honoured.snoc (hes : Honoured es)
    (he : ∀ h msg, e = .acked h msg → ∃ seqno, .accept msg.topid ⟨msg, seqno⟩ ∈ es) :
    Honoured (es ++ [e]) := by
  intro h msg hmem
  rcases List.mem_append.mp hmem with hmem | hmem
  · obtain ⟨seqno, hsub⟩ := hes h msg hmem
    exact ⟨seqno, hsub.trans (List.sublist_append_left _ _)⟩
  · obtain rfl := (List.mem_singleton.mp hmem).symm
    obtain ⟨seqno, haccept⟩ := he h msg rfl
    refine ⟨seqno, ?_⟩
    exact (List.singleton_sublist.mpr haccept).append (List.Sublist.refl [Event.acked h msg])

variable [DecidableEq β]

theorem trusted (htrace : ((udp (fifoQueue size) hostc).restrict NotAhead).Trace es st)
    (hb : Bounded es) : ∀ x ∈ st.acks, Trusted es x := by
  refine htrace.invariant (I := fun es st => Bounded es → ∀ x ∈ st.acks, Trusted es x)
    (fun _ x hx => absurd hx List.not_mem_nil) ?_ hb
  intro es st e st' htrace htrust hstep hb x hx
  have hb' : Bounded es := hb.of_append
  have htrace' := htrace.unrestrict
  rcases step_acks hstep.2 with hacks | ⟨i, p, he, hnet, hto, hacks⟩
  · rw [hacks] at hx
    exact (htrust hb' x hx).append
  · rw [hacks] at hx
    rcases List.mem_cons.mp hx with rfl | hx
    · subst hto
      have hr := receiver htrace' hb' p.msg.topid p.msg.frompid
      have hgen := genuine htrace' p hnet
      rcases he with rfl | rfl
      · obtain ⟨n, hseq, hle, -⟩ := trusted_ack hr hb' hgen hstep.1
        refine ⟨n, by rw [Packet.ack, hseq], ?_⟩
        rw [Packet.ack, acceptedFrom_append, List.length_append]
        simp only [acceptedFrom, List.filterMap_cons, and_self, if_true, List.filterMap_nil,
          List.length_singleton]
        exact Nat.lt_succ_of_le hle
      · obtain ⟨n, hseq, hle, hne⟩ := trusted_ack hr hb' hgen hstep.1
        obtain ⟨-, -, hne', -⟩ := step_discard hstep.2
        refine ⟨n, by rw [Packet.ack, hseq], ?_⟩
        rw [Packet.ack, acceptedFrom_append, List.length_append]
        have := hne hne'
        dsimp only
        omega
    · exact (htrust hb' x hx).append

theorem honoured (htrace : ((udp (fifoQueue size) hostc).restrict NotAhead).Trace es st)
    (hb : Bounded es) : Honoured es := by
  refine htrace.invariant (I := fun es _ => Bounded es → Honoured es)
    (fun _ _ _ h => absurd h List.not_mem_nil) ?_ hb
  intro es st e st' htrace hhon hstep hb
  have hb' : Bounded es := hb.of_append
  have htrace' := htrace.unrestrict
  apply (hhon hb').snoc
  intro h msg he
  subst he
  obtain ⟨p, hcur, rfl, -, hack, -⟩ := step_acked hstep.2
  have hr := (receiver htrace' hb' p.msg.topid h).accepted
  have hs := sender htrace' h
  have heq := accepted_eq_of_trusted hs hcur hb' hr (trusted htrace hb' _ hack)
  apply exists_accept
  rw [heq]
  exact hs.mem_takenFor hcur

end Acked

/-- While no datagram arrives ahead of the one `listen_thread` waits for, every
acknowledged message has been accepted. -/
theorem acked_accepted [DecidableEq β] (k : Nat) (blank : Packet β) (hostc : Nat)
    {es : List (Event β)} {st : State (Buffer (Packet β)) β}
    (htrace : ((udp (msgQueue (2 ^ k) blank) hostc).restrict NotAhead).Trace es st)
    (hb : Bounded es) : Honoured es := by
  obtain ⟨t, htrace', -⟩ := restrict_trace_fifo (fun _ _ _ hrel h => NotAhead.rel hrel h) htrace
  exact honoured htrace' hb

/-- Runs in which the condition holds: every datagram arrives, one of them twice. -/
theorem acked_accepted_duplicateArrives : Honoured (duplicateArrives.take 12) := by
  let C : State (Buffer (Packet Nat)) Nat → Event Nat → Prop := NotAhead
  have hexec : (System.execBy (fun st e => do
      await (NotAhead st e)
      step (msgQueue (2 ^ 1) blank) 2 st e) (duplicateArrives.take 12)
      ((udp (msgQueue (2 ^ 1) blank) 2).restrict C).start).isOk = true := by
    decide +kernel
  have hnext : ∀ st e st', (do
      await (NotAhead st e)
      step (msgQueue (2 ^ 1) blank) 2 st e) = .ok st' →
      ((udp (msgQueue (2 ^ 1) blank) 2).restrict C).next st e st' := by
    intro st e st' h
    rw [bind_eq_ok] at h
    obtain ⟨_, hahead, hstep⟩ := h
    exact ⟨await_eq_ok.mp hahead, hstep⟩
  obtain ⟨st, htrace⟩ := System.exists_trace hnext _ hexec
  exact acked_accepted 1 blank 2 htrace (bounded_of_length (by decide))

/-- The datagrams of the first message are all lost; `client_thread` gives it up,
and the second message is acknowledged and dropped. -/
def firstLost : List (Event Nat) :=
  let m₀ : Message Nat := ⟨0, 1, 0, 7⟩
  let m₁ : Message Nat := ⟨0, 1, 1, 8⟩
  [.hand 0 m₀ 0, .hand 0 m₁ 0, .take 0 m₀] ++
    (List.replicate (RETRYNUM - 1) [Event.sendto 0, .resend 0]).flatten ++
    [.sendto 0, .giveUp 0 m₀, .take 0 m₁, .sendto 0, .discard 1 ⟨m₁, 1⟩, .acked 0 m₁]

theorem firstLost_not_honoured :
    ∃ st, (udp (msgQueue (2 ^ 1) blank) 2).Trace firstLost st ∧ ¬ Honoured firstLost := by
  have hexec : (System.execBy (step (msgQueue (2 ^ 1) blank) 2) firstLost
      (udp (msgQueue (2 ^ 1) blank) 2).start).isOk = true := by
    decide +kernel
  obtain ⟨st, htrace⟩ := System.exists_trace (fun _ _ _ h => h) _ hexec
  refine ⟨st, htrace, ?_⟩
  intro hhon
  have hacked : .acked 0 ⟨0, 1, 1, 8⟩ ∈ firstLost := by decide
  obtain ⟨seqno, hsub⟩ := hhon 0 ⟨0, 1, 1, 8⟩ hacked
  have hmem := hsub.subset List.mem_cons_self
  have hnone : ∀ e ∈ firstLost, ∀ p, e ≠ .accept 1 p := by
    have hall : (firstLost.all fun e => match e with
        | .accept _ _ => false
        | _ => true) = true := by decide
    intro e he p heq
    have h := List.all_eq_true.mp hall e he
    rw [heq] at h
    cases h
  exact hnone _ hmem _ rfl

end Jiajia.Udp
