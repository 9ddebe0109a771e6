import Jiajia.Stack

/-!
# Where messages travel

Every message in flight names a lock that exists and runs between a host and
the manager of that lock; tree broadcasts carry the three broadcast messages.
-/

namespace Jiajia

open Fifo Transition

/-- The messages `broadcast` is called with. -/
inductive Msg.Broadcast : Msg → Prop
  | invld (ns : List GrantNotice) : Broadcast (.invld hidelock ns)
  | barrgrant (scope : BitVec 32) (ns : List GrantNotice) :
      Broadcast (.barrgrant hidelock scope ns)
  | waitgrant : Broadcast .waitgrant

/-- The messages of main threads; the others come from server threads. -/
def Msg.isRequest : Msg → Bool
  | .diff _ => true
  | .getp _ _ => true
  | .acq _ _ => true
  | .rel _ _ _ => true
  | .wtnt _ _ => true
  | .barr _ _ _ => true
  | .wait => true
  | _ => false

/-- The ends of the channel a message can be on. -/
def Routed (cfg : Config) (src dst : Nat) : Msg → Prop
  | .acq l _ => l < Maxlocks ∧ dst = l % cfg.hostc
  | .rel l _ _ => l < Maxlocks ∧ dst = l % cfg.hostc
  | .wtnt l _ => l ≤ hidelock ∧ dst = l % cfg.hostc
  | .barr l _ _ => l = hidelock ∧ dst = hidelock % cfg.hostc
  | .acqgrant l _ _ => l < Maxlocks ∧ src = l % cfg.hostc
  | .invld l _ => l = hidelock ∨ (l < Maxlocks ∧ src = l % cfg.hostc)
  | .barrgrant l _ _ => l = hidelock
  | .wait => dst = 0
  | .bcast _ _ msg => msg.Broadcast
  | _ => True

theorem Msg.Broadcast.routed {cfg : Config} {src dst : Nat} {msg : Msg} (h : msg.Broadcast) :
    Routed cfg src dst msg := by
  cases h with
  | invld ns => exact Or.inl rfl
  | barrgrant scope ns => rfl
  | waitgrant => trivial

theorem Msg.Broadcast.isRequest {msg : Msg} (h : msg.Broadcast) : msg.isRequest = false := by
  cases h <;> rfl

variable {cfg : Config}

namespace Host

variable {pid src : Nat} {rnd : List Nat} {h h' : Host} {out : Out}

theorem cacheFault_out {m m' : MemState} {p seti : Nat} {w : MemState.FaultWait}
    (hf : m.cacheFault cfg p seti = .ok (m', w, out)) :
    out = [] ∨ ∃ temp, out = [((m.page p).homepid, .getp (cfg.pageAddr p) temp)] := by
  simp only [MemState.cacheFault, MemState.faultSlot, bind_eq_ok, Prod.exists, pure, Except.pure,
    Except.ok.injEq, Prod.mk.injEq] at hf
  obtain ⟨m₁, c, out₁, hslot, -, -, rfl⟩ := hf
  split at hslot
  · rw [bind_eq_ok] at hslot
    obtain ⟨m₂, -, hslot⟩ := hslot
    split at hslot
    · obtain ⟨-, -, rfl⟩ : _ ∧ _ ∧ [] = out₁ := by simpa using hslot
      exact Or.inl rfl
    · simp only [Except.ok.injEq, Prod.mk.injEq] at hslot
      exact Or.inr ⟨true, hslot.2.2.symm⟩
  · split at hslot
    · cases hslot
    · simp only [Except.ok.injEq, Prod.mk.injEq] at hslot
      exact Or.inr ⟨false, hslot.2.2.symm⟩

theorem getpserver_out {m m' : MemState} {addr : Addr} {temp : Bool}
    (hg : m.getpserver cfg pid src addr temp = .ok (m', out)) :
    ∃ wv data extra, out = [(src, .getpgrant addr wv data extra)] := by
  unfold MemState.getpserver at hg
  simp only at hg
  split at hg
  · cases hg
  · simp only [bind_eq_ok, Prod.exists, pure, Except.pure, Except.ok.injEq, Prod.mk.injEq] at hg
    obtain ⟨-, -, -, -, m₁, -, m₂, ps, -, m₃, pg, -, m₄, pages, -, -, -, -, rfl⟩ := hg
    exact ⟨_, _, _, rfl⟩

/-- The stream of a lock grant: INVLD messages and one ACQGRANT, to one host. -/
theorem grantFirst_ok {l : Nat} (hg : h.grantFirst cfg l = .ok out) :
    ∃ cs, (appendLockWtnts (h.m.homehost cfg) ((h.y.locks l).acqs 0)
        ((h.y.locks l).acqscope 0)).stream (h.y.locks l).wtntp = .ok cs ∧
      out = (grantMsgs l (.acqgrant l (h.y.locks l).scope) cs).map
        fun msg => ((h.y.locks l).acqs 0, msg) := by
  simp only [grantFirst, grantlock, bind_eq_ok, pure, Except.pure, Except.ok.injEq] at hg
  obtain ⟨cs, hcs, rfl⟩ := hg
  exact ⟨cs, hcs, rfl⟩

theorem grantbarr_ok {l : Nat} (hg : h.grantbarr cfg pid l = .ok out) :
    ∃ cs, appendBarrWtnts.stream (h.y.locks l).wtntp = .ok cs ∧
      out = (grantMsgs l (.barrgrant l (h.y.locks l).scope) cs).flatMap (broadcast cfg pid) := by
  simp only [grantbarr, bind_eq_ok, pure, Except.pure, Except.ok.injEq] at hg
  obtain ⟨cs, hcs, rfl⟩ := hg
  exact ⟨cs, hcs, rfl⟩

theorem sendwtnts_ok {barr : Bool} (hs : h.sendwtnts cfg barr = .ok out) :
    ∃ cs, appendStackWtnts.stream h.y.top.wtntp = .ok cs ∧
      out = (wtntMsgs h.y.top.lockid
        (if barr then Msg.barr h.y.top.lockid (h.y.locks hidelock).myscope
          else Msg.rel h.y.top.lockid (h.y.locks h.y.top.lockid).myscope) cs).map
        fun msg => (h.y.top.lockid % cfg.hostc, msg) := by
  simp only [sendwtnts, bind_eq_ok, pure, Except.pure, Except.ok.injEq] at hs
  obtain ⟨cs, hcs, rfl⟩ := hs
  refine ⟨cs, hcs, ?_⟩
  cases barr <;> rfl

theorem mem_chunkMsgs {more last : List WtntEntry → Msg} {cs : List (List WtntEntry)} {msg : Msg}
    (hm : msg ∈ chunkMsgs more last cs) : ∃ c ∈ cs, msg = more c ∨ msg = last c := by
  cases hcs : cs with
  | nil => simp [hcs, chunkMsgs] at hm
  | cons c cs' =>
      have hne : cs ≠ [] := by simp [hcs]
      rw [← hcs]
      rw [chunkMsgs_eq hne, List.mem_append, List.mem_map, List.mem_singleton] at hm
      rcases hm with ⟨c', hc', rfl⟩ | rfl
      · exact ⟨c', List.mem_of_mem_dropLast hc', Or.inl rfl⟩
      · exact ⟨_, List.getLast_mem hne, Or.inr rfl⟩

theorem mem_bcastserver {root level d : Nat} {msg msg' : Msg}
    (hm : (d, msg') ∈ bcastserver cfg pid root level msg) :
    msg' = if level - 1 = 0 then msg else .bcast root (level - 1) msg := by
  simp only [bcastserver, List.mem_append, List.mem_singleton, Prod.mk.injEq] at hm
  rcases hm with hm | ⟨-, hm⟩
  · by_cases hc : (if root ≤ pid then pid - root else pid + cfg.hostc - root) +
        2 ^ (level - 1) < cfg.hostc
    · rw [if_pos hc, List.mem_singleton, Prod.mk.injEq] at hm
      exact hm.2
    · rw [if_neg hc] at hm
      cases hm
  · exact hm

theorem broadcast_routed {root level d : Nat} {msg msg' : Msg} (hb : msg.Broadcast)
    (hm : (d, msg') ∈ bcastserver cfg pid root level msg) :
    msg'.isRequest = false ∧ Routed cfg pid d msg' := by
  have hmsg := mem_bcastserver hm
  by_cases hl : level - 1 = 0
  · rw [if_pos hl] at hmsg
    exact hmsg ▸ ⟨hb.isRequest, hb.routed⟩
  · rw [if_neg hl] at hmsg
    exact hmsg ▸ ⟨rfl, hb⟩

theorem mem_broadcast_routed {d : Nat} {msg msg' : Msg} (hb : msg.Broadcast)
    (hm : (d, msg') ∈ broadcast cfg pid msg) :
    msg'.isRequest = false ∧ Routed cfg pid d msg' := by
  unfold broadcast at hm
  split at hm
  · exact broadcast_routed hb hm
  · obtain ⟨k, -, hk⟩ := List.mem_map.mp hm
    obtain ⟨-, rfl⟩ := Prod.mk.inj hk
    exact ⟨hb.isRequest, hb.routed⟩

theorem grantFirst_routed {l : Nat} (hl : l < Maxlocks) (hpid : l % cfg.hostc = pid)
    (hg : h.grantFirst cfg l = .ok out) {d : Nat} {msg : Msg} (hm : (d, msg) ∈ out) :
    msg.isRequest = false ∧ Routed cfg pid d msg := by
  obtain ⟨cs, -, rfl⟩ := grantFirst_ok hg
  obtain ⟨msg', hmem, heq⟩ := List.mem_map.mp hm
  obtain ⟨-, rfl⟩ := Prod.mk.inj heq
  obtain ⟨c, -, rfl | rfl⟩ := mem_chunkMsgs hmem
  · exact ⟨rfl, Or.inr ⟨hl, hpid.symm⟩⟩
  · exact ⟨rfl, hl, hpid.symm⟩

/-- With an empty stack below it the top is the barrier. -/
theorem StackOk.top_hidelock (hok : StackOk h) (hbelow : h.y.below = []) :
    h.y.top.lockid = hidelock := by
  obtain ⟨ls, hls⟩ := hok.bottom
  rw [SynState.ids_eq, hbelow] at hls
  cases ls with
  | nil => simpa using hls
  | cons l ls => simp at hls

theorem main_routed {a : Act} (hok : StackOk h) (hm : Main cfg pid h a h' out) {d : Nat}
    {msg : Msg} (hmem : (d, msg) ∈ out) : msg.isRequest = true ∧ Routed cfg pid d msg := by
  have hpc := hok.pc
  cases hm with
  | cacheFault _ hp hfault hhome hm =>
      rcases cacheFault_out hm with rfl | ⟨temp, rfl⟩
      · cases hmem
      · obtain ⟨-, rfl⟩ := Prod.mk.inj (List.mem_singleton.mp hmem)
        exact ⟨rfl, trivial⟩
  | start _ hhost ha hop hm =>
      obtain ⟨y, dm, -, rfl, -⟩ := endinterval_ok hm
      obtain ⟨k, -, -, heq⟩ := mem_senddiffs.mp hmem
      obtain ⟨-, rfl⟩ := Prod.mk.inj heq
      exact ⟨rfl, trivial⟩
  | acquire hp hwait =>
      rw [hp] at hpc
      obtain ⟨rfl, rfl⟩ := Prod.mk.inj (List.mem_singleton.mp hmem)
      exact ⟨rfl, hpc.1, rfl⟩
  | release hp hwait hout hm hy =>
      rw [hp] at hpc
      obtain ⟨hl, rfl⟩ := hpc
      obtain ⟨cs, -, rfl⟩ := sendwtnts_ok hout
      obtain ⟨msg', hmem', heq⟩ := List.mem_map.mp hmem
      obtain ⟨rfl, rfl⟩ := Prod.mk.inj heq
      obtain ⟨c, -, rfl | rfl⟩ := mem_chunkMsgs hmem'
      · exact ⟨rfl, Nat.le_of_lt hl, rfl⟩
      · exact ⟨rfl, hl, rfl⟩
  | arrive hp hwait hm =>
      rw [hp] at hpc
      have htop := hok.top_hidelock hpc
      obtain ⟨cs, -, rfl, -⟩ := arrive_ok hm
      obtain ⟨msg', hmem', heq⟩ := List.mem_map.mp hmem
      obtain ⟨rfl, rfl⟩ := Prod.mk.inj heq
      obtain ⟨c, -, rfl | rfl⟩ := mem_chunkMsgs hmem'
      · exact ⟨rfl, htop.le, rfl⟩
      · exact ⟨rfl, htop, by rw [htop]⟩
  | barrsync hp hwait hhost hflags =>
      obtain ⟨rfl, rfl⟩ := Prod.mk.inj (List.mem_singleton.mp hmem)
      exact ⟨rfl, rfl⟩
  | wait hp hhost =>
      obtain ⟨rfl, rfl⟩ := Prod.mk.inj (List.mem_singleton.mp hmem)
      exact ⟨rfl, rfl⟩
  | _ => cases hmem

theorem served_routed {msg : Msg} (hin : Routed cfg src pid msg)
    (hs : Served cfg pid h src rnd msg h' out) {d : Nat} {msg' : Msg}
    (hmem : (d, msg') ∈ out) : msg'.isRequest = false ∧ Routed cfg pid d msg' := by
  cases hs with
  | diff hm =>
      obtain ⟨-, rfl⟩ := Prod.mk.inj (List.mem_singleton.mp hmem)
      exact ⟨rfl, trivial⟩
  | getp hm =>
      obtain ⟨wv, data, extra, rfl⟩ := getpserver_out hm
      obtain ⟨-, rfl⟩ := Prod.mk.inj (List.mem_singleton.mp hmem)
      exact ⟨rfl, trivial⟩
  | acqFirst hl hc hout => exact grantFirst_routed hin.1 hl hout hmem
  | relNext hl hsrc hc hout => exact grantFirst_routed hin.1 hl hout hmem
  | barrLast hl hc hout =>
      obtain ⟨cs, -, rfl⟩ := grantbarr_ok hout
      obtain ⟨msg, hmsg, hmem⟩ := List.mem_flatMap.mp hmem
      obtain ⟨c, -, rfl | rfl⟩ := mem_chunkMsgs hmsg
      · exact mem_broadcast_routed (.invld _) hmem
      · exact mem_broadcast_routed (.barrgrant _ _) hmem
  | waitLast hc => exact mem_broadcast_routed .waitgrant hmem
  | bcast => exact broadcast_routed hin hmem
  | _ => cases hmem

end Host

/-- What holds of every message sent holds of every message in flight. -/
theorem reach_net {P : Nat → Nat → Msg → Prop}
    (hmain : ∀ s i a h' out, (system cfg).Reach s → i < cfg.hostc →
      Host.Main cfg i (s.host i) a h' out → ∀ d msg, (d, msg) ∈ out → P i d msg)
    (hserved : ∀ s src dst rnd msg h' out, (system cfg).Reach s → P src dst msg →
      Host.Served cfg dst (s.host dst) src rnd msg h' out →
      ∀ d msg', (d, msg') ∈ out → P dst d msg')
    {s : State} (hs : (system cfg).Reach s) {a b : Nat} {msg : Msg} (hm : msg ∈ s.net a b) :
    P a b msg := by
  revert a b msg
  refine hs.invariant (I := fun s => ∀ {a b msg}, msg ∈ s.net a b → P a b msg) ?_ ?_
  · intro a b msg hm
    cases hm
  · intro s e s' hreach hP hnext a b msg hm
    rcases step_view hnext with ⟨i, act, hst, out, -, hi, hmain', -, rfl⟩ |
      ⟨src, dst, rnd, msg₀, rest, hst, out, -, hnet, hserved', -, rfl⟩
    · rw [State.put_net] at hm
      rcases mem_send.mp hm with hold | ⟨rfl, hout⟩
      · exact hP hold
      · exact hmain s a act hst out hreach hi hmain' b msg hout
    · have hfirst : P src dst msg₀ := hP (by rw [hnet]; exact List.mem_cons_self)
      rw [State.put_net] at hm
      rcases mem_send.mp hm with hold | ⟨rfl, hout⟩
      · exact hP (mem_of_mem_drop hold)
      · exact hserved s src a rnd msg₀ hst out hreach hfirst hserved' b msg hout

theorem reach_routed {s : State} (hs : (system cfg).Reach s) {a b : Nat} {msg : Msg}
    (hm : msg ∈ s.net a b) : Routed cfg a b msg := by
  refine reach_net (P := Routed cfg) ?_ ?_ hs hm
  · intro s i act h' out hreach _ hmain d msg hmem
    exact (Host.main_routed (reach_stackOk hreach i) hmain hmem).2
  · intro s src dst rnd msg h' out _ hin hserved d msg' hmem
    exact (Host.served_routed hin hserved hmem).2

end Jiajia
