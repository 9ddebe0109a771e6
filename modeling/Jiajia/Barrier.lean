import Jiajia.RoundKind

/-!
# Barriers and waits

`jia_barrier` and `jia_wait` are two schemes of counted rounds: BARR messages
with their notices against INVLD and BARRGRANT, and WAIT against WAITGRANT.
-/

namespace Jiajia

open Fifo Transition Host Rounds

/-! ## The notices of a barrier -/

/-- The notices of a WTNT or BARR message. -/
def Msg.stackNotices : Msg → List StackNotice
  | .wtnt _ ns => ns
  | .barr _ _ ns => ns
  | _ => []

/-- The notices of an INVLD or BARRGRANT message. -/
def Msg.grantNotices : Msg → List GrantNotice
  | .invld _ ns => ns
  | .barrgrant _ _ ns => ns
  | _ => []

/-- `recordwtnts` of one message at scope `n`. -/
def mergeMsg (n : Nat) (l : WtntList) (x : Nat × Msg) : WtntList :=
  x.2.stackNotices.foldl
    (fun l nt => l.save nt.addr (nt.addr.setWidth 32) x.1 (BitVec.ofNat 32 n)) l

/-- The list the manager keeps after it has recorded `rec` in round `n`. -/
def mergeRound (n : Nat) (rec : List (Nat × Msg)) : WtntList := rec.foldl (mergeMsg n) .empty

theorem mergeRound_snoc (n : Nat) (rec : List (Nat × Msg)) (x : Nat × Msg) :
    mergeRound n (rec ++ [x]) = mergeMsg n (mergeRound n rec) x := by
  simp [mergeRound]

namespace Barrier

def up : Msg → Bool
  | .wtnt l _ => l == hidelock
  | .barr l _ _ => l == hidelock
  | _ => false

def closes : Msg → Bool
  | .barr _ _ _ => true
  | _ => false

def down : Msg → Bool
  | .invld l _ => l == hidelock
  | .barrgrant l _ _ => l == hidelock
  | _ => false

def ends : Msg → Bool
  | .barrgrant _ _ _ => true
  | _ => false

/-- The manager's list and scope in round `n`, after it has recorded `rec`. -/
def Ready (h : Host) (n : Nat) (rec : List (Nat × Msg)) : Prop :=
  (h.y.locks hidelock).wtntp = mergeRound n rec ∧
    (h.y.locks hidelock).scope = BitVec.ofNat 32 n

/-- The answer to round `n`: all notices, once for each page, and the next scope. -/
structure Answers (n : Nat) (rec : List (Nat × Msg)) (reply : List Msg) : Prop where
  burst : Burst ends reply
  notices : reply.flatMap Msg.grantNotices = (mergeRound n rec).entries.map WtntEntry.toGrant
  scope : ∀ l scope ns, Msg.barrgrant l scope ns ∈ reply → scope = BitVec.ofNat 32 (n + 1)

variable {cfg : Config}

def kind (cfg : Config) : Kind cfg where
  root := hidelock % cfg.hostc
  down := down
  isBroadcast {msg} h := by
    cases msg with
    | invld l ns =>
        obtain rfl : l = hidelock := by simpa [down] using h
        exact .invld ns
    | barrgrant l scope ns =>
        obtain rfl : l = hidelock := by simpa [down] using h
        exact .barrgrant scope ns
    | _ => cases h
  castRoot {msg} h := by
    cases msg <;> first | rfl | cases h
  root_lt := Nat.mod_lt _ cfg.hostc_pos

section Main

variable {i : Nat} {a : Act} {h h' : Host} {out : Out}

theorem burst_wtntMsgs {scope : BitVec 32} {cs : List (List WtntEntry)} (hne : cs ≠ []) :
    Burst closes (wtntMsgs hidelock (.barr hidelock scope) cs) := by
  rw [wtntMsgs, chunkMsgs_eq hne]
  refine ⟨_, _, rfl, ?_, rfl⟩
  intro m hm
  obtain ⟨c, -, rfl⟩ := List.mem_map.mp hm
  rfl

theorem filter_wtntMsgs {scope : BitVec 32} {cs : List (List WtntEntry)} :
    (wtntMsgs hidelock (.barr hidelock scope) cs).filter up =
      wtntMsgs hidelock (.barr hidelock scope) cs := by
  rw [List.filter_eq_self]
  intro m hm
  obtain ⟨c, -, rfl | rfl⟩ := mem_chunkMsgs hm <;> rfl

theorem main_flag (hok : StackOk h) (hm : Main cfg i h a h' out) :
    MainRound (hidelock % cfg.hostc) up closes h.y.barrwait h'.y.barrwait out := by
  have hpc := hok.pc
  cases hm with
  | cacheFault _ hp hfault hhome hm =>
      refine .quiet ?_ rfl
      intro y hy
      rcases cacheFault_out hm with rfl | ⟨temp, rfl⟩
      · cases hy
      · rw [List.mem_singleton.mp hy]
        rfl
  | start hp hhost ha hop hm =>
      obtain ⟨y, dm, hsave, rfl, rfl⟩ := endinterval_ok hm
      refine .quiet ?_ (savepages_sameButTop hsave).flags.2.1
      intro y hy
      obtain ⟨k, -, -, rfl⟩ := mem_senddiffs.mp hy
      rfl
  | scan hp hi hm => exact .quiet (by simp) (scanHome_ok hm).2.flags.2.1
  | acquire hp hwait =>
      refine .quiet ?_ rfl
      intro y hy
      rw [List.mem_singleton.mp hy]
      rfl
  | acquired hp hwait hm hy => exact .quiet (by simp) (by rw [pushstack_ok hy])
  | release hp hwait hout hm hy =>
      rw [hp] at hpc
      obtain ⟨hl, rfl⟩ := hpc
      obtain ⟨top, below, -, rfl⟩ := popstack_ok hy
      obtain ⟨cs, -, rfl⟩ := sendwtnts_ok hout
      refine .quiet ?_ rfl
      intro y hy
      obtain ⟨msg, hmsg, rfl⟩ := List.mem_map.mp hy
      obtain ⟨c, -, rfl | rfl⟩ := mem_chunkMsgs hmsg
      · simp only [up, beq_eq_false_iff_ne, hidelock]
        omega
      · rfl
  | arrive hp hwait hm =>
      rw [hp] at hpc
      have htop := hok.top_hidelock hpc
      have hdown := (hok.flags_down (by simp [hp]) (by simp [hp]) (by simp [hp])).2.1
      obtain ⟨cs, hcs, rfl, rfl⟩ := arrive_ok hm
      refine .enter hdown rfl ?_
      rw [htop, outboxTo_map_same, filter_wtntMsgs]
      exact burst_wtntMsgs (Packing.chunks_ne_nil hcs)
  | barrsync hp hwait hhost hflags =>
      refine .quiet ?_ rfl
      intro y hy
      rw [List.mem_singleton.mp hy]
      rfl
  | leave hp hm =>
      obtain ⟨m₁, m₂, -, -, rfl⟩ := leaveBarrier_ok hm
      exact .quiet (by simp) rfl
  | wait hp hhost =>
      refine .quiet ?_ rfl
      intro y hy
      rw [List.mem_singleton.mp hy]
      rfl
  | _ => exact .quiet (by simp) rfl

end Main

section Served

variable {pid src : Nat} {rnd : List Nat} {msg : Msg} {h h' : Host} {out : Out}

theorem ready_recordwtnts (src : Nat) (msg : Msg) {n : Nat} {rec : List (Nat × Msg)}
    (hready : Ready h n rec) :
    ((h.y.recordwtnts hidelock src msg.stackNotices).locks hidelock).wtntp =
        mergeRound n (rec ++ [(src, msg)]) ∧
      ((h.y.recordwtnts hidelock src msg.stackNotices).locks hidelock).scope =
        BitVec.ofNat 32 n := by
  obtain ⟨hlist, hscope⟩ := hready
  simp [SynState.recordwtnts, SynState.setLock, hlist, hscope, mergeRound_snoc, mergeMsg]

theorem locks_recordRelease_of_ne (y : SynState) {l l' : Nat} (scope : BitVec 32)
    (ns : List StackNotice) (hne : l' ≠ l) :
    (recordRelease y src l scope ns).locks l' = y.locks l' := by
  simp [recordRelease, SynState.recordwtnts, SynState.setLock, hne]

theorem barrwait_recordRelease (y : SynState) (l : Nat) (scope : BitVec 32)
    (ns : List StackNotice) : (recordRelease y src l scope ns).barrwait = y.barrwait := by
  rw [recordRelease, noteScope_eq]
  rfl

theorem quiet_of_plain (hdown : down msg = false) (hplain : ∀ r l m, msg ≠ .bcast r l m) :
    (kind cfg).Quiet msg :=
  (kind cfg).quiet_of_not_down hdown fun r l m heq => absurd heq (hplain r l m)

theorem quiet_grantFirst {l : Nat} (hl : l < Maxlocks) (hout : h.grantFirst cfg l = .ok out)
    {y : Nat × Msg} (hy : y ∈ out) : (kind cfg).Quiet y.2 := by
  obtain ⟨cs, -, rfl⟩ := grantFirst_ok hout
  obtain ⟨msg, hmsg, rfl⟩ := List.mem_map.mp hy
  obtain ⟨c, -, rfl | rfl⟩ := mem_chunkMsgs hmsg
  · apply quiet_of_plain
    · simp only [down, beq_eq_false_iff_ne, hidelock]
      omega
    · simp
  · exact quiet_of_plain rfl (by simp)

theorem quiet_waitgrant (r l : Nat) : (kind cfg).Quiet .waitgrant ∧
    (kind cfg).Quiet (.bcast r l .waitgrant) := by
  constructor
  · exact quiet_of_plain rfl (by simp)
  · apply (kind cfg).quiet_of_not_down rfl
    intro r l m heq
    obtain ⟨-, -, rfl⟩ := Msg.bcast.inj heq
    rfl

theorem quiet_bcastserver {r l : Nat} {y : Nat × Msg}
    (hy : y ∈ bcastserver cfg pid r l .waitgrant) : (kind cfg).Quiet y.2 := by
  have hmsg := mem_bcastserver hy
  by_cases hl : l - 1 = 0
  · rw [if_pos hl] at hmsg
    rw [hmsg]
    exact (quiet_waitgrant r l).1
  · rw [if_neg hl] at hmsg
    rw [hmsg]
    exact (quiet_waitgrant r (l - 1)).2

theorem quiet_broadcast {y : Nat × Msg} (hy : y ∈ broadcast cfg pid .waitgrant) :
    (kind cfg).Quiet y.2 := by
  unfold broadcast at hy
  split at hy
  · exact quiet_bcastserver hy
  · obtain ⟨j, -, rfl⟩ := List.mem_map.mp hy
    exact (quiet_waitgrant 0 0).1

theorem answers_grantMsgs {n : Nat} {rec : List (Nat × Msg)} {scope : BitVec 32}
    {l : WtntList} {cs : List (List WtntEntry)} (hl : l = mergeRound n rec)
    (hscope : scope = BitVec.ofNat 32 (n + 1)) (hcs : appendBarrWtnts.stream l = .ok cs) :
    Answers n rec (grantMsgs hidelock (.barrgrant hidelock scope) cs) := by
  have hne := Packing.chunks_ne_nil hcs
  rw [grantMsgs, chunkMsgs_eq hne]
  refine ⟨⟨_, _, rfl, ?_, rfl⟩, ?_, ?_⟩
  · intro m hm
    obtain ⟨c, -, rfl⟩ := List.mem_map.mp hm
    rfl
  · have hall : l.entries.filter appendBarrWtnts.sel = l.entries :=
      List.filter_eq_self.mpr fun _ _ => rfl
    have hflat : cs.flatten = l.entries := (Packing.chunks_flatten hcs).trans hall
    rw [← hl, ← hflat, List.flatMap_append, List.flatMap_map, List.flatMap_singleton]
    conv_rhs => rw [← List.dropLast_append_getLast hne]
    simp [Msg.grantNotices, List.flatMap]
  · intro l' scope' ns hm
    rw [List.mem_append, List.mem_map, List.mem_singleton] at hm
    rcases hm with ⟨c, -, hc⟩ | hc
    · cases hc
    · rw [(Msg.barrgrant.inj hc).2.1, hscope]

/-- What a step from `h` to `h'` means to the barrier. -/
def Serves (cfg : Config) (pid src : Nat) (msg : Msg) (h h' : Host) (out : Out) : Prop :=
  ServedRound (kind cfg) up closes ends (Ready h) (Ready h') Answers pid src msg h.y.barrwait
    h'.y.barrwait (h.y.locks hidelock).acqc (h'.y.locks hidelock).acqc out

theorem hidelock_ne {l : Nat} (hl : l < Maxlocks) : hidelock ≠ l := by
  simp only [hidelock]
  omega

theorem serves_other (hup : up msg = false) (hmsg : (kind cfg).Quiet msg)
    (hout : ∀ y ∈ out, (kind cfg).Quiet y.2) (hflag : h'.y.barrwait = h.y.barrwait)
    (hlock : h'.y.locks hidelock = h.y.locks hidelock) : Serves cfg pid src msg h h' out := by
  refine ServedRound.quiet hup hmsg hout hflag (by rw [hlock]) ?_
  intro n rec hr
  rw [Ready, hlock]
  exact hr

theorem locks_recordwtnts_of_ne (y : SynState) {l l' : Nat} (ns : List StackNotice) (hne : l' ≠ l) :
    (y.recordwtnts l src ns).locks l' = y.locks l' := by
  simp [SynState.recordwtnts, SynState.setLock, hne]

theorem serves_invld {l : Nat} {ns : List GrantNotice} {m : MemState} :
    Serves cfg pid src (.invld l ns) h { h with m := m } [] := by
  by_cases hl : l = hidelock
  · subst hl
    exact ServedRound.hear rfl rfl rfl rfl rfl fun n rec hr => hr
  · refine serves_other rfl (quiet_of_plain ?_ (by simp)) (by simp) rfl rfl
    simpa [down] using hl

theorem serves_wtnt {l : Nat} {ns : List StackNotice} :
    Serves cfg pid src (.wtnt l ns) h { h with y := h.y.recordwtnts l src ns } [] := by
  by_cases hl : l = hidelock
  · subst hl
    refine ServedRound.take rfl rfl rfl rfl (acqc_recordwtnts _ _ _ _) ?_
    exact fun n rec hr => ready_recordwtnts src (.wtnt hidelock ns) hr
  · refine serves_other (by simpa [up] using hl) (quiet_of_plain rfl (by simp)) (by simp) rfl ?_
    exact locks_recordwtnts_of_ne h.y ns (Ne.symm hl)

theorem serves_barrCount {scope : BitVec 32} {ns : List StackNotice}
    (hc : (h.y.locks hidelock).acqc + 1 ≠ cfg.hostc) :
    Serves cfg pid src (.barr hidelock scope ns) h
      { h with
        y := (h.y.recordwtnts hidelock src ns).setLock hidelock
          (countBarr ((h.y.recordwtnts hidelock src ns).locks hidelock)) } [] := by
  refine ServedRound.arrive rfl rfl hc rfl rfl ?_ ?_
  · simp [SynState.setLock, countBarr]
  · intro n rec hr
    have hrec := ready_recordwtnts src (.barr hidelock scope ns) hr
    rw [Msg.stackNotices] at hrec
    simpa [Ready, SynState.setLock, countBarr] using hrec

/-- The last BARR: the notices of the round go out, and the list is empty again. -/
theorem serves_barrLast {scope : BitVec 32} {ns : List StackNotice}
    (hl : hidelock % cfg.hostc = pid) (hc : (h.y.locks hidelock).acqc + 1 = cfg.hostc)
    (hout : ({ h with
      y := (h.y.recordwtnts hidelock src ns).setLock hidelock (nextBarr (countBarr
        ((h.y.recordwtnts hidelock src ns).locks hidelock))) }).grantbarr cfg pid hidelock =
          .ok out) :
    Serves cfg pid src (.barr hidelock scope ns) h
      { h with
        y := (h.y.recordwtnts hidelock src ns).setLock hidelock (resetBarr (nextBarr
          (countBarr ((h.y.recordwtnts hidelock src ns).locks hidelock)))) } out := by
  obtain ⟨cs, hcs, rfl⟩ := grantbarr_ok hout
  subst hl
  refine ServedRound.last (grantMsgs hidelock (.barrgrant hidelock _) cs) rfl rfl hc rfl ?_ ?_ rfl
    ?_ ?_ ?_
  · intro m hm
    obtain ⟨c, -, rfl | rfl⟩ := mem_chunkMsgs hm <;> rfl
  · rw [grantMsgs, chunkMsgs_eq (Packing.chunks_ne_nil hcs)]
    refine ⟨_, _, rfl, ?_, rfl⟩
    intro m hm
    obtain ⟨c, -, rfl⟩ := List.mem_map.mp hm
    rfl
  · simp [SynState.setLock, resetBarr]
  · intro n rec hr
    have hrec := ready_recordwtnts src (.barr hidelock scope ns) hr
    rw [Msg.stackNotices] at hrec
    refine answers_grantMsgs ?_ ?_ hcs
    · simpa [SynState.setLock, nextBarr, countBarr] using hrec.1
    · simp [SynState.setLock, nextBarr, countBarr, hrec.2, BitVec.ofNat_add]
  · intro n rec hr
    have hrec := ready_recordwtnts src (.barr hidelock scope ns) hr
    rw [Msg.stackNotices] at hrec
    refine ⟨?_, ?_⟩
    · simp [SynState.setLock, resetBarr, mergeRound]
    · simp [SynState.setLock, resetBarr, nextBarr, countBarr, hrec.2, BitVec.ofNat_add]

theorem serves_barrgrant {scope : BitVec 32} {ns : List GrantNotice}
    (hm : h.barrgrantserver cfg pid hidelock scope ns = .ok h') :
    Serves cfg pid src (.barrgrant hidelock scope ns) h h' [] := by
  obtain ⟨m, -, rfl⟩ := barrgrantserver_ok hm
  have hend : (h.y.endBarrier cfg pid).locks hidelock = h.y.locks hidelock := by
    unfold SynState.endBarrier SynState.clearlocks
    split
    · rfl
    · simp
  refine ServedRound.leave rfl rfl rfl rfl ?_ ?_
  · simp [SynState.setLock, hend]
  · intro n rec hr
    simpa [Ready, SynState.setLock, hend] using hr

/-- A broadcast is passed on; only INVLD and BARRGRANT are about the barrier. -/
theorem serves_bcast {root l : Nat} (hin : msg.Broadcast)
    (hrel : Relayed cfg src pid (.bcast root l msg)) :
    Serves cfg pid src (.bcast root l msg) h h (bcastserver cfg pid root l msg) := by
  obtain ⟨-, hroot, hl, -⟩ := hrel
  obtain ⟨l, rfl⟩ := Nat.exists_eq_succ_of_ne_zero hl.ne'
  by_cases hdown : down msg = true
  · have hr : root = (kind cfg).root := hroot.trans ((kind cfg).castRoot hdown)
    subst hr
    exact ServedRound.forward l msg rfl hdown rfl rfl rfl fun n rec hr => hr
  · have hwait : msg = .waitgrant := by
      cases hin with
      | invld ns => exact absurd rfl hdown
      | barrgrant scope ns => exact absurd rfl hdown
      | waitgrant => rfl
    subst hwait
    refine serves_other rfl (quiet_waitgrant root _).2 ?_ rfl rfl
    exact fun y hy => quiet_bcastserver hy

theorem served_round (hin : Routed cfg src pid msg) (hrel : Relayed cfg src pid msg)
    (hs : Served cfg pid h src rnd msg h' out) : Serves cfg pid src msg h h' out := by
  cases hs with
  | diff hm =>
      refine serves_other rfl (quiet_of_plain rfl (by simp)) ?_ rfl rfl
      intro y hy
      rw [List.mem_singleton.mp hy]
      exact quiet_of_plain rfl (by simp)
  | getp hm =>
      refine serves_other rfl (quiet_of_plain rfl (by simp)) ?_ rfl rfl
      intro y hy
      obtain ⟨wv, data, extra, rfl⟩ := getpserver_out hm
      rw [List.mem_singleton.mp hy]
      exact quiet_of_plain rfl (by simp)
  | @acqFirst l scope out hl hc hout =>
      refine serves_other rfl (quiet_of_plain rfl (by simp)) ?_ rfl ?_
      · exact fun y hy => quiet_grantFirst hin.1 hout hy
      · simp [SynState.setLock, hidelock_ne hin.1]
  | @acqQueue l scope hl hc =>
      refine serves_other rfl (quiet_of_plain rfl (by simp)) (by simp) rfl ?_
      simp [SynState.setLock, hidelock_ne hin.1]
  | @relNext l scope ns out hl hsrc hc hout =>
      refine serves_other rfl (quiet_of_plain rfl (by simp)) ?_ (barrwait_recordRelease _ _ _ _) ?_
      · exact fun y hy => quiet_grantFirst hin.1 hout hy
      · exact locks_recordRelease_of_ne _ _ _ (hidelock_ne hin.1)
  | @relLast l scope ns hl hsrc hc =>
      exact serves_other rfl (quiet_of_plain rfl (by simp)) (by simp)
        (barrwait_recordRelease _ _ _ _) (locks_recordRelease_of_ne _ _ _ (hidelock_ne hin.1))
  | @acqgrant l scope ns m hm =>
      refine serves_other rfl (quiet_of_plain rfl (by simp)) (by simp) rfl ?_
      simp [SynState.setLock, hidelock_ne hin.1]
  | invld hm => exact serves_invld
  | wtnt hl => exact serves_wtnt
  | barrCount hl hc => exact serves_barrCount hc
  | barrLast hl hc hout => exact serves_barrLast hl hc hout
  | @barrgrant l scope ns h' hm =>
      obtain rfl : l = hidelock := hin
      exact serves_barrgrant hm
  | waitLast hc =>
      exact serves_other rfl (quiet_of_plain rfl (by simp)) (fun y hy => quiet_broadcast hy) rfl rfl
  | bcast => exact serves_bcast hin hrel
  | _ => exact serves_other rfl (quiet_of_plain rfl (by simp)) (by simp) rfl rfl

end Served

/-- `jia_barrier` as a scheme of counted rounds. -/
def rounds (cfg : Config) : RoundKind cfg where
  toKind := kind cfg
  up := up
  closes := closes
  ends := ends
  flag h := h.y.barrwait
  counter h := (h.y.locks hidelock).acqc
  Ready := Ready
  Answers := Answers
  up_request {msg} hup := by
    cases msg <;> first | rfl | cases hup
  up_routed {a b msg} hin hup := by
    cases msg with
    | wtnt l ns =>
        obtain rfl : l = hidelock := by simpa [up] using hup
        exact hin.2
    | barr l scope ns => exact hin.2
    | _ => cases hup
  flag_init _ := rfl
  counter_init _ := rfl
  ready_init _ := ⟨rfl, rfl⟩
  main hok hm := by
    refine ⟨main_flag hok hm, ?_, ?_⟩
    · rw [main_locks hm]
    · intro n rec hr
      rwa [Ready, main_locks hm]
  served hin hrel hs := served_round hin hrel hs

end Barrier

/-! ## Waiting -/

namespace Wait

def up : Msg → Bool
  | .wait => true
  | _ => false

def down : Msg → Bool
  | .waitgrant => true
  | _ => false

variable {cfg : Config}

def kind (cfg : Config) : Kind cfg where
  root := 0
  down := down
  isBroadcast {msg} h := by
    cases msg with
    | waitgrant => exact .waitgrant
    | _ => cases h
  castRoot {msg} h := by
    cases msg <;> first | rfl | cases h
  root_lt := cfg.hostc_pos

theorem main_flag {i : Nat} {a : Act} {h h' : Host} {out : Out} (hok : StackOk h)
    (hm : Main cfg i h a h' out) : MainRound 0 up up h.y.waitwait h'.y.waitwait out := by
  have hburst : Burst up ((outboxTo [(0, .wait)] 0).filter up) :=
    ⟨[], .wait, rfl, by simp, rfl⟩
  cases hm with
  | cacheFault _ hp hfault hhome hm =>
      refine .quiet ?_ rfl
      intro y hy
      rcases cacheFault_out hm with rfl | ⟨temp, rfl⟩
      · cases hy
      · rw [List.mem_singleton.mp hy]
        rfl
  | start hp hhost ha hop hm =>
      obtain ⟨y, dm, hsave, rfl, rfl⟩ := endinterval_ok hm
      refine .quiet ?_ (savepages_sameButTop hsave).flags.2.2.1
      intro y hy
      obtain ⟨k, -, -, rfl⟩ := mem_senddiffs.mp hy
      rfl
  | scan hp hi hm => exact .quiet (by simp) (scanHome_ok hm).2.flags.2.2.1
  | acquire hp hwait =>
      refine .quiet ?_ rfl
      intro y hy
      rw [List.mem_singleton.mp hy]
      rfl
  | acquired hp hwait hm hy => exact .quiet (by simp) (by rw [pushstack_ok hy])
  | release hp hwait hout hm hy =>
      obtain ⟨top, below, -, rfl⟩ := popstack_ok hy
      obtain ⟨cs, -, rfl⟩ := sendwtnts_ok hout
      refine .quiet ?_ rfl
      intro y hy
      obtain ⟨msg, hmsg, rfl⟩ := List.mem_map.mp hy
      obtain ⟨c, -, rfl | rfl⟩ := mem_chunkMsgs hmsg <;> rfl
  | arrive hp hwait hm =>
      obtain ⟨cs, -, rfl, rfl⟩ := arrive_ok hm
      refine .quiet ?_ rfl
      intro y hy
      obtain ⟨msg, hmsg, rfl⟩ := List.mem_map.mp hy
      obtain ⟨c, -, rfl | rfl⟩ := mem_chunkMsgs hmsg <;> rfl
  | barrsync hp hwait hhost hflags =>
      refine .enter ?_ rfl hburst
      by_contra hne
      have hcontra := hok.waitwait (by simpa using hne)
      simp [hp] at hcontra
  | leave hp hm =>
      obtain ⟨m₁, m₂, -, -, rfl⟩ := leaveBarrier_ok hm
      exact .quiet (by simp) rfl
  | wait hp hhost =>
      have hdown := (hok.flags_down (by simp [hp]) (by simp [hp]) (by simp [hp])).2.2
      exact .enter hdown rfl hburst
  | _ => exact .quiet (by simp) rfl

section Served

variable {pid src : Nat} {rnd : List Nat} {msg : Msg} {h h' : Host} {out : Out}

theorem quiet_of_plain (hdown : down msg = false) (hplain : ∀ r l m, msg ≠ .bcast r l m) :
    (kind cfg).Quiet msg :=
  (kind cfg).quiet_of_not_down hdown fun r l m heq => absurd heq (hplain r l m)

theorem quiet_grantFirst {l : Nat} (hout : h.grantFirst cfg l = .ok out) {y : Nat × Msg}
    (hy : y ∈ out) : (kind cfg).Quiet y.2 := by
  obtain ⟨cs, -, rfl⟩ := grantFirst_ok hout
  obtain ⟨msg, hmsg, rfl⟩ := List.mem_map.mp hy
  obtain ⟨c, -, rfl | rfl⟩ := mem_chunkMsgs hmsg <;> exact quiet_of_plain rfl (by simp)

theorem quiet_wrapped {m : Msg} (hdown : down m = false) (r l : Nat) :
    (kind cfg).Quiet (.bcast r l m) := by
  apply (kind cfg).quiet_of_not_down rfl
  intro r l m heq
  obtain ⟨-, -, rfl⟩ := Msg.bcast.inj heq
  exact hdown

theorem quiet_bcastserver {m : Msg} (hb : m.Broadcast) (hdown : down m = false) {r l : Nat}
    {y : Nat × Msg} (hy : y ∈ bcastserver cfg pid r l m) : (kind cfg).Quiet y.2 := by
  have hmsg := mem_bcastserver hy
  by_cases hl : l - 1 = 0
  · rw [if_pos hl] at hmsg
    rw [hmsg]
    apply quiet_of_plain hdown
    cases hb <;> simp
  · rw [if_neg hl] at hmsg
    rw [hmsg]
    exact quiet_wrapped hdown r (l - 1)

theorem quiet_broadcast {m : Msg} (hb : m.Broadcast) (hdown : down m = false) {y : Nat × Msg}
    (hy : y ∈ broadcast cfg pid m) : (kind cfg).Quiet y.2 := by
  unfold broadcast at hy
  split at hy
  · exact quiet_bcastserver hb hdown hy
  · obtain ⟨j, -, rfl⟩ := List.mem_map.mp hy
    apply quiet_of_plain hdown
    cases hb <;> simp

theorem served_round (hin : Routed cfg src pid msg) (hrel : Relayed cfg src pid msg)
    (hs : Served cfg pid h src rnd msg h' out) :
    ServedRound (kind cfg) up up down (fun _ _ => True) (fun _ _ => True) (fun _ _ _ => True)
      pid src msg h.y.waitwait h'.y.waitwait h.y.waitcounter h'.y.waitcounter out := by
  have hready : ∀ (n : Nat) (rec : List (Nat × Msg)), True → True := fun _ _ h => h
  -- a step about something else
  have hquiet : msg ≠ .wait → (∀ r l m, msg ≠ .bcast r l m) → down msg = false →
      h'.y.waitwait = h.y.waitwait → h'.y.waitcounter = h.y.waitcounter →
      (∀ y ∈ out, (kind cfg).Quiet y.2) →
      ServedRound (kind cfg) up up down (fun _ _ => True) (fun _ _ => True) (fun _ _ _ => True)
        pid src msg h.y.waitwait h'.y.waitwait h.y.waitcounter h'.y.waitcounter out := by
    intro hne hplain hdown hflag hcount hout
    refine .quiet ?_ (quiet_of_plain hdown hplain) hout hflag hcount hready
    cases msg <;> first | rfl | exact absurd rfl hne
  cases hs with
  | diff hm =>
      refine hquiet (by simp) (by simp) rfl rfl rfl ?_
      intro y hy
      rw [List.mem_singleton.mp hy]
      exact quiet_of_plain rfl (by simp)
  | getp hm =>
      refine hquiet (by simp) (by simp) rfl rfl rfl ?_
      intro y hy
      obtain ⟨wv, data, extra, rfl⟩ := getpserver_out hm
      rw [List.mem_singleton.mp hy]
      exact quiet_of_plain rfl (by simp)
  | acqFirst hl hc hout =>
      exact hquiet (by simp) (by simp) rfl rfl rfl fun y hy => quiet_grantFirst hout hy
  | relNext hl hsrc hc hout =>
      refine hquiet (by simp) (by simp) rfl ?_ ?_ fun y hy => quiet_grantFirst hout hy
      · rw [recordRelease, noteScope_eq]
        rfl
      · rw [recordRelease, noteScope_eq]
        rfl
  | relLast hl hsrc hc =>
      refine hquiet (by simp) (by simp) rfl ?_ ?_ (by simp)
      · rw [recordRelease, noteScope_eq]
        rfl
      · rw [recordRelease, noteScope_eq]
        rfl
  | barrLast hl hc hout =>
      obtain ⟨cs, hcs, rfl⟩ := grantbarr_ok hout
      refine hquiet (by simp) (by simp) rfl rfl rfl ?_
      intro y hy
      obtain ⟨m, hm, hy⟩ := List.mem_flatMap.mp hy
      obtain ⟨c, -, rfl | rfl⟩ := mem_chunkMsgs hm
      · exact quiet_broadcast (.invld _) rfl hy
      · exact quiet_broadcast (.barrgrant _ _) rfl hy
  | barrgrant hm =>
      obtain ⟨m, -, rfl⟩ := barrgrantserver_ok hm
      refine hquiet (by simp) (by simp) rfl ?_ ?_ (by simp)
      · rw [SynState.endBarrier_eq]
        rfl
      · rw [SynState.endBarrier_eq]
        rfl
  | waitCount hc => exact .arrive rfl rfl hc rfl rfl rfl hready
  | waitLast hc =>
      obtain rfl : pid = 0 := hin
      refine .last [.waitgrant] rfl rfl hc ?_ ?_ ⟨[], .waitgrant, rfl, by simp, rfl⟩ rfl rfl
        (fun _ _ h => h) hready
      · simp [kind]
      · intro m hm
        rw [List.mem_singleton.mp hm]
        rfl
  | waitgrant => exact .leave rfl rfl rfl rfl rfl hready
  | @bcast root l msg =>
      obtain ⟨-, hroot, hl, -⟩ := hrel
      obtain ⟨l, rfl⟩ := Nat.exists_eq_succ_of_ne_zero hl.ne'
      by_cases hdown : down msg = true
      · have hr : root = (kind cfg).root := hroot.trans ((kind cfg).castRoot hdown)
        subst hr
        exact .forward l msg rfl hdown rfl rfl rfl hready
      · rw [Bool.not_eq_true] at hdown
        refine .quiet rfl (quiet_wrapped hdown _ _) ?_ rfl rfl hready
        exact fun y hy => quiet_bcastserver hin hdown hy
  | _ => exact hquiet (by simp) (by simp) rfl rfl rfl (by simp)

end Served

/-- `jia_wait` as a scheme of counted rounds. -/
def rounds (cfg : Config) : RoundKind cfg where
  toKind := kind cfg
  up := up
  closes := up
  ends := down
  flag h := h.y.waitwait
  counter h := h.y.waitcounter
  Ready _ _ _ := True
  Answers _ _ _ := True
  up_request {msg} hup := by
    cases msg <;> first | rfl | cases hup
  up_routed {a b msg} hin hup := by
    cases msg with
    | wait => exact hin
    | _ => cases hup
  flag_init _ := rfl
  counter_init _ := rfl
  ready_init _ := trivial
  main {i h a h' out} hok hm := by
    refine ⟨main_flag hok hm, ?_, fun _ _ h => h⟩
    cases hm with
    | start hp hhost ha hop hm =>
        obtain ⟨y, dm, hsave, -, rfl⟩ := endinterval_ok hm
        obtain ⟨l, rfl⟩ := savepages_sameButTop hsave
        rfl
    | scan hp hi hm =>
        obtain ⟨l, hy⟩ := (scanHome_ok hm).2
        rw [hy]
    | acquired hp hwait hm hy => rw [pushstack_ok hy]
    | release hp hwait hout hm hy =>
        obtain ⟨top, below, -, rfl⟩ := popstack_ok hy
        rfl
    | arrive hp hwait hm =>
        obtain ⟨cs, -, -, rfl⟩ := arrive_ok hm
        rfl
    | leave hp hm =>
        obtain ⟨m₁, m₂, -, -, rfl⟩ := leaveBarrier_ok hm
        rfl
    | _ => rfl
  served hin hrel hs := served_round hin hrel hs

end Wait

/-! ## The calls of the application -/

/-- Inside `jia_barrier`. -/
def Pc.inBarrier : Pc → Bool
  | .scan .barr _ _ => true
  | .drain .barr => true
  | .barrwait => true
  | .barrsync => true
  | _ => false

/-- Inside `jia_barrier`, before the notices are sent. -/
def Pc.beforeArrive : Pc → Bool
  | .scan .barr _ _ => true
  | .drain .barr => true
  | _ => false

theorem Pc.beforeArrive_le (pc : Pc) : pc.beforeArrive.toNat ≤ pc.inBarrier.toNat := by
  cases pc with
  | scan op i n => cases op <;> exact Nat.le_refl _
  | drain op => cases op <;> exact Nat.le_refl _
  | _ => exact Nat.zero_le _

/-- Inside `jia_wait`, called by the application or by `jia_barrier`. -/
def Pc.inWait : Pc → Bool
  | .waitwait => true
  | .barrsync => true
  | _ => false

/-- Calls of `jia_barrier` and `jia_wait` that each host has begun, and calls
that have returned. -/
structure CallLog where
  entered : Nat → Nat
  returned : Nat → Nat
  waits : Nat → Nat
  waitReturns : Nat → Nat

/-- One more at `i`, if `c`. -/
def bump (f : Nat → Nat) (i : Nat) (c : Prop) [Decidable c] : Nat → Nat :=
  set f i (f i + if c then 1 else 0)

/-- A single host returns from both calls at once. -/
def callHistory (cfg : Config) : System.Observer State Event CallLog where
  start := ⟨fun _ => 0, fun _ => 0, fun _ => 0, fun _ => 0⟩
  obs log s e s' :=
    match e with
    | .main i a =>
        let pc := (s.host i).pc
        let pc' := (s'.host i).pc
        { entered := bump log.entered i (a = .barrier)
          returned := bump log.returned i ((a = .barrier ∧ cfg.hostc = 1) ∨
            (pc.inBarrier = true ∧ pc'.inBarrier = false))
          waits := bump log.waits i (a = .wait ∨ (pc = .barrwait ∧ pc' = .barrsync))
          waitReturns := bump log.waitReturns i ((a = .wait ∧ cfg.hostc = 1) ∨
            (pc.inWait = true ∧ pc'.inWait = false)) }
    | .deliver _ _ _ => log

namespace Host

variable {cfg : Config} {i : Nat} {a : Act} {h h' : Host} {out : Out}

theorem starts_barrier {op : SynOp} (ha : Act.starts a = some op) : a = .barrier ↔ op = .barr := by
  cases a <;> simp_all [Act.starts]
  all_goals first | exact ha.symm | (rintro rfl; cases ha)

theorem starts_wait {op : SynOp} (ha : Act.starts a = some op) : a ≠ .wait := by
  rintro rfl
  cases ha

/-- Alone a host never waits in a synchronisation call. -/
theorem single_pc (hpc : cfg.hostc = 1 → h.pc = .app ∨ ∃ w, h.pc = .fault w)
    (hm : Main cfg i h a h' out) : cfg.hostc = 1 → h'.pc = .app ∨ ∃ w, h'.pc = .fault w := by
  intro hone
  have hpc := hpc hone
  cases hm with
  | load hp => exact Or.inl hp
  | store hp => exact Or.inl hp
  | homeFault hp => exact Or.inl hp
  | cacheFault hp => exact Or.inr ⟨_, rfl⟩
  | faultEnd hp => exact Or.inl rfl
  | single hp => exact Or.inl hp
  | start hp hhost => exact absurd hone hhost
  | wait hp hhost => exact absurd hone hhost
  | leave hp =>
      rcases hp with ⟨hp, -⟩ | ⟨hp, -⟩ <;>
        rw [hp] at hpc <;> rcases hpc with hpc | ⟨w, hpc⟩ <;> cases hpc
  | _ hp => rw [hp] at hpc; rcases hpc with hpc | ⟨w, hpc⟩ <;> cases hpc

theorem main_barrier_calls (hm : Main cfg i h a h' out) :
    h.pc.inBarrier.toNat + (if a = .barrier then 1 else 0) = h'.pc.inBarrier.toNat +
      if (a = .barrier ∧ cfg.hostc = 1) ∨
        (h.pc.inBarrier = true ∧ h'.pc.inBarrier = false) then 1 else 0 := by
  cases hm with
  | single hpc hhost ha => simp [hpc, Pc.inBarrier, hhost]
  | @start a op h' out hpc hhost ha hop hm =>
      obtain ⟨y, dm, -, -, rfl⟩ := endinterval_ok hm
      have hbarr := starts_barrier ha
      cases op <;> simp [hpc, Pc.inBarrier, hhost, hbarr]
  | @scan op _ _ _ hpc hi hm => cases op <;> simp [hpc, Pc.inBarrier]
  | @scanEnd op _ _ hpc hi => cases op <;> simp [hpc, Pc.inBarrier]
  | arrive hpc hwait hm =>
      obtain ⟨cs, -, -, rfl⟩ := arrive_ok hm
      simp [hpc, Pc.inBarrier]
  | leave hpc hm =>
      obtain ⟨m₁, m₂, -, -, rfl⟩ := leaveBarrier_ok hm
      rcases hpc with ⟨hpc, -⟩ | ⟨hpc, -⟩ <;> simp [hpc, Pc.inBarrier]
  | _ hpc => simp [hpc, Pc.inBarrier]

theorem main_wait_calls (hm : Main cfg i h a h' out) :
    h.pc.inWait.toNat + (if a = .wait ∨ (h.pc = .barrwait ∧ h'.pc = .barrsync) then 1 else 0) =
      h'.pc.inWait.toNat + if (a = .wait ∧ cfg.hostc = 1) ∨
        (h.pc.inWait = true ∧ h'.pc.inWait = false) then 1 else 0 := by
  cases hm with
  | single hpc hhost ha => simp [hpc, Pc.inWait, hhost]
  | start hpc hhost ha hop hm =>
      obtain ⟨y, dm, -, -, rfl⟩ := endinterval_ok hm
      simp [hpc, Pc.inWait, hhost, starts_wait ha]
  | arrive hpc hwait hm =>
      obtain ⟨cs, -, -, rfl⟩ := arrive_ok hm
      simp [hpc, Pc.inWait]
  | leave hpc hm =>
      obtain ⟨m₁, m₂, -, -, rfl⟩ := leaveBarrier_ok hm
      rcases hpc with ⟨hpc, -⟩ | ⟨hpc, -⟩ <;> simp [hpc, Pc.inWait]
  | wait hpc hhost => simp [hpc, Pc.inWait, hhost]
  | _ hpc => simp [hpc, Pc.inWait]

/-- The notices are sent once in every call of `jia_barrier`. -/
theorem main_arrivals (hok : StackOk h) (hhost : cfg.hostc ≠ 1) (hm : Main cfg i h a h' out) :
    h.pc.beforeArrive.toNat + (if a = .barrier then 1 else 0) =
      h'.pc.beforeArrive.toNat + (h'.y.barrwait && !h.y.barrwait).toNat := by
  cases hm with
  | single hpc hone ha => exact absurd hone hhost
  | @start a op h' out hpc hhost ha hop hm =>
      obtain ⟨y, dm, hsave, -, rfl⟩ := endinterval_ok hm
      have hflag := (savepages_sameButTop hsave).flags.2.1
      have hbarr := starts_barrier ha
      cases op <;> simp [hpc, Pc.beforeArrive, hbarr, hflag]
  | @scan op _ _ _ hpc hi hm =>
      have hflag := (scanHome_ok hm).2.flags.2.1
      cases op <;> simp [hpc, Pc.beforeArrive, hflag]
  | @scanEnd op _ _ hpc hi => cases op <;> simp [hpc, Pc.beforeArrive]
  | acquired hpc hwait hm hy =>
      rw [pushstack_ok hy]
      simp [hpc, Pc.beforeArrive]
  | release hpc hwait hout hm hy =>
      obtain ⟨top, below, -, rfl⟩ := popstack_ok hy
      simp [hpc, Pc.beforeArrive]
  | arrive hpc hwait hm =>
      have hdown := (hok.flags_down (by simp [hpc]) (by simp [hpc]) (by simp [hpc])).2.1
      obtain ⟨cs, -, -, rfl⟩ := arrive_ok hm
      simp [hpc, Pc.beforeArrive, hdown]
  | leave hpc hm =>
      obtain ⟨m₁, m₂, -, -, rfl⟩ := leaveBarrier_ok hm
      rcases hpc with ⟨hpc, -⟩ | ⟨hpc, -⟩ <;> simp [hpc, Pc.beforeArrive]
  | _ hpc => simp [hpc, Pc.beforeArrive]

/-- WAIT is sent once in every call of `jia_wait`. -/
theorem main_waits (hok : StackOk h) (hhost : cfg.hostc ≠ 1) (hm : Main cfg i h a h' out) :
    (if a = .wait ∨ (h.pc = .barrwait ∧ h'.pc = .barrsync) then 1 else 0) =
      (h'.y.waitwait && !h.y.waitwait).toNat := by
  cases hm with
  | single hpc hone ha => exact absurd hone hhost
  | start hpc hhost ha hop hm =>
      obtain ⟨y, dm, hsave, -, rfl⟩ := endinterval_ok hm
      have hflag := (savepages_sameButTop hsave).flags.2.2.1
      simp [hpc, starts_wait ha, hflag]
  | scan hpc hi hm =>
      have hflag := (scanHome_ok hm).2.flags.2.2.1
      simp [hpc, hflag]
  | acquired hpc hwait hm hy =>
      rw [pushstack_ok hy]
      simp [hpc]
  | release hpc hwait hout hm hy =>
      obtain ⟨top, below, -, rfl⟩ := popstack_ok hy
      simp [hpc]
  | arrive hpc hwait hm =>
      obtain ⟨cs, -, -, rfl⟩ := arrive_ok hm
      simp [hpc]
  | leave hpc hm =>
      obtain ⟨m₁, m₂, -, -, rfl⟩ := leaveBarrier_ok hm
      rcases hpc with ⟨hpc, -⟩ | ⟨hpc, -⟩ <;> simp [hpc]
  | wait hpc hhost =>
      have hdown := (hok.flags_down (by simp [hpc]) (by simp [hpc]) (by simp [hpc])).2.2
      simp [hdown]
  | barrsync hpc hwait hhost hflags =>
      have hdown : h.y.waitwait = false := by
        by_contra hne
        have hcontra := hok.waitwait (by simpa using hne)
        simp [hpc] at hcontra
      simp [hpc, hdown]
  | _ hpc => simp [hpc]

end Host

/-! ## Separation -/

section Separation

variable {cfg : Config}

/-- Calls begun and returned differ by the call the host is in. -/
def CallsOk (x : State × CallLog) : Prop :=
  ∀ i, x.2.entered i = x.2.returned i + (x.1.host i).pc.inBarrier.toNat ∧
    x.2.waits i = x.2.waitReturns i + (x.1.host i).pc.inWait.toNat

@[simp] theorem bump_same (f : Nat → Nat) (i : Nat) (c : Prop) [Decidable c] :
    bump f i c i = f i + if c then 1 else 0 := set_same _ _ _

theorem bump_of_ne (f : Nat → Nat) {i j : Nat} (c : Prop) [Decidable c] (h : j ≠ i) :
    bump f i c j = f j := set_of_ne _ _ h

theorem served_pc {s : State} {src dst : Nat} {rnd : List Nat} {msg : Msg} {hst : Host} {out : Out}
    (hm : Served cfg dst (s.host dst) src rnd msg hst out) (j : Nat) :
    (({ s with net := drop s.net src dst }.put dst hst out).host j).pc = (s.host j).pc := by
  by_cases hj : j = dst
  · subst hj
    rw [State.put_host_same]
    exact (served_undisturbed hm).pc
  · rw [State.put_host_of_ne _ _ _ hj]

theorem reach_callsOk {x : State × CallLog}
    (hx : ((system cfg).withHist (callHistory cfg)).Reach x) : CallsOk x := by
  refine hx.invariant (I := CallsOk) (fun i => ⟨rfl, rfl⟩) ?_
  intro x e x' hreach hok hnext j
  obtain ⟨s, log⟩ := x
  obtain ⟨s', log'⟩ := x'
  obtain ⟨hstep, hlog⟩ := hnext
  dsimp only at hstep hlog
  subst hlog
  have hj := hok j
  rcases step_view hstep with ⟨i, a, hst, out, rfl, hi, hm, -, rfl⟩ |
    ⟨src, dst, rnd, msg, rest, hst, out, rfl, hnet, hm, -, rfl⟩
  · have hb := main_barrier_calls hm
    have hw := main_wait_calls hm
    by_cases hji : j = i
    · subst hji
      simp only [callHistory, State.put_host_same, bump_same] at hj hb hw ⊢
      omega
    · simpa only [callHistory, State.put_host_of_ne _ _ _ hji, bump_of_ne _ _ hji] using hj
  · simpa only [callHistory, served_pc hm] using hj

/-- The histories of the barriers, the waits and the calls. -/
abbrev SyncLog := RoundLog × RoundLog × CallLog

def syncHistory (cfg : Config) : System.Observer State Event SyncLog :=
  (Barrier.rounds cfg).history.prod ((Wait.rounds cfg).history.prod (callHistory cfg))

/-- How often the notices and WAIT were sent, by the calls begun. -/
def SendsOk (cfg : Config) (x : State × SyncLog) : Prop :=
  ∀ i, x.2.1.sent i + (x.1.host i).pc.beforeArrive.toNat =
      (if cfg.hostc = 1 then 0 else x.2.2.2.entered i) ∧
    x.2.2.1.sent i = if cfg.hostc = 1 then 0 else x.2.2.2.waits i

/-- The burst a host sends is the one its flag tells of. -/
theorem sent_noteSent (k : RoundKind cfg) {i : Nat} {a : Act} {h h' : Host} {out : Out}
    (log : RoundLog) (hok : StackOk h) (hm : Main cfg i h a h' out) (j : Nat) :
    (k.noteSent log i out).sent j =
      log.sent j + if j = i then (k.flag h' && !k.flag h).toNat else 0 := by
  unfold RoundKind.noteSent
  cases (k.main hok hm).1 with
  | quiet hout hflag =>
      have hnone : (outboxTo out k.root).filter k.up = [] := by
        rw [List.filter_eq_nil_iff]
        intro msg hmsg
        rw [hout _ (mem_outboxTo.mp hmsg)]
        simp
      simp [hnone, hflag]
  | enter hflag hflag' hburst =>
      have hne : ((outboxTo out k.root).filter k.up).isEmpty = false := by
        rw [List.isEmpty_eq_false_iff]
        exact hburst.ne_nil
      by_cases hj : j = i
      · subst hj
        simp [hne, hflag, hflag']
      · simp [hne, hj]

theorem sent_noteHandled (k : RoundKind cfg) (log : RoundLog) (src dst : Nat) (msg : Msg)
    (out : Out) : (k.noteHandled log src dst msg out).sent = log.sent := by
  unfold RoundKind.noteHandled RoundKind.noteTaken RoundKind.noteHeard
  dsimp only
  split_ifs <;> rfl

theorem reach_single {s : State} (hs : (system cfg).Reach s) (hone : cfg.hostc = 1) (i : Nat) :
    (s.host i).pc = .app ∨ ∃ w, (s.host i).pc = .fault w := by
  refine reach_host (P := fun _ h => cfg.hostc = 1 → h.pc = .app ∨ ∃ w, h.pc = .fault w)
    ?_ ?_ ?_ hs i hone
  · exact fun i _ => Or.inl rfl
  · intro i h a h' out _ hpc hm
    exact single_pc hpc hm
  · intro i h src rnd msg h' out hpc hm hone
    rw [(served_undisturbed hm).pc]
    exact hpc hone

theorem single_flags {i : Nat} {a : Act} {h h' : Host} {out : Out}
    (hpc : h.pc = .app ∨ ∃ w, h.pc = .fault w) (hone : cfg.hostc = 1)
    (hm : Main cfg i h a h' out) : h'.y = h.y ∧ h'.pc.beforeArrive = false := by
  cases hm with
  | load hp => exact ⟨rfl, by rw [hp]; rfl⟩
  | store hp => exact ⟨rfl, by rw [hp]; rfl⟩
  | homeFault hp => exact ⟨rfl, by rw [hp]; rfl⟩
  | cacheFault hp => exact ⟨rfl, rfl⟩
  | faultEnd hp => exact ⟨rfl, rfl⟩
  | single hp => exact ⟨rfl, by rw [hp]; rfl⟩
  | start hp hhost => exact absurd hone hhost
  | wait hp hhost => exact absurd hone hhost
  | leave hp =>
      rcases hp with ⟨hp, -⟩ | ⟨hp, -⟩ <;>
        rw [hp] at hpc <;> rcases hpc with hpc | ⟨w, hpc⟩ <;> cases hpc
  | _ hp => rw [hp] at hpc; rcases hpc with hpc | ⟨w, hpc⟩ <;> cases hpc

theorem reach_sendsOk {x : State × SyncLog}
    (hx : ((system cfg).withHist (syncHistory cfg)).Reach x) : SendsOk cfg x := by
  refine hx.invariant (I := SendsOk cfg) ?_ ?_
  · intro i
    constructor
    · show 0 + 0 = if cfg.hostc = 1 then 0 else 0
      rw [ite_self]
    · show 0 = if cfg.hostc = 1 then 0 else 0
      rw [ite_self]
  intro x e x' hreach hok hnext j
  obtain ⟨s, barr, wait, calls⟩ := x
  obtain ⟨s', log'⟩ := x'
  obtain ⟨hstep, hlog⟩ := hnext
  dsimp only at hstep hlog
  subst hlog
  have hs : (system cfg).Reach s := hreach.forget
  have hj := hok j
  rcases step_view hstep with ⟨i, a, hst, out, rfl, hi, hm, hsent, rfl⟩ |
    ⟨src, dst, rnd, msg, rest, hst, out, rfl, hnet, hm, hsent, rfl⟩
  · have hstack := reach_stackOk hs i
    have hb := sent_noteSent (Barrier.rounds cfg) barr hstack hm j
    have hw := sent_noteSent (Wait.rounds cfg) wait hstack hm j
    simp only [syncHistory, System.Observer.prod, RoundKind.history, hsent, callHistory] at hj ⊢
    rw [hb, hw]
    by_cases hji : j = i
    · subst hji
      simp only [State.put_host_same, bump_same, if_true]
      by_cases hone : cfg.hostc = 1
      · obtain ⟨hy, hbefore⟩ := single_flags (reach_single hs hone j) hone hm
        have hpc : (s.host j).pc.beforeArrive = false := by
          rcases reach_single hs hone j with hpc | ⟨w, hpc⟩ <;> rw [hpc] <;> rfl
        simp only [hone, if_true, hpc, Bool.toNat_false] at hj
        simp only [hone, if_true, Barrier.rounds, Wait.rounds, hy, hbefore, Bool.and_not_self,
          Bool.toNat_false]
        omega
      · have harr := main_arrivals hstack hone hm
        have hwt := main_waits hstack hone hm
        simp only [if_neg hone] at hj
        simp only [if_neg hone, Barrier.rounds, Wait.rounds]
        omega
    · simp only [State.put_host_of_ne _ _ _ hji, bump_of_ne _ _ hji, if_neg hji, Nat.add_zero]
      exact hj
  · simp only [syncHistory, System.Observer.prod, RoundKind.history, hsent, handled, hnet,
      List.head?_cons, callHistory, sent_noteHandled]
    rw [served_pc hm]
    exact hj

section Run

variable {x : State × SyncLog} (hx : ((system cfg).withHist (syncHistory cfg)).Reach x)

include hx

theorem reach_barrierOk : (Barrier.rounds cfg).Ok (x.1, x.2.1) :=
  (Barrier.rounds cfg).reach_ok hx.fst

theorem reach_waitOk : (Wait.rounds cfg).Ok (x.1, x.2.2.1) :=
  (Wait.rounds cfg).reach_ok hx.snd.fst

theorem reach_callsOk' : CallsOk (x.1, x.2.2.2) := reach_callsOk hx.snd.snd

/-- A host has taken the grant of every barrier it has returned from, and has
sent its notices for no more barriers than it has entered. -/
theorem barrier_returned_le (hone : cfg.hostc ≠ 1) (i : Nat) :
    x.2.2.2.returned i ≤ x.2.1.granted i ∧ x.2.1.sent i ≤ x.2.2.2.entered i := by
  have hcalls := (reach_callsOk' hx i).1
  have hsends := (reach_sendsOk hx i).1
  have hinside := (reach_barrierOk hx).inv.inside i
  have hstack := reach_stackOk hx.forget i
  rw [if_neg hone] at hsends
  change x.2.1.sent i = x.2.1.granted i + (x.1.host i).y.barrwait.toNat at hinside
  dsimp only at hcalls
  have hflag : (x.1.host i).y.barrwait.toNat + (x.1.host i).pc.beforeArrive.toNat ≤
      (x.1.host i).pc.inBarrier.toNat := by
    cases hb : (x.1.host i).y.barrwait with
    | true =>
        rw [hstack.barrwait hb]
        rfl
    | false =>
        rw [Bool.toNat_false, Nat.zero_add]
        exact Pc.beforeArrive_le _
  omega

theorem wait_returned_le (hone : cfg.hostc ≠ 1) (i : Nat) :
    x.2.2.2.waitReturns i ≤ x.2.2.1.granted i ∧ x.2.2.1.sent i ≤ x.2.2.2.waits i := by
  have hcalls := (reach_callsOk' hx i).2
  have hsends := (reach_sendsOk hx i).2
  have hinside := (reach_waitOk hx).inv.inside i
  have hstack := reach_stackOk hx.forget i
  rw [if_neg hone] at hsends
  change x.2.2.1.sent i = x.2.2.1.granted i + (x.1.host i).y.waitwait.toNat at hinside
  dsimp only at hcalls
  have hflag : (x.1.host i).y.waitwait.toNat ≤ (x.1.host i).pc.inWait.toNat := by
    cases hb : (x.1.host i).y.waitwait with
    | true => rcases hstack.waitwait hb with hpc | hpc <;> rw [hpc] <;> rfl
    | false => exact Nat.zero_le _
  omega

/-- Barriers and waits in every run.  No host has returned from a call that
another host has not begun.  What a host has heard in a barrier it has returned
from is the whole answer to it: the notices every host sent for that barrier,
each once for its page, and none of a barrier it has not entered.  The two
counters count the hosts that are in the current round. -/
theorem barrier_wait_separation :
    (∀ i < cfg.hostc, ∀ j < cfg.hostc, x.2.2.2.returned i ≤ x.2.2.2.entered j) ∧
    (∀ i < cfg.hostc, ∀ k < x.2.2.2.returned i,
      (x.2.1.heard i k).flatMap Msg.grantNotices =
        (mergeRound k (x.2.1.recorded k)).entries.map WtntEntry.toGrant ∧
      (cfg.hostc ≠ 1 → Burst Barrier.ends (x.2.1.heard i k)) ∧
      ∀ j < cfg.hostc, ofParty j (x.2.1.recorded k) = x.2.1.offered j k) ∧
    (∀ i < cfg.hostc, ∀ k, x.2.2.2.entered i ≤ k → x.2.1.heard i k = []) ∧
    (∀ i < cfg.hostc, ∀ j < cfg.hostc, x.2.2.2.waitReturns i ≤ x.2.2.2.waits j) ∧
    ((x.1.host (hidelock % cfg.hostc)).y.locks hidelock).acqc =
      (List.range cfg.hostc).countP (fun i => x.2.1.arrived i = x.2.1.rounds + 1) ∧
    (x.1.host 0).y.waitcounter =
      (List.range cfg.hostc).countP (fun i => x.2.2.1.arrived i = x.2.2.1.rounds + 1) ∧
    ∀ i < cfg.hostc,
      (x.2.1.rounds ≤ x.2.1.arrived i ∧ x.2.1.arrived i ≤ x.2.1.rounds + 1) ∧
      x.2.2.1.rounds ≤ x.2.2.1.arrived i ∧ x.2.2.1.arrived i ≤ x.2.2.1.rounds + 1 := by
  have hbarr := reach_barrierOk hx
  have hwait := reach_waitOk hx
  have hcalls := reach_callsOk' hx
  -- a single host exchanges no messages
  have hsent : cfg.hostc = 1 → ∀ i, x.2.1.sent i = 0 := by
    intro hone i
    have hsends := (reach_sendsOk hx i).1
    rw [if_pos hone] at hsends
    omega
  have hle : ∀ i, x.2.1.sent i ≤ x.2.2.2.entered i := by
    intro i
    by_cases hone : cfg.hostc = 1
    · rw [hsent hone i]
      exact Nat.zero_le _
    · exact (barrier_returned_le hx hone i).2
  refine ⟨?_, ?_, ?_, ?_, hbarr.inv.count, hwait.inv.count, ?_⟩
  · intro i hi j hj
    by_cases hone : cfg.hostc = 1
    · obtain rfl : i = j := by omega
      have hcall := (hcalls i).1
      dsimp only at hcall
      omega
    · have hi' := (barrier_returned_le hx hone i).1
      have hsep := hbarr.inv.separated hi hj
      have hsep' : x.2.1.granted i ≤ x.2.1.sent j := hsep.1.trans (hsep.2.1.trans hsep.2.2)
      exact hi'.trans (hsep'.trans (hle j))
  · intro i hi k hk
    by_cases hone : cfg.hostc = 1
    · have hheard : x.2.1.heard i k = [] :=
        hbarr.replies.heard_late hi hbarr.inv (by
          change x.2.1.sent i ≤ k
          rw [hsent hone i]
          exact Nat.zero_le k)
      have hrec : x.2.1.recorded k = [] := by
        apply hbarr.records.recorded_nil
        intro j _
        change x.2.1.sent j ≤ k
        rw [hsent hone j]
        exact Nat.zero_le k
      refine ⟨by rw [hheard, hrec]; rfl, fun hne => absurd hone hne, ?_⟩
      intro j _
      have hoffered : x.2.1.offered j k = [] := hbarr.records.late j k (by
        change x.2.1.sent j ≤ k
        rw [hsent hone j]
        exact Nat.zero_le k)
      rw [hrec, hoffered]
      rfl
    · have hk' : k < x.2.1.granted i := hk.trans_le (barrier_returned_le hx hone i).1
      obtain ⟨hans, hall⟩ := hbarr.replies.complete hbarr.records hbarr.inv hi hk'
      exact ⟨hans.notices, fun _ => hans.burst, hall⟩
  · intro i hi k hk
    exact hbarr.replies.heard_late hi hbarr.inv ((hle i).trans hk)
  · intro i hi j hj
    by_cases hone : cfg.hostc = 1
    · obtain rfl : i = j := by omega
      have hcall := (hcalls i).2
      dsimp only at hcall
      omega
    · have hi' := (wait_returned_le hx hone i).1
      have hj' := (wait_returned_le hx hone j).2
      have hsep := hwait.inv.separated hi hj
      have hsep' : x.2.2.1.granted i ≤ x.2.2.1.sent j := hsep.1.trans (hsep.2.1.trans hsep.2.2)
      exact hi'.trans (hsep'.trans hj')
  · intro i hi
    exact ⟨⟨hbarr.inv.lower i hi, hbarr.inv.upper i hi⟩, hwait.inv.lower i hi,
      hwait.inv.upper i hi⟩

end Run

end Separation

/-- Host 0 is slow to leave the barrier that host 1 has returned from. -/
def slowLeaver : List Event :=
  [.main 0 .barrier, .main 1 .barrier, .main 0 .go, .main 1 .go, .main 0 .go, .main 1 .go,
    .deliver 1 0 [], .deliver 0 0 [], .deliver 0 1 [], .main 1 .go, .main 1 .barrier]

theorem barrier_wait_separation_slowLeaver :
    ∃ x, ((system .noPages).withHist (syncHistory .noPages)).Reach x ∧
      x.2.2.2.returned 1 = 1 ∧ x.2.2.2.entered 1 = 2 ∧ 1 ≤ x.2.2.2.entered 0 ∧
      Burst Barrier.ends (x.2.1.heard 1 0) := by
  obtain ⟨x, hx, hcheck⟩ := exists_execHist .noPages (syncHistory .noPages) slowLeaver
    (fun x => decide (x.2.2.2.returned 1 = 1 ∧ x.2.2.2.entered 1 = 2)) (by decide +kernel)
  obtain ⟨hreturned, hentered⟩ := of_decide_eq_true hcheck
  have hsep := barrier_wait_separation hx
  refine ⟨x, hx, hreturned, hentered, ?_, ?_⟩
  · rw [← hreturned]
    exact hsep.1 1 (by decide) 0 (by decide)
  · exact (hsep.2.1 1 (by decide) 0 (by omega)).2.1 (by decide)

end Jiajia
