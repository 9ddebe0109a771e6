import Jiajia.Fetch

/-!
# What every state keeps

The invariants of all hosts and channels in one structure, with one lemma for a step of a
main thread, one for a step of a server thread, and one for a server thread that sets
reader flags without taking or sending a message.
-/

namespace Jiajia

open Fifo Transition Host MemState Rounds

variable {cfg : Config}

/-- What holds of the hosts and the channels. -/
structure Basics (cfg : Config) (s : State) : Prop where
  pages : AllPages cfg s
  stack : ∀ i, StackOk (s.host i)
  fetching : ∀ h, Fetching cfg s h
  routed : ∀ {a b msg}, msg ∈ s.net a b → Routed cfg a b msg
  relayed : ∀ {a b msg}, msg ∈ s.net a b → Relayed cfg a b msg
  barrier : ∃ log, (Barrier.rounds cfg).Ok (s, log)
  outside : ∀ i, cfg.hostc ≤ i → ∀ p < cfg.npages,
    ((s.host i).m.page p).homepid = cfg.layout.owner p

section Steps

variable {s : State}

/-- An answer on its way finds its host inside the barrier. -/
theorem Basics.down_waiting (hb : Basics cfg s) {src dst : Nat} {msg : Msg} {rest : List Msg}
    (hnet : s.net src dst = msg :: rest) (hdown : Barrier.down msg = true) :
    dst < cfg.hostc ∧ (s.host dst).y.barrwait = true := by
  obtain ⟨log, hok⟩ := hb.barrier
  have hmem : msg ∈ s.net src dst := by
    rw [hnet]
    exact List.mem_cons_self
  obtain ⟨hdst, -, hflag⟩ := hok.hearing hnet (hb.relayed hmem) hdown
  exact ⟨hdst, hflag⟩

/-- A host that sees itself as a home takes part. -/
theorem Basics.home_lt (hb : Basics cfg s) {p i : Nat} (hp : p < cfg.npages)
    (hself : ((s.host i).m.page p).homepid = i) : i < cfg.hostc := by
  by_contra hge
  have howner := hb.outside i (not_lt.mp hge) p hp
  have hlt := cfg.layout.owner_lt p hp
  omega

theorem basics_init : Basics cfg (initState cfg) where
  pages := reach_pages .start
  stack := reach_stackOk .start
  fetching := reach_fetching .start
  routed := fun hm => reach_routed .start hm
  relayed := fun hm => reach_relayed .start hm
  barrier := ⟨_, (Barrier.rounds cfg).ok_init⟩
  outside i hi p hp := by
    change ((initmem cfg i).page p).homepid = cfg.layout.owner p
    simp [initmem, hp]

theorem basics_main {i : Nat} {a : Act} {hst : Host} {out : Out} (hb : Basics cfg s)
    (hi : i < cfg.hostc) (hm : Main cfg i (s.host i) a hst out) :
    Basics cfg (s.put i hst out) where
  pages := hb.pages.main (hb.stack i) hm
  stack j := by
    by_cases hj : j = i
    · subst hj
      rw [State.put_host_same]
      exact stackOk_main (hb.stack j) hm
    · rw [State.put_host_of_ne _ _ _ hj]
      exact hb.stack j
  fetching := fetching_main hb.fetching (hb.pages.host i).tables (hb.stack i) hm
  routed := by
    intro x y msg hmem
    rw [State.put_net] at hmem
    rcases mem_send.mp hmem with hold | ⟨rfl, hnew⟩
    · exact hb.routed hold
    · exact (main_routed (hb.stack x) hm hnew).2
  relayed := by
    intro x y msg hmem
    rw [State.put_net] at hmem
    rcases mem_send.mp hmem with hold | ⟨rfl, hnew⟩
    · exact hb.relayed hold
    · exact relayed_of_isRequest (main_routed (hb.stack x) hm hnew).1
  barrier := by
    obtain ⟨log, hok⟩ := hb.barrier
    refine ⟨(Barrier.rounds cfg).noteSent log i out, ?_⟩
    refine (Barrier.rounds cfg).ok_of_step hok ((Barrier.rounds cfg).view_main hi (hb.stack i) hm) ?_
    exact (Barrier.rounds cfg).ready_main (hb.stack i) hm hok.ready
  outside j hj p hp := by
    rw [State.put_host_of_ne _ _ _ (by omega)]
    exact hb.outside j hj p hp

/-- The history of the barrier goes on with a message that is handled. -/
theorem Basics.ok_served {log : RoundLog} {src dst : Nat} {rnd : List Nat} {msg : Msg}
    {rest : List Msg} {hst : Host} {out : Out} (hb : Basics cfg s)
    (hok : (Barrier.rounds cfg).Ok (s, log)) (hnet : s.net src dst = msg :: rest)
    (hm : Served cfg dst (s.host dst) src rnd msg hst out) :
    (Barrier.rounds cfg).Ok ({ s with net := drop s.net src dst }.put dst hst out,
      (Barrier.rounds cfg).noteHandled log src dst msg out) := by
  have hmem : msg ∈ s.net src dst := by
    rw [hnet]
    exact List.mem_cons_self
  refine (Barrier.rounds cfg).ok_of_step hok ((Barrier.rounds cfg).view_served hnet
    (hb.routed hmem) (hb.relayed hmem) hm hok.ready) ?_
  refine (Barrier.rounds cfg).ready_served (hb.routed hmem) (hb.relayed hmem) hm hok.ready ?_
  exact hok.records.recorded_late hok.inv (Nat.lt_succ_self _)

theorem basics_served {src dst : Nat} {rnd : List Nat} {msg : Msg} {rest : List Msg} {hst : Host}
    {out : Out} (hb : Basics cfg s) (hnet : s.net src dst = msg :: rest)
    (hm : Served cfg dst (s.host dst) src rnd msg hst out) :
    Basics cfg ({ s with net := drop s.net src dst }.put dst hst out) := by
  have hmem : msg ∈ s.net src dst := by
    rw [hnet]
    exact List.mem_cons_self
  have hin := hb.routed hmem
  have hrel := hb.relayed hmem
  have hwaits : Barrier.down msg = true → dst < cfg.hostc ∧ (s.host dst).y.barrwait = true :=
    hb.down_waiting hnet
  refine ⟨hb.pages.served (hb.stack dst) hnet hin (fun hd => (hwaits hd).2) hm, ?_, ?_, ?_, ?_, ?_,
    ?_⟩
  · intro j
    by_cases hj : j = dst
    · subst hj
      rw [State.put_host_same]
      exact stackOk_served (hb.stack j) hm
    · rw [State.put_host_of_ne _ _ _ hj]
      exact hb.stack j
  · exact fetching_served hb.fetching hnet (hb.pages.host dst).tables (hb.pages.net hmem) hin hm
  · intro x y msg' hmem'
    rw [State.put_net] at hmem'
    rcases mem_send.mp hmem' with hold | ⟨rfl, hnew⟩
    · exact hb.routed (mem_of_mem_drop hold)
    · exact (served_routed hin hm hnew).2
  · intro x y msg' hmem'
    rw [State.put_net] at hmem'
    rcases mem_send.mp hmem' with hold | ⟨rfl, hnew⟩
    · exact hb.relayed (mem_of_mem_drop hold)
    · exact served_relayed hin hrel hm hnew
  · obtain ⟨log, hok⟩ := hb.barrier
    exact ⟨_, hb.ok_served hok hnet hm⟩
  · intro j hj p hp
    by_cases hd : j = dst
    · subst hd
      rw [State.put_host_same]
      have hdown : Barrier.down msg = false := by
        by_contra hne
        rw [Bool.not_eq_false] at hne
        have hlt := (hwaits hne).1
        omega
      have hk := homeKept_served (served_mem (hb.pages.host j).tables (hb.pages.net hmem) hin hm)
        hdown
      rw [hk.homepid, hb.outside j hj p hp]
    · rw [State.put_host_of_ne _ _ _ hd]
      exact hb.outside j hj p hp

/-! ## A server thread that sets flags, and one that answers -/

section Flags

variable {dst : Nat} {m : MemState}

end Flags

section Answers

variable {src dst : Nat} {addr : Addr} {temp : Bool} {rest : List Msg} {wv : BitVec Wvbits}
  {data : Page} {xs : List ExtraPage}

end Answers

theorem reach_basics (hs : (system cfg).Reach s) : Basics cfg s := by
  refine hs.invariant (I := Basics cfg) basics_init ?_
  intro s e s' hreach hb hnext
  rcases step_view hnext with ⟨i, act, hst, out, -, hi, hm, -, rfl⟩ |
    ⟨src, dst, rnd, msg, rest, hst, out, -, hnet, hm, -, rfl⟩
  · exact basics_main hb hi hm
  · exact basics_served hb hnet hm

end Steps

end Jiajia
