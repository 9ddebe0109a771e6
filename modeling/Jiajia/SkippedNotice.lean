import Jiajia.Reserved

/-!
# The notice a home may leave out

`endinterval` skips a page that its home has written when `home.rdnt` is clear.
Then no other host has a copy, unless it is still in the barrier before which the
flag was cleared, and it loses that copy there.  The steps of `getpserver` may fall
anywhere between those of the home.
-/

namespace Jiajia

open Fifo Transition Host MemState Rounds

variable {cfg : Config}

/-! ## Leaving a barrier without a copy -/

/-- Host `h` is in barrier `k`, which is over, and drops page `p` or has done so. -/
structure Leaving (cfg : Config) (p h k : Nat) (s : State) (log : RoundLog) : Prop where
  lt : h < cfg.hostc
  granted : log.granted h = k
  rounds : log.rounds = k + 1
  fate : (∃ g, dueNotice cfg s p h = some g ∧ g.fromPid ≠ h ∧
      ((s.host h).m.page p).homepid ≠ h) ∨
    (dueNotice cfg s p h = none ∧ ¬ (s.host h).m.Cached cfg p)

section Steps

variable {s : State} {log : RoundLog} {p h k : Nat}

theorem Leaving.inside (hl : Leaving cfg p h k s log) (hok : (Barrier.rounds cfg).Ok (s, log))
    (hstack : StackOk (s.host h)) :
    (s.host h).y.barrwait = true ∧ (s.host h).pc = .barrwait := by
  have hinside : log.sent h = log.granted h + (s.host h).y.barrwait.toNat := hok.inv.inside h
  obtain ⟨-, hlow, hle⟩ := hok.inv.separated hl.lt hl.lt
  have hlow' : log.rounds ≤ log.arrived h := hlow
  have hle' : log.arrived h ≤ log.sent h := hle
  have hflag : (s.host h).y.barrwait = true := by
    by_contra hne
    rw [Bool.not_eq_true] at hne
    have hr := hl.rounds
    have hg := hl.granted
    rw [hne, Bool.toNat_false] at hinside
    omega
  exact ⟨hflag, hstack.barrwait hflag⟩

theorem Leaving.congr {s' : State} (hl : Leaving cfg p h k s log)
    (hdue : dueNotice cfg s' p h = dueNotice cfg s p h)
    (hpid : ((s'.host h).m.page p).homepid = ((s.host h).m.page p).homepid)
    (hcached : (s'.host h).m.Cached cfg p → (s.host h).m.Cached cfg p) :
    Leaving cfg p h k s' log := by
  refine ⟨hl.lt, hl.granted, hl.rounds, ?_⟩
  rw [hdue, hpid]
  exact hl.fate.imp id fun hnone => ⟨hnone.1, fun hc => hnone.2 (hcached hc)⟩

end Steps

/-! ## The skipped notice -/

/-- The home of page `p` is in the home loop, at the entry of `p`, whose `rdnt` is
clear. -/
structure Skips (cfg : Config) (p H : Nat) (s : State) : Prop where
  lt : H < cfg.hostc
  entry : ∃ op i n, (s.host H).pc = .scan op i n ∧ i < n ∧
    ((s.host H).m.home i).addr = cfg.pageAddr p ∧ ((s.host H).m.home i).rdnt = false

section Skips

variable {x : ServingState × ClearLog} {p H h : Nat}

/-- The host in the home loop sees itself as the home, and has not announced the page. -/
theorem Skips.home (hs : Skips cfg p H x.1.base) (hinv : ServingInv cfg x) (hp : p < cfg.npages) :
    x.2.1.granted H = x.2.1.rounds ∧ ((x.1.base.host H).m.page p).homepid = H ∧
      (x.1.base.host H).m.rdnt p = false ∧ ¬ Told cfg x.1.base x.2.1 p H := by
  obtain ⟨hlt, op, i, n, hpc, hi, haddr, hclear⟩ := hs
  obtain ⟨hb, hok, -⟩ := hinv
  have hpages := hb.pages.host H
  have hflag := ((hb.stack H).flags_down (by simp [hpc]) (by simp [hpc]) (by simp [hpc])).2.1
  obtain ⟨hup, hsent⟩ := up_to_date hok hlt hflag
  have hcompact := hpages.compact (Or.inr hflag)
  have hle := hcompact.1
  have hn := hpages.scan op i n hpc
  obtain ⟨q, hq, hqa, hqi⟩ := hpages.tables.home.entry i (by omega) (hcompact.2 i (by omega))
  obtain rfl : q = p := cfg.pageAddr_inj hq hp (hqa.symm.trans haddr)
  refine ⟨hup, ?_, ?_, ?_⟩
  · by_contra hne
    have haway := hpages.tables.home.away q hq hne
    omega
  · rw [MemState.rdnt, hqi, hclear]
  · intro ht
    cases ht with
    | scan j n' hpc' hpast =>
        rw [hpc] at hpc'
        injection hpc' with _ hj
        omega
    | drain hpc' =>
        rw [hpc] at hpc'
        cases hpc'
    | sent m nt hmsg =>
        have hlate : x.2.1.offered H x.2.1.rounds = [] := hok.records.late H _ hsent.le
        rw [hlate] at hmsg
        cases hmsg

end Skips

end Jiajia
