import Jiajia.Syn
import Jiajia.Lib.Transition
import Mathlib.Algebra.BigOperators.Group.Finset.Basic
import Mathlib.Algebra.BigOperators.Intervals

/-!
# The diffs of one interval

`endinterval` page by page and message by message, against homes that handle
DIFF messages and change their own pages at any time in between.
-/

namespace Jiajia.EndInterval

open Transition Host

/-- The memory of a host that enters `endinterval`: the written slots hold
different pages of known homes, each with a twin. -/
structure DirtyCache (cfg : Config) where
  m : MemState
  diffwait_eq : m.diffwait = 0
  home_lt : ∀ c < cfg.cachepages, (m.cache c).wtnt → m.homehost cfg (m.cache c).addr < cfg.hostc
  readable : ∀ c < cfg.cachepages, (m.cache c).wtnt → m.Readable (cfg.pagei (m.cache c).addr)
  twin : ∀ c < cfg.cachepages, (m.cache c).wtnt → (m.cache c).twin.isSome
  inj : ∀ c < cfg.cachepages, ∀ c' < cfg.cachepages, (m.cache c).wtnt → (m.cache c').wtnt →
    cfg.pagei (m.cache c).addr = cfg.pagei (m.cache c').addr → c = c'

/-- Where the main thread is in `endinterval`. -/
inductive Phase
  /-- In the loop over the cache, before slot `cachei`. -/
  | save (cachei : Nat)
  /-- In `senddiffs`, before host `hosti`. -/
  | send (hosti : Nat)
  /-- At `while (diffwait)`. -/
  | wait
  /-- `endinterval` has returned. -/
  | done
deriving DecidableEq, Repr

/-- The state of one `endinterval`: `net` and `acks` are the DIFF and DIFFGRANT
messages in flight, by home. -/
structure Flow where
  phase : Phase
  y : SynState
  diffmsg : Nat → List PageDiff
  diffwait : Nat
  net : Nat → List (List PageDiff)
  acks : Nat → Nat
  homes : Nat → MemState

inductive Event
  | main
  /-- `diffserver` on home `hosti`. -/
  | handle (hosti : Nat)
  /-- `diffgrantserver` for an acknowledgement of home `hosti`. -/
  | ack (hosti : Nat)
  /-- Anything else home `hosti` does to its memory. -/
  | env (hosti : Nat) (m : MemState)

variable {cfg : Config} (pid : Nat) (D : DirtyCache cfg)

def main (f : Flow) : Result Flow :=
  match f.phase with
  | .save c =>
      if c < cfg.cachepages then
        if (D.m.cache c).wtnt then do
          let diffmsg ← savediff cfg D.m f.diffmsg c
          return { f with
            phase := .save (c + 1), diffmsg := diffmsg, y := f.y.saveTop (D.m.cache c).addr pid }
        else return { f with phase := .save (c + 1) }
      else return { f with phase := .send 0 }
  | .send k =>
      if k < cfg.hostc then
        if f.diffmsg k ≠ [] then
          return { f with
            phase := .send (k + 1), diffmsg := upd f.diffmsg k [], diffwait := f.diffwait + 1
            net := upd f.net k (f.net k ++ [f.diffmsg k]) }
        else return { f with phase := .send (k + 1) }
      else return { f with phase := .wait }
  | .wait => do
      await (f.diffwait = 0)
      return { f with phase := .done }
  | .done => .error .blocked

def step (f : Flow) : Event → Result Flow
  | .main => main pid D f
  | .handle k =>
      match f.net k with
      | [] => .error .blocked
      | ds :: rest => do
          let (m, _) ← (f.homes k).diffserver cfg pid ds
          return { f with
            net := upd f.net k rest, acks := upd f.acks k (f.acks k + 1), homes := upd f.homes k m }
  | .ack k => do
      await (0 < f.acks k)
      return { f with acks := upd f.acks k (f.acks k - 1), diffwait := f.diffwait - 1 }
  | .env k m => .ok { f with homes := upd f.homes k m }

/-- A DIFF message that was handled, with the memory of the home before and after. -/
structure Handled where
  home : Nat
  diffs : List PageDiff
  before : MemState
  after : MemState

/-- The DIFF messages enqueued and handled so far. -/
structure Log where
  sent : List (Nat × List PageDiff)
  handled : List Handled

def observer (cfg : Config) : System.Observer Flow Event Log where
  start := ⟨[], []⟩
  obs l f e f' :=
    match e with
    | .main =>
        match f.phase with
        | .send k =>
            if k < cfg.hostc ∧ f.diffmsg k ≠ [] then
              { l with sent := l.sent ++ [(k, f.diffmsg k)] }
            else l
        | _ => l
    | .handle k =>
        { l with
          handled := l.handled ++ [⟨k, (f.net k).headD [], f.homes k, f'.homes k⟩] }
    | _ => l

/-- `endinterval` from its start, for any notices on the stack and any memory of
the homes. -/
def flow (y : SynState) (homes : Nat → MemState) : System (Flow × Log) Event :=
  System.withHist
    { start := ⟨.save 0, y, fun _ => [], D.m.diffwait, fun _ => [], fun _ => 0, homes⟩
      next := fun f e f' => step pid D f e = .ok f' } (observer cfg)

/-! ## What has to arrive -/

/-- The diff of a written slot. -/
def diffOf (c : Nat) : PageDiff :=
  encodediff (D.m.cache c).addr (D.m.mem (cfg.pagei (D.m.cache c).addr))
    ((D.m.cache c).twin.getD zeroPage)

/-- Written slots below `n` whose page has home `k`. -/
def slotsOf (k n : Nat) : List Nat :=
  (List.range n).filter fun c =>
    (D.m.cache c).wtnt ∧ D.m.homehost cfg (D.m.cache c).addr = k

/-- The diffs for home `k` among the slots below `n`. -/
def diffsOf (k n : Nat) : List PageDiff := (slotsOf D k n).map (diffOf D)

/-- Every dirty page has reached its home exactly once. -/
structure Delivered (f : Flow) (l : Log) : Prop where
  /-- The diff of a page is in one DIFF message, once, to the home of the page. -/
  sent_once : ∀ c < cfg.cachepages, (D.m.cache c).wtnt → ∃ ds,
    l.sent.filter (fun x => (diffOf D c).addr ∈ x.2.map PageDiff.addr) =
      [(D.m.homehost cfg (D.m.cache c).addr, ds)] ∧
    ds.filter (fun d => d.addr = (diffOf D c).addr) = [diffOf D c]
  /-- Every message sent was handled, once, by the home it was sent to. -/
  handled_once : ∀ k, (l.handled.filter fun r => r.home = k).map Handled.diffs =
    (l.sent.filter fun x => x.1 = k).map Prod.snd
  /-- Every message was acknowledged. -/
  drained : ∀ k, f.net k = [] ∧ f.acks k = 0
  /-- Handling a message merges the changed words of its pages into the home. -/
  merged : ∀ r ∈ l.handled, ∀ c < cfg.cachepages, (D.m.cache c).wtnt →
    diffOf D c ∈ r.diffs →
      r.after.mem (cfg.pagei (D.m.cache c).addr) =
        mergeDiff (D.m.mem (cfg.pagei (D.m.cache c).addr)) ((D.m.cache c).twin.getD zeroPage)
          (r.before.mem (cfg.pagei (D.m.cache c).addr))
  /-- Handling a message changes no other page. -/
  frame : ∀ r ∈ l.handled, ∀ p, (∀ d ∈ r.diffs, cfg.pagei d.addr ≠ p) →
    r.after.mem p = r.before.mem p

/-- `endinterval` does its work for this cache: it is defined at every step,
`diffwait` is 0 only when all messages sent are acknowledged, and when it
returns every dirty page has reached its home. -/
def Reliable : Prop :=
  ∀ y homes f l, (flow pid D y homes).Reach (f, l) →
    (∀ what, main pid D f ≠ .error (.undefined what)) ∧
    (f.phase = .wait → f.diffwait = 0 → ∀ k, f.net k = [] ∧ f.acks k = 0) ∧
    (f.phase = .done → Delivered D f l)

/-- The diffs for each home fit in one DIFF message. -/
def Fits : Prop := ∀ k < cfg.hostc, diffmsgSize (diffsOf D k cfg.cachepages) ≤ Maxmsgsize

/-! ## Static facts -/

section Static

variable {D}

theorem savediff_eq {c : Nat} (hc : c < cfg.cachepages) (hw : (D.m.cache c).wtnt)
    (diffmsg : Nat → List PageDiff) :
    savediff cfg D.m diffmsg c =
      if diffmsgSize (diffmsg (D.m.homehost cfg (D.m.cache c).addr)) + (diffOf D c).size ≤ Maxmsgsize
      then .ok (upd diffmsg (D.m.homehost cfg (D.m.cache c).addr)
        (diffmsg (D.m.homehost cfg (D.m.cache c).addr) ++ [diffOf D c]))
      else .error (.undefined "uninitialised slot") := by
  have htwin := D.twin c hc hw
  rw [Option.isSome_iff_exists] at htwin
  obtain ⟨twin, htwin⟩ := htwin
  have hdiff : diffOf D c = encodediff (D.m.cache c).addr
      (D.m.mem (cfg.pagei (D.m.cache c).addr)) twin := by
    simp [diffOf, htwin]
  have hread := D.readable c hc hw
  simp only [savediff, htwin, defined, if_pos hread, hdiff, bind, Except.bind]
  by_cases hsize : diffmsgSize (diffmsg (D.m.homehost cfg (D.m.cache c).addr)) +
      (encodediff (D.m.cache c).addr (D.m.mem (cfg.pagei (D.m.cache c).addr)) twin).size ≤ Maxmsgsize
  · rw [if_pos hsize, if_pos hsize]
    rfl
  · rw [if_neg hsize, if_neg hsize]

theorem slotsOf_succ (k n : Nat) :
    slotsOf D k (n + 1) = slotsOf D k n ++
      if (D.m.cache n).wtnt ∧ D.m.homehost cfg (D.m.cache n).addr = k then [n] else [] := by
  rw [slotsOf, List.range_succ, List.filter_append, ← slotsOf]
  congr 1
  simp only [List.filter_cons, List.filter_nil, decide_eq_true_eq]

theorem diffsOf_succ (k n : Nat) :
    diffsOf D k (n + 1) = diffsOf D k n ++
      if (D.m.cache n).wtnt ∧ D.m.homehost cfg (D.m.cache n).addr = k then [diffOf D n] else [] := by
  rw [diffsOf, slotsOf_succ, List.map_append, ← diffsOf]
  congr 1
  split <;> rfl

theorem mem_slotsOf {k n c : Nat} :
    c ∈ slotsOf D k n ↔ c < n ∧ (D.m.cache c).wtnt ∧ D.m.homehost cfg (D.m.cache c).addr = k := by
  simp [slotsOf]

theorem slotsOf_nodup (k n : Nat) : (slotsOf D k n).Nodup := List.nodup_range.filter _

theorem diffmsgSize_append (ds ds' : List PageDiff) :
    diffmsgSize (ds ++ ds') = diffmsgSize ds + diffmsgSize ds' := by
  simp [diffmsgSize]

theorem diffmsgSize_mono {k n n' : Nat} (h : n ≤ n') :
    diffmsgSize (diffsOf D k n) ≤ diffmsgSize (diffsOf D k n') := by
  induction n' with
  | zero =>
      obtain rfl : n = 0 := by omega
      exact Nat.le_refl _
  | succ n' ih =>
      rcases Nat.lt_or_eq_of_le h with hlt | rfl
      · rw [diffsOf_succ, diffmsgSize_append]
        have := ih (by omega)
        omega
      · exact Nat.le_refl _

/-- Different written slots have diffs for different pages. -/
theorem diffOf_inj {c c' : Nat} (hc : c < cfg.cachepages) (hc' : c' < cfg.cachepages)
    (hw : (D.m.cache c).wtnt) (hw' : (D.m.cache c').wtnt)
    (h : (diffOf D c).addr = (diffOf D c').addr) : c = c' :=
  D.inj c hc c' hc' hw hw' (congrArg cfg.pagei h)

/-- The diffs of one home for one address: the diff of the slot, if it is there. -/
theorem filter_diffsOf {k c : Nat} (hc : c < cfg.cachepages) (hw : (D.m.cache c).wtnt) :
    (diffsOf D k cfg.cachepages).filter (fun d => d.addr = (diffOf D c).addr) =
      if D.m.homehost cfg (D.m.cache c).addr = k then [diffOf D c] else [] := by
  have hslots : (slotsOf D k cfg.cachepages).filter
      ((fun d : PageDiff => decide (d.addr = (diffOf D c).addr)) ∘ diffOf D) =
      (slotsOf D k cfg.cachepages).filter (fun c' => decide (c' = c)) := by
    apply List.filter_congr
    intro c' hc'
    rw [mem_slotsOf] at hc'
    simp only [Function.comp_apply, decide_eq_decide]
    constructor
    · exact fun h => diffOf_inj hc'.1 hc hc'.2.1 hw h
    · rintro rfl
      rfl
  rw [diffsOf, List.filter_map, hslots, List.filter_eq, (slotsOf_nodup k _).count]
  by_cases hk : D.m.homehost cfg (D.m.cache c).addr = k
  · rw [if_pos (mem_slotsOf.mpr ⟨hc, hw, hk⟩), if_pos hk]
    rfl
  · rw [if_neg (fun h => hk (mem_slotsOf.mp h).2.2), if_neg hk]
    rfl

theorem filter_diffsOf_pagei {k c : Nat} (hc : c < cfg.cachepages) (hw : (D.m.cache c).wtnt)
    (hk : D.m.homehost cfg (D.m.cache c).addr = k) :
    (diffsOf D k cfg.cachepages).filter
      (fun d => cfg.pagei d.addr = cfg.pagei (D.m.cache c).addr) = [diffOf D c] := by
  have hcongr : (diffsOf D k cfg.cachepages).filter
      (fun d => cfg.pagei d.addr = cfg.pagei (D.m.cache c).addr) =
      (diffsOf D k cfg.cachepages).filter (fun d => d.addr = (diffOf D c).addr) := by
    apply List.filter_congr
    intro d hd
    simp only [diffsOf, List.mem_map, mem_slotsOf] at hd
    obtain ⟨c', ⟨hc', hw', -⟩, rfl⟩ := hd
    simp only [decide_eq_decide]
    constructor
    · intro h
      rw [D.inj c' hc' c hc hw' hw h]
    · exact fun h => congrArg cfg.pagei h
  rw [hcongr, filter_diffsOf hc hw, if_pos hk]

end Static

/-! ## The invariant of one interval -/

namespace Phase

/-- Slots whose diff has been taken. -/
def saved (cachepages : Nat) : Phase → Nat
  | .save c => c
  | _ => cachepages

/-- Hosts `senddiffs` has passed. -/
def passed (hostc : Nat) : Phase → Nat
  | .save _ => 0
  | .send k => k
  | _ => hostc

end Phase

/-- The messages `senddiffs` has sent when it has passed the hosts below `n`. -/
def sentTo (n : Nat) : List (Nat × List PageDiff) :=
  ((List.range n).filter fun k => diffsOf D k cfg.cachepages ≠ []).map fun k =>
    (k, diffsOf D k cfg.cachepages)

/-- What holds at every step of `endinterval`. -/
structure Inv (f : Flow) (l : Log) : Prop where
  saved_le : f.phase.saved cfg.cachepages ≤ cfg.cachepages
  passed_le : f.phase.passed cfg.hostc ≤ cfg.hostc
  /-- Diffs wait in the message of their home until `senddiffs` passes it. -/
  diffmsg_eq : ∀ k, f.diffmsg k = if k < f.phase.passed cfg.hostc then []
    else diffsOf D k (f.phase.saved cfg.cachepages)
  sent_eq : l.sent = sentTo D (f.phase.passed cfg.hostc)
  /-- Each channel holds the messages sent and not yet handled. -/
  flight : ∀ k, (l.handled.filter fun r => r.home = k).map Handled.diffs ++ f.net k =
    (l.sent.filter fun x => x.1 = k).map Prod.snd
  /-- `diffwait` counts the messages and the acknowledgements in flight. -/
  diffwait_eq : f.diffwait = ∑ k ∈ Finset.range cfg.hostc, ((f.net k).length + f.acks k)
  outside : ∀ k, cfg.hostc ≤ k → f.net k = [] ∧ f.acks k = 0
  done_drained : f.phase = .done → f.diffwait = 0
  handled_ok : ∀ r ∈ l.handled, MemState.applyDiffs cfg pid r.before r.diffs = .ok r.after

section Invariant

variable {pid} {D} {f f' : Flow} {l : Log}

theorem sentTo_succ (n : Nat) :
    sentTo D (n + 1) = sentTo D n ++
      if diffsOf D n cfg.cachepages ≠ [] then [(n, diffsOf D n cfg.cachepages)] else [] := by
  rw [sentTo, List.range_succ, List.filter_append, List.map_append, ← sentTo]
  congr 1
  by_cases h : diffsOf D n cfg.cachepages = []
  · simp [h]
  · simp [h]

/-- Nothing is in flight exactly when `diffwait` is 0. -/
theorem Inv.drained (h : Inv pid D f l) (h0 : f.diffwait = 0) (k : Nat) :
    f.net k = [] ∧ f.acks k = 0 := by
  by_cases hk : k < cfg.hostc
  · have hsum := h.diffwait_eq
    rw [h0, eq_comm, Finset.sum_eq_zero_iff] at hsum
    have hzero := hsum k (Finset.mem_range.mpr hk)
    rw [Nat.add_eq_zero_iff, List.length_eq_zero_iff] at hzero
    exact hzero
  · exact h.outside k (by omega)

theorem inv_start (y : SynState) (homes : Nat → MemState) :
    Inv pid D ⟨.save 0, y, fun _ => [], D.m.diffwait, fun _ => [], fun _ => 0, homes⟩ ⟨[], []⟩ where
  saved_le := Nat.zero_le _
  passed_le := Nat.zero_le _
  diffmsg_eq k := by simp [Phase.passed, Phase.saved, diffsOf, slotsOf]
  sent_eq := by simp [Phase.passed, sentTo]
  flight k := rfl
  diffwait_eq := by simp [D.diffwait_eq]
  outside k _ := ⟨rfl, rfl⟩
  done_drained := by simp
  handled_ok := by simp

theorem inv_save {c : Nat} (h : Inv pid D f l) (hphase : f.phase = .save c)
    (hstep : main pid D f = .ok f') : Inv pid D f' l := by
  have hdiffmsg : ∀ k, f.diffmsg k = diffsOf D k c := by
    intro k
    simpa [hphase, Phase.passed, Phase.saved] using h.diffmsg_eq k
  have hsent : l.sent = sentTo D 0 := by simpa [hphase, Phase.passed] using h.sent_eq
  have hle : c ≤ cfg.cachepages := by simpa [hphase, Phase.saved] using h.saved_le
  simp only [main, hphase] at hstep
  split at hstep
  · rename_i hc
    split at hstep
    · rename_i hw
      rw [savediff_eq hc hw] at hstep
      split at hstep
      · simp only [bind, Except.bind, pure, Except.pure, Except.ok.injEq] at hstep
        subst hstep
        refine ⟨hc, Nat.zero_le _, ?_, hsent, h.flight, h.diffwait_eq, h.outside, by simp,
          h.handled_ok⟩
        intro k
        simp only [Phase.passed, Phase.saved, Nat.not_lt_zero, if_false, diffsOf_succ, hw,
          true_and, hdiffmsg]
        by_cases hk : D.m.homehost cfg (D.m.cache c).addr = k
        · subst hk
          simp
        · rw [upd_of_ne _ _ (Ne.symm hk), if_neg hk, hdiffmsg, List.append_nil]
      · simp [bind, Except.bind] at hstep
    · rename_i hw
      simp only [pure, Except.pure, Except.ok.injEq] at hstep
      subst hstep
      refine ⟨hc, Nat.zero_le _, ?_, hsent, h.flight, h.diffwait_eq, h.outside, by simp,
        h.handled_ok⟩
      intro k
      simp [Phase.passed, Phase.saved, diffsOf_succ, hw, hdiffmsg]
  · rename_i hc
    simp only [pure, Except.pure, Except.ok.injEq] at hstep
    subst hstep
    obtain rfl : c = cfg.cachepages := by omega
    refine ⟨Nat.le_refl _, Nat.zero_le _, ?_, hsent, h.flight, h.diffwait_eq, h.outside, by simp,
      h.handled_ok⟩
    intro k
    simp [Phase.passed, Phase.saved, hdiffmsg]

theorem inv_send {k : Nat} (h : Inv pid D f l) (hphase : f.phase = .send k)
    (hstep : main pid D f = .ok f') : Inv pid D f' ((observer cfg).obs l f .main f') := by
  have hdiffmsg : ∀ j, f.diffmsg j = if j < k then [] else diffsOf D j cfg.cachepages := by
    intro j
    simpa [hphase, Phase.passed, Phase.saved] using h.diffmsg_eq j
  have hsent : l.sent = sentTo D k := by simpa [hphase, Phase.passed] using h.sent_eq
  have hk : f.diffmsg k = diffsOf D k cfg.cachepages := by simp [hdiffmsg]
  simp only [main, hphase] at hstep
  split at hstep
  · rename_i hlt
    split at hstep
    · rename_i hne
      have hne' : diffsOf D k cfg.cachepages ≠ [] := hk ▸ hne
      have hlog : (observer cfg).obs l f .main f' =
          { l with sent := l.sent ++ [(k, f.diffmsg k)] } := by
        simp [observer, hphase, hlt, hne]
      rw [hlog]
      simp only [pure, Except.pure, Except.ok.injEq] at hstep
      subst hstep
      refine ⟨Nat.le_refl _, hlt, ?_, ?_, ?_, ?_, ?_, by simp, h.handled_ok⟩
      · intro j
        simp only [Phase.passed, Phase.saved]
        by_cases hj : j = k
        · simp [hj]
        · rw [upd_of_ne _ _ hj, hdiffmsg]
          have hiff : j < k ↔ j < k + 1 := by omega
          simp [hiff]
      · simp [Phase.passed, sentTo_succ, hsent, hne', hk]
      · intro j
        by_cases hj : j = k
        · subst hj
          simp only [upd_same, ← List.append_assoc, h.flight j, List.filter_append]
          simp
        · simp only [upd_of_ne _ _ hj, h.flight j, List.filter_append]
          simp [Ne.symm hj]
      · simp only [h.diffwait_eq]
        rw [← Finset.add_sum_erase _ _ (Finset.mem_range.mpr hlt),
          ← Finset.add_sum_erase (Finset.range cfg.hostc)
            (fun j => (upd f.net k (f.net k ++ [f.diffmsg k]) j).length + f.acks j)
            (Finset.mem_range.mpr hlt)]
        have hrest : ∀ j ∈ (Finset.range cfg.hostc).erase k,
            (upd f.net k (f.net k ++ [f.diffmsg k]) j).length + f.acks j =
              (f.net j).length + f.acks j := by
          intro j hj
          rw [upd_of_ne _ _ (Finset.ne_of_mem_erase hj)]
        rw [Finset.sum_congr rfl hrest]
        simp only [upd_same, List.length_append, List.length_singleton]
        omega
      · intro j hj
        have hne : j ≠ k := by omega
        simpa [hne] using h.outside j hj
    · rename_i hnil
      have hnil' : diffsOf D k cfg.cachepages = [] := by simpa [hk] using hnil
      have hlog : (observer cfg).obs l f .main f' = l := by
        simp [observer, hphase, hnil]
      rw [hlog]
      simp only [pure, Except.pure, Except.ok.injEq] at hstep
      subst hstep
      refine ⟨Nat.le_refl _, hlt, ?_, ?_, h.flight, h.diffwait_eq, h.outside, by simp,
        h.handled_ok⟩
      · intro j
        simp only [Phase.passed, Phase.saved, hdiffmsg]
        by_cases hj : j = k
        · simp [hj, hnil']
        · have hiff : j < k ↔ j < k + 1 := by omega
          simp [hiff]
      · simp [Phase.passed, sentTo_succ, hsent, hnil']
  · rename_i hge
    have hle : k ≤ cfg.hostc := by simpa [hphase, Phase.passed] using h.passed_le
    obtain rfl : k = cfg.hostc := by omega
    have hlog : (observer cfg).obs l f .main f' = l := by
      simp [observer, hphase]
    rw [hlog]
    simp only [pure, Except.pure, Except.ok.injEq] at hstep
    subst hstep
    exact ⟨Nat.le_refl _, Nat.le_refl _, hdiffmsg, hsent, h.flight, h.diffwait_eq, h.outside,
      by simp, h.handled_ok⟩

theorem inv_wait (h : Inv pid D f l) (hphase : f.phase = .wait)
    (hstep : main pid D f = .ok f') : Inv pid D f' l := by
  simp only [main, hphase, bind_eq_ok, await_eq_ok, pure, Except.pure, Except.ok.injEq] at hstep
  obtain ⟨-, h0, rfl⟩ := hstep
  have hdiffmsg := h.diffmsg_eq
  have hsent := h.sent_eq
  rw [hphase] at hdiffmsg hsent
  exact ⟨Nat.le_refl _, Nat.le_refl _, hdiffmsg, hsent, h.flight, h.diffwait_eq, h.outside,
    fun _ => h0, h.handled_ok⟩

theorem inv_handle {k : Nat} (h : Inv pid D f l) (hstep : step pid D f (.handle k) = .ok f') :
    Inv pid D f' ((observer cfg).obs l f (.handle k) f') := by
  simp only [step] at hstep
  split at hstep
  · cases hstep
  · rename_i ds rest hnet
    simp only [bind_eq_ok, Prod.exists, pure, Except.pure, Except.ok.injEq] at hstep
    obtain ⟨m, out, hserve, rfl⟩ := hstep
    simp only [MemState.diffserver, bind_eq_ok, pure, Except.pure, Except.ok.injEq,
      Prod.mk.injEq] at hserve
    obtain ⟨m₁, happly, rfl, -⟩ := hserve
    have hk : k < cfg.hostc := by
      by_contra hge
      have := (h.outside k (by omega)).1
      simp [hnet] at this
    refine ⟨h.saved_le, h.passed_le, h.diffmsg_eq, h.sent_eq, ?_, ?_, ?_, h.done_drained, ?_⟩
    · intro j
      have hflight := h.flight j
      by_cases hj : j = k
      · subst hj
        rw [hnet] at hflight
        simpa [observer, hnet] using hflight
      · simpa [observer, Ne.symm hj, hj] using hflight
    · simp only [h.diffwait_eq]
      apply Finset.sum_congr rfl
      intro j _
      by_cases hj : j = k
      · subst hj
        simp only [hnet, upd_same, List.length_cons]
        omega
      · simp [hj]
    · intro j hj
      have hne : j ≠ k := by omega
      simpa [hne] using h.outside j hj
    · intro r hr
      simp only [observer, List.mem_append, List.mem_singleton] at hr
      rcases hr with hr | rfl
      · exact h.handled_ok r hr
      · simpa [hnet] using happly

theorem inv_ack {k : Nat} (h : Inv pid D f l) (hstep : step pid D f (.ack k) = .ok f') :
    Inv pid D f' l := by
  simp only [step, bind_eq_ok, await_eq_ok, pure, Except.pure, Except.ok.injEq] at hstep
  obtain ⟨-, hpos, rfl⟩ := hstep
  have hk : k < cfg.hostc := by
    by_contra hge
    have := (h.outside k (by omega)).2
    omega
  refine ⟨h.saved_le, h.passed_le, h.diffmsg_eq, h.sent_eq, h.flight, ?_, ?_, ?_, h.handled_ok⟩
  · simp only [h.diffwait_eq]
    rw [← Finset.add_sum_erase _ _ (Finset.mem_range.mpr hk),
      ← Finset.add_sum_erase (Finset.range cfg.hostc)
        (fun j => (f.net j).length + upd f.acks k (f.acks k - 1) j) (Finset.mem_range.mpr hk)]
    have hrest : ∀ j ∈ (Finset.range cfg.hostc).erase k,
        (f.net j).length + upd f.acks k (f.acks k - 1) j = (f.net j).length + f.acks j := by
      intro j hj
      rw [upd_of_ne _ _ (Finset.ne_of_mem_erase hj)]
    rw [Finset.sum_congr rfl hrest]
    simp only [upd_same]
    omega
  · intro j hj
    have hne : j ≠ k := by omega
    simpa [hne] using h.outside j hj
  · intro hdone
    simp [h.done_drained hdone]

theorem inv_step {e : Event} (h : Inv pid D f l) (hstep : step pid D f e = .ok f') :
    Inv pid D f' ((observer cfg).obs l f e f') := by
  cases e with
  | main =>
      cases hphase : f.phase with
      | save c =>
          have hlog : (observer cfg).obs l f .main f' = l := by simp [observer, hphase]
          rw [hlog]
          exact inv_save h hphase hstep
      | send k => exact inv_send h hphase hstep
      | wait =>
          have hlog : (observer cfg).obs l f .main f' = l := by simp [observer, hphase]
          rw [hlog]
          exact inv_wait h hphase hstep
      | done => simp [step, main, hphase] at hstep
  | handle k => exact inv_handle h hstep
  | ack k => exact inv_ack h hstep
  | env k m =>
      simp only [step, Except.ok.injEq] at hstep
      subst hstep
      exact ⟨h.saved_le, h.passed_le, h.diffmsg_eq, h.sent_eq, h.flight, h.diffwait_eq, h.outside,
        h.done_drained, h.handled_ok⟩

theorem inv_reach {y : SynState} {homes : Nat → MemState} {x : Flow × Log}
    (hx : (flow pid D y homes).Reach x) : Inv pid D x.1 x.2 := by
  refine hx.invariant (I := fun x => Inv pid D x.1 x.2) (inv_start y homes) ?_
  rintro ⟨f, l⟩ e ⟨f', l'⟩ - h ⟨hstep, hlog⟩
  obtain rfl : l' = (observer cfg).obs l f e f' := hlog
  exact inv_step h hstep

theorem reach_step {y : SynState} {homes : Nat → MemState} {e : Event}
    (hx : (flow pid D y homes).Reach (f, l)) (hstep : step pid D f e = .ok f') :
    (flow pid D y homes).Reach (f', (observer cfg).obs l f e f') :=
  hx.step ⟨hstep, rfl⟩

/-! ## When the interval ends well -/

theorem mem_sentTo {n k : Nat} {ds : List PageDiff} :
    (k, ds) ∈ sentTo D n ↔ k < n ∧ ds = diffsOf D k cfg.cachepages ∧ ds ≠ [] := by
  simp only [sentTo, List.mem_map, List.mem_filter, List.mem_range, decide_eq_true_eq,
    Prod.mk.injEq]
  constructor
  · rintro ⟨j, ⟨hj, hne⟩, rfl, rfl⟩
    exact ⟨hj, rfl, hne⟩
  · rintro ⟨hk, rfl, hne⟩
    exact ⟨k, ⟨hk, hne⟩, rfl, rfl⟩

theorem sentTo_nodup (n : Nat) : (sentTo D n).Nodup :=
  (List.nodup_range.filter _).map fun _ _ h => (Prod.mk.inj h).1

/-- The messages that name the page of a written slot: the one to its home. -/
theorem filter_sentTo {c : Nat} (hc : c < cfg.cachepages) (hw : (D.m.cache c).wtnt) :
    (sentTo D cfg.hostc).filter (fun x => (diffOf D c).addr ∈ x.2.map PageDiff.addr) =
      [(D.m.homehost cfg (D.m.cache c).addr,
        diffsOf D (D.m.homehost cfg (D.m.cache c).addr) cfg.cachepages)] := by
  have hself : diffOf D c ∈ diffsOf D (D.m.homehost cfg (D.m.cache c).addr) cfg.cachepages :=
    List.mem_map.mpr ⟨c, mem_slotsOf.mpr ⟨hc, hw, rfl⟩, rfl⟩
  have hmem : (D.m.homehost cfg (D.m.cache c).addr,
      diffsOf D (D.m.homehost cfg (D.m.cache c).addr) cfg.cachepages) ∈ sentTo D cfg.hostc :=
    mem_sentTo.mpr ⟨D.home_lt c hc hw, rfl, List.ne_nil_of_mem hself⟩
  have hcongr : (sentTo D cfg.hostc).filter
      (fun x => (diffOf D c).addr ∈ x.2.map PageDiff.addr) =
      (sentTo D cfg.hostc).filter (fun x => x = (D.m.homehost cfg (D.m.cache c).addr,
        diffsOf D (D.m.homehost cfg (D.m.cache c).addr) cfg.cachepages)) := by
    apply List.filter_congr
    rintro ⟨k, ds⟩ hx
    obtain ⟨-, rfl, -⟩ := mem_sentTo.mp hx
    simp only [decide_eq_decide, Prod.mk.injEq]
    constructor
    · intro h
      obtain ⟨d, hd, haddr⟩ := List.mem_map.mp h
      obtain ⟨c', hc', rfl⟩ := List.mem_map.mp hd
      rw [mem_slotsOf] at hc'
      obtain rfl : c' = c := diffOf_inj hc'.1 hc hc'.2.1 hw haddr
      rw [hc'.2.2]
      exact ⟨rfl, rfl⟩
    · rintro ⟨rfl, -⟩
      exact List.mem_map.mpr ⟨_, hself, rfl⟩
  rw [hcongr, List.filter_eq, (sentTo_nodup _).count, if_pos hmem]
  rfl

/-- Every handled message is the pending message of its home. -/
theorem Inv.handled_diffs (h : Inv pid D f l) {r : Handled} (hr : r ∈ l.handled) :
    r.diffs = diffsOf D r.home cfg.cachepages := by
  have hmem : r.diffs ∈ (l.sent.filter fun x => x.1 = r.home).map Prod.snd := by
    rw [← h.flight r.home]
    apply List.mem_append_left
    exact List.mem_map.mpr ⟨r, List.mem_filter.mpr ⟨hr, by simp⟩, rfl⟩
  obtain ⟨⟨k, ds⟩, hx, hds⟩ := List.mem_map.mp hmem
  obtain ⟨hx, hk⟩ := List.mem_filter.mp hx
  simp only [decide_eq_true_eq] at hk hds
  subst hk hds
  rw [h.sent_eq] at hx
  exact (mem_sentTo.mp hx).2.1

theorem Inv.delivered (h : Inv pid D f l) (hdone : f.phase = .done) : Delivered D f l := by
  have hdrained := h.drained (h.done_drained hdone)
  have hsent : l.sent = sentTo D cfg.hostc := by
    simpa [hdone, Phase.passed] using h.sent_eq
  refine ⟨?_, ?_, hdrained, ?_, ?_⟩
  · intro c hc hw
    refine ⟨_, hsent ▸ filter_sentTo hc hw, ?_⟩
    rw [filter_diffsOf hc hw, if_pos rfl]
  · intro k
    have hflight := h.flight k
    rwa [(hdrained k).1, List.append_nil] at hflight
  · intro r hr c hc hw hd
    have hdiffs := h.handled_diffs hr
    have hk : D.m.homehost cfg (D.m.cache c).addr = r.home := by
      rw [hdiffs] at hd
      obtain ⟨c', hc', hdiff⟩ := List.mem_map.mp hd
      rw [mem_slotsOf] at hc'
      obtain rfl : c' = c := diffOf_inj hc'.1 hc hc'.2.1 hw (congrArg PageDiff.addr hdiff)
      exact hc'.2.2
    rw [MemState.applyDiffs_mem (h.handled_ok r hr), hdiffs, filter_diffsOf_pagei hc hw hk]
    exact applyRuns_encodediff _ _ _ _
  · intro r hr p hp
    have hnone : (r.diffs.filter fun d => cfg.pagei d.addr = p) = [] := by
      rw [List.filter_eq_nil_iff]
      intro d hd
      simpa using hp d hd
    rw [MemState.applyDiffs_mem (h.handled_ok r hr), hnone]
    rfl

/-- With room for all diffs the loop never needs the flush. -/
theorem Inv.defined (h : Inv pid D f l) (hfits : Fits D) (what : String) :
    main pid D f ≠ .error (.undefined what) := by
  cases hphase : f.phase with
  | save c =>
      have hdiffmsg : ∀ k, f.diffmsg k = diffsOf D k c := by
        intro k
        simpa [hphase, Phase.passed, Phase.saved] using h.diffmsg_eq k
      simp only [main, hphase]
      split
      · rename_i hc
        split
        · rename_i hw
          have hsize : diffmsgSize (diffsOf D (D.m.homehost cfg (D.m.cache c).addr) (c + 1)) ≤
              Maxmsgsize := (diffmsgSize_mono hc).trans (hfits _ (D.home_lt c hc hw))
          rw [diffsOf_succ, if_pos ⟨hw, rfl⟩, diffmsgSize_append] at hsize
          rw [savediff_eq hc hw, hdiffmsg, if_pos (by simpa [diffmsgSize] using hsize)]
          simp [bind, Except.bind, pure, Except.pure]
        · simp [pure, Except.pure]
      · simp [pure, Except.pure]
  | send k =>
      simp only [main, hphase]
      split
      · split <;> simp [pure, Except.pure]
      · simp [pure, Except.pure]
  | wait =>
      simp only [main, hphase, await]
      split <;> simp [bind, Except.bind, pure, Except.pure]
  | done => simp [main, hphase]

/-- A loop that is never stuck passes every slot with its diff in a message that
has room for it. -/
theorem fits_of_defined {y : SynState} {homes : Nat → MemState}
    (h : ∀ f l, (flow pid D y homes).Reach (f, l) → ∀ what, main pid D f ≠ .error (.undefined what))
    {c : Nat} (hc : c ≤ cfg.cachepages) :
    (∃ f l, (flow pid D y homes).Reach (f, l) ∧ f.phase = .save c) ∧
      ∀ k, diffmsgSize (diffsOf D k c) ≤ Maxmsgsize := by
  induction c with
  | zero => exact ⟨⟨_, _, .start, rfl⟩, fun k => by simp [diffsOf, slotsOf, diffmsgSize]⟩
  | succ c ih =>
      obtain ⟨⟨f, l, hreach, hphase⟩, hsize⟩ := ih (by omega)
      have hdiffmsg : ∀ k, f.diffmsg k = diffsOf D k c := by
        intro k
        simpa [hphase, Phase.passed, Phase.saved] using (inv_reach hreach).diffmsg_eq k
      have hdef := h f l hreach
      by_cases hw : (D.m.cache c).wtnt
      · by_cases hroom : diffmsgSize (f.diffmsg (D.m.homehost cfg (D.m.cache c).addr)) +
            (diffOf D c).size ≤ Maxmsgsize
        · have hnext : step pid D f .main = .ok { f with
              phase := .save (c + 1), y := f.y.saveTop (D.m.cache c).addr pid
              diffmsg := upd f.diffmsg (D.m.homehost cfg (D.m.cache c).addr)
                (f.diffmsg (D.m.homehost cfg (D.m.cache c).addr) ++ [diffOf D c]) } := by
            simp only [step, main, hphase, if_pos (show c < cfg.cachepages by omega), if_pos hw,
              savediff_eq (show c < cfg.cachepages by omega) hw, if_pos hroom]
            rfl
          refine ⟨⟨_, _, reach_step hreach hnext, rfl⟩, ?_⟩
          · intro k
            rw [diffsOf_succ, diffmsgSize_append]
            by_cases hk : D.m.homehost cfg (D.m.cache c).addr = k
            · subst hk
              rw [hdiffmsg] at hroom
              simpa [hw, diffmsgSize] using hroom
            · simpa [hk, diffmsgSize] using hsize k
        · exfalso
          apply hdef "uninitialised slot"
          simp only [main, hphase, if_pos (show c < cfg.cachepages by omega), if_pos hw,
            savediff_eq (show c < cfg.cachepages by omega) hw, if_neg hroom]
          rfl
      · have hnext : step pid D f .main = .ok { f with phase := .save (c + 1) } := by
          simp only [step, main, hphase, if_pos (show c < cfg.cachepages by omega), if_neg hw]
          rfl
        refine ⟨⟨_, _, reach_step hreach hnext, rfl⟩, ?_⟩
        intro k
        simpa [diffsOf_succ, hw] using hsize k

theorem fits_of_reliable (h : Reliable pid D) : Fits D := by
  intro k _
  have hdef : ∀ f l, (flow pid D initsyn (fun _ => D.m)).Reach (f, l) →
      ∀ what, main pid D f ≠ .error (.undefined what) :=
    fun f l hreach => (h _ _ f l hreach).1
  exact (fits_of_defined hdef (Nat.le_refl _)).2 k

end Invariant

/-- Dirty pages reach their homes, each exactly once, if and only if the diffs
for each home fit in one message: past that `savediff` sends through a pointer
it has not set. -/
theorem reliable_iff_fits : Reliable pid D ↔ Fits D := by
  constructor
  · exact fits_of_reliable
  · intro hfits y homes f l hreach
    have hinv := inv_reach hreach
    exact ⟨hinv.defined hfits, fun _ h0 => hinv.drained h0, hinv.delivered⟩

/-! ## Ten full pages for one home -/

/-- Two hosts with ten cache slots; host 1 is the home of ten pages. -/
def tenPages : Config := .twoHosts 10 0 10 false (by decide) (by decide)

/-- Host 0 has written every unit of the ten pages. -/
def tenDirty : DirtyCache tenPages where
  m := { initmem tenPages 0 with
    cache := fun c => ⟨.rw, tenPages.pageAddr c, some zeroPage, true⟩
    mem := fun _ _ => 1
    prot := fun _ => .readWrite }
  diffwait_eq := rfl
  home_lt := by decide
  readable := by decide
  twin := by decide
  inj := by decide

/-- The diff of a page whose units have all changed is one run. -/
theorem size_allChanged (addr : Addr) : (encodediff addr (fun _ => 1) zeroPage).size = 4112 := by
  have hzero : (encodediff 0 (fun _ => 1) zeroPage).size = 4112 := by decide +kernel
  exact hzero

/-- Their diffs take 41120 bytes. -/
theorem tenDirty_not_reliable : ¬ Reliable 0 tenDirty := by
  intro h
  have hfits := fits_of_reliable h 1 (by decide)
  have hslots : slotsOf tenDirty 1 tenPages.cachepages = List.range 10 := by decide +kernel
  have hsize : ∀ c, (diffOf tenDirty c).size = 4112 := fun c => size_allChanged _
  have hsum : diffmsgSize (diffsOf tenDirty 1 tenPages.cachepages) = 10 * 4112 := by
    rw [diffmsgSize, diffsOf, hslots, List.map_map]
    simp only [Function.comp_def, hsize, List.map_const', List.sum_replicate, List.length_range]
    rfl
  rw [hsum] at hfits
  exact absurd hfits (by decide)

end Jiajia.EndInterval
