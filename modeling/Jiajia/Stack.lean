import Jiajia.Steps

/-!
# The lock stack and the flags of a host

What holds of the synchronisation state of every host in every run: the locks
on the stack are different, the barrier is at the bottom, and a flag is set
only while the main thread waits for it.
-/

namespace Jiajia

namespace SynState

/-- The locks on the stack, top first. -/
def ids (y : SynState) : List Nat := (y.top :: y.below).map StackEntry.lockid

theorem ids_eq (y : SynState) : y.ids = y.top.lockid :: y.below.map StackEntry.lockid := rfl

end SynState

namespace Host

variable {cfg : Config} {pid : Nat} {h h' : Host} {out : Out}

/-- What the checks before an operation leave known while it runs. -/
def PcOk (y : SynState) : Pc → Prop
  | .scan op _ _ => Allowed y op
  | .drain op => Allowed y op
  | .acqwait l => Allowed y (.acq l)
  | .barrwait => y.below = []
  | .barrsync => y.below = []
  | _ => True

structure StackOk (h : Host) : Prop where
  nodup : h.y.ids.Nodup
  bottom : ∃ ls, h.y.ids = ls ++ [hidelock]
  lt : ∀ l ∈ h.y.ids, l ≠ hidelock → l < Maxlocks
  pc : PcOk h.y h.pc
  acqwait : h.y.acqwait → ∃ l, h.pc = .acqwait l
  barrwait : h.y.barrwait → h.pc = .barrwait
  waitwait : h.y.waitwait → h.pc = .waitwait ∨ h.pc = .barrsync

theorem allowed_acq_iff {y : SynState} {l : Nat} :
    Allowed y (.acq l) ↔ l < Maxlocks ∧ l ∉ y.ids := by
  simp only [Allowed, SynState.ids, List.mem_map, not_exists, not_and]

/-- Saving notices changes nothing that `StackOk` is about. -/
theorem SameButTop.ids_eq {y y' : SynState} (hy : SameButTop y y') : y'.ids = y.ids := by
  obtain ⟨l, rfl⟩ := hy
  rfl

theorem SameButTop.allowed {y y' : SynState} {op : SynOp} (hy : SameButTop y y')
    (ho : Allowed y op) : Allowed y' op := by
  have hids := hy.ids_eq
  cases op with
  | acq l =>
      rw [allowed_acq_iff] at ho ⊢
      rwa [hids]
  | rel l =>
      obtain ⟨l', rfl⟩ := hy
      exact ho
  | barr =>
      obtain ⟨l', rfl⟩ := hy
      exact ho

theorem SameButTop.flags {y y' : SynState} (hy : SameButTop y y') :
    y'.acqwait = y.acqwait ∧ y'.barrwait = y.barrwait ∧ y'.waitwait = y.waitwait ∧
      y'.locks = y.locks ∧ y'.below = y.below ∧ y'.top.lockid = y.top.lockid := by
  obtain ⟨l, rfl⟩ := hy
  exact ⟨rfl, rfl, rfl, rfl, rfl, rfl⟩

theorem SameButTop.managed {y y' : SynState} (hy : SameButTop y y') :
    y'.locks = y.locks ∧ y'.noclearlocks = y.noclearlocks := by
  obtain ⟨l, rfl⟩ := hy
  exact ⟨rfl, rfl⟩

theorem stackOk_init : StackOk (initHost cfg pid) where
  nodup := by simp [initHost, initsyn, SynState.ids]
  bottom := ⟨[], rfl⟩
  lt := by simp [initHost, initsyn, SynState.ids]
  pc := trivial
  acqwait := by simp [initHost, initsyn]
  barrwait := by simp [initHost, initsyn]
  waitwait := by simp [initHost, initsyn]

/-- `StackOk` does not depend on the memory, and only on flags that are set. -/
theorem StackOk.mono {y : SynState} {m : MemState} {pc : Pc} (hok : StackOk h)
    (hids : y.ids = h.y.ids) (hpc : PcOk y pc)
    (hacq : y.acqwait → ∃ l, pc = .acqwait l) (hbarr : y.barrwait → pc = .barrwait)
    (hwait : y.waitwait → pc = .waitwait ∨ pc = .barrsync) : StackOk ⟨m, y, pc⟩ where
  nodup := hids ▸ hok.nodup
  bottom := hids ▸ hok.bottom
  lt := hids ▸ hok.lt
  pc := hpc
  acqwait := hacq
  barrwait := hbarr
  waitwait := hwait

/-- Outside the waits the flags are down. -/
theorem StackOk.flags_down (hok : StackOk h) (h₁ : ∀ l, h.pc ≠ .acqwait l)
    (h₂ : h.pc ≠ .barrwait) (h₃ : h.pc ≠ .waitwait ∧ h.pc ≠ .barrsync) :
    h.y.acqwait = false ∧ h.y.barrwait = false ∧ h.y.waitwait = false := by
  refine ⟨?_, ?_, ?_⟩
  · by_contra hne
    obtain ⟨l, hl⟩ := hok.acqwait (by simpa using hne)
    exact h₁ l hl
  · by_contra hne
    exact h₂ (hok.barrwait (by simpa using hne))
  · by_contra hne
    rcases hok.waitwait (by simpa using hne) with hw | hw
    · exact h₃.1 hw
    · exact h₃.2 hw

/-- A step between two situations in which no flag is up. -/
theorem StackOk.quiet {y : SynState} {m : MemState} {pc : Pc} (hok : StackOk h)
    (h₁ : ∀ l, h.pc ≠ .acqwait l) (h₂ : h.pc ≠ .barrwait)
    (h₃ : h.pc ≠ .waitwait ∧ h.pc ≠ .barrsync) (hy : SameButTop h.y y) (hpc : PcOk y pc) :
    StackOk ⟨m, y, pc⟩ := by
  obtain ⟨ha, hb, hw⟩ := hok.flags_down h₁ h₂ h₃
  obtain ⟨ha', hb', hw', -, -, -⟩ := hy.flags
  exact hok.mono hy.ids_eq hpc (by simp [ha', ha]) (by simp [hb', hb]) (by simp [hw', hw])

theorem stackOk_acquired {l : Nat} {y : SynState} {m : MemState} (hok : StackOk h)
    (hpc : h.pc = .acqwait l) (hwait : h.y.acqwait = false) (hy : h.y.pushstack l = .ok y) :
    StackOk ⟨m, y, .app⟩ := by
  have hallowed : Allowed h.y (.acq l) := by
    have hpcok := hok.pc
    rwa [hpc] at hpcok
  rw [allowed_acq_iff] at hallowed
  have hids : y.ids = l :: h.y.ids := by
    rw [pushstack_ok hy]
    rfl
  have hbarr : h.y.barrwait = false := by
    by_contra hne
    have hcontra := hok.barrwait (by simpa using hne)
    rw [hpc] at hcontra
    cases hcontra
  have hww : h.y.waitwait = false := by
    by_contra hne
    have hcontra := hok.waitwait (by simpa using hne)
    rw [hpc] at hcontra
    rcases hcontra with hcontra | hcontra <;> cases hcontra
  obtain ⟨ls, hls⟩ := hok.bottom
  refine ⟨?_, ⟨l :: ls, by simp [hids, hls]⟩, ?_, trivial, ?_, ?_, ?_⟩
  · rw [hids, List.nodup_cons]
    exact ⟨hallowed.2, hok.nodup⟩
  · intro l' hl' hne
    rw [hids, List.mem_cons] at hl'
    rcases hl' with rfl | hl'
    · exact hallowed.1
    · exact hok.lt l' hl' hne
  · simp [pushstack_ok hy, hwait]
  · simp [pushstack_ok hy, hbarr]
  · simp [pushstack_ok hy, hww]

theorem stackOk_release {l : Nat} {y : SynState} {m : MemState} (hok : StackOk h)
    (hpc : h.pc = .drain (.rel l)) (hy : h.y.popstack = .ok y) : StackOk ⟨m, y, .app⟩ := by
  obtain ⟨top, below, hbelow, rfl⟩ := popstack_ok hy
  obtain ⟨ha, hb, hw⟩ := hok.flags_down (by simp [hpc]) (by simp [hpc]) (by simp [hpc])
  have hids : h.y.ids = h.y.top.lockid :: (top :: below).map StackEntry.lockid := by
    rw [SynState.ids_eq, hbelow]
  have hnodup := hok.nodup
  rw [hids, List.nodup_cons] at hnodup
  obtain ⟨ls, hls⟩ := hok.bottom
  refine ⟨hnodup.2, ?_, ?_, trivial, by simp [ha], by simp [hb], by simp [hw]⟩
  · rw [hids] at hls
    cases ls with
    | nil => simp at hls
    | cons l' ls =>
        rw [List.cons_append, List.cons.injEq] at hls
        exact ⟨ls, hls.2⟩
  · intro l' hl' hne
    exact hok.lt l' (by rw [hids]; exact List.mem_cons_of_mem _ hl') hne

theorem stackOk_main {a : Act} (hok : StackOk h) (hm : Main cfg pid h a h' out) :
    StackOk h' := by
  cases hm with
  | load hpc hp hread => exact hok
  | store hpc hp hprot =>
      exact hok.quiet (by simp [hpc]) (by simp [hpc]) (by simp [hpc]) (.refl _) hok.pc
  | homeFault hpc hp hfault hhome hm =>
      exact hok.quiet (by simp [hpc]) (by simp [hpc]) (by simp [hpc]) (.refl _) hok.pc
  | cacheFault hpc hp hfault hhome hm =>
      exact hok.quiet (by simp [hpc]) (by simp [hpc]) (by simp [hpc]) (.refl _) trivial
  | faultEnd hpc hwait hm =>
      exact hok.quiet (by simp [hpc]) (by simp [hpc]) (by simp [hpc]) (.refl _) trivial
  | single hpc hhost ha => exact hok
  | start hpc hhost ha hop hm =>
      obtain ⟨y, dm, hsave, -, rfl⟩ := endinterval_ok hm
      have hy := savepages_sameButTop hsave
      exact hok.quiet (by simp [hpc]) (by simp [hpc]) (by simp [hpc]) hy (hy.allowed hop)
  | scan hpc hi hm =>
      obtain ⟨-, hy⟩ := scanHome_ok hm
      have hop := hok.pc
      rw [hpc] at hop
      exact hok.quiet (by simp [hpc]) (by simp [hpc]) (by simp [hpc]) hy (hy.allowed hop)
  | scanEnd hpc hi =>
      have hop := hok.pc
      rw [hpc] at hop
      exact hok.quiet (by simp [hpc]) (by simp [hpc]) (by simp [hpc]) (.refl _) hop
  | acquire hpc hwait =>
      have hop := hok.pc
      rw [hpc] at hop
      obtain ⟨ha, hb, hw⟩ := hok.flags_down (by simp [hpc]) (by simp [hpc]) (by simp [hpc])
      exact hok.mono rfl hop (fun _ => ⟨_, rfl⟩) (by simp [hb]) (by simp [hw])
  | acquired hpc hwait hm hy =>
      obtain ⟨m₁, m₂, -, -, rfl⟩ := startinterval_ok hm
      exact stackOk_acquired hok hpc hwait hy
  | release hpc hwait hout hm hy =>
      obtain ⟨m₁, m₂, -, -, rfl⟩ := startinterval_ok hm
      exact stackOk_release hok hpc hy
  | arrive hpc hwait hm =>
      have hop := hok.pc
      rw [hpc] at hop
      obtain ⟨ha, hb, hw⟩ := hok.flags_down (by simp [hpc]) (by simp [hpc]) (by simp [hpc])
      obtain ⟨cs, -, -, rfl⟩ := arrive_ok hm
      exact hok.mono rfl hop (by simp [ha]) (by simp) (by simp [hw])
  | barrsync hpc hwait hhost hflags =>
      have hop := hok.pc
      rw [hpc] at hop
      have ha : h.y.acqwait = false := by
        by_contra hne
        obtain ⟨l, hl⟩ := hok.acqwait (by simpa using hne)
        simp [hpc] at hl
      exact hok.mono rfl hop (by simp [ha]) (by simp [hwait]) (by simp)
  | leave hpc hm =>
      obtain ⟨m₁, m₂, -, -, rfl⟩ := leaveBarrier_ok hm
      have ha : h.y.acqwait = false := by
        by_contra hne
        obtain ⟨l, hl⟩ := hok.acqwait (by simpa using hne)
        rcases hpc with ⟨hpc, -⟩ | ⟨hpc, -⟩ <;> simp [hpc] at hl
      have hb : h.y.barrwait = false := by
        rcases hpc with ⟨-, hb, -⟩ | ⟨hpc, -⟩
        · exact hb
        · by_contra hne
          have hcontra := hok.barrwait (by simpa using hne)
          simp [hpc] at hcontra
      have hw : h.y.waitwait = false := by
        rcases hpc with ⟨hpc, -⟩ | ⟨-, hw⟩
        · by_contra hne
          have hcontra := hok.waitwait (by simpa using hne)
          simp [hpc] at hcontra
        · exact hw
      exact hok.mono rfl trivial (by simp [ha]) (by simp [hb]) (by simp [hw])
  | wait hpc hhost =>
      obtain ⟨ha, hb, hw⟩ := hok.flags_down (by simp [hpc]) (by simp [hpc]) (by simp [hpc])
      exact hok.mono rfl trivial (by simp [ha]) (by simp [hb]) (by simp)
  | waited hpc hwait =>
      have ha : h.y.acqwait = false := by
        by_contra hne
        obtain ⟨l, hl⟩ := hok.acqwait (by simpa using hne)
        simp [hpc] at hl
      have hb : h.y.barrwait = false := by
        by_contra hne
        have hcontra := hok.barrwait (by simpa using hne)
        simp [hpc] at hcontra
      exact hok.mono rfl trivial (by simp [ha]) (by simp [hb]) (by simp [hwait])
  | stay hpc hwait hhost => exact hok

/-- A server thread leaves the stack and the main thread alone and only lowers
flags. -/
structure Undisturbed (h h' : Host) : Prop where
  pc : h'.pc = h.pc
  top : h'.y.top = h.y.top
  below : h'.y.below = h.y.below
  acqwait : h'.y.acqwait → h.y.acqwait
  barrwait : h'.y.barrwait → h.y.barrwait
  waitwait : h'.y.waitwait → h.y.waitwait

theorem undisturbed_record (src l : Nat) (scope : BitVec 32) (ns : List StackNotice) :
    Undisturbed h { h with y := recordRelease h.y src l scope ns } := by
  rw [recordRelease, noteScope_eq]
  constructor <;> simp [SynState.recordwtnts, SynState.setLock]

theorem served_undisturbed {src : Nat} {rnd : List Nat} {msg : Msg}
    (hs : Served cfg pid h src rnd msg h' out) : Undisturbed h h' := by
  cases hs with
  | barrgrant hm =>
      obtain ⟨m, -, rfl⟩ := barrgrantserver_ok hm
      rw [SynState.endBarrier_eq]
      constructor <;> simp [SynState.setLock]
  | relNext hl hsrc hc hout => exact undisturbed_record _ _ _ _
  | relLast hl hsrc hc => exact undisturbed_record _ _ _ _
  | _ => constructor <;> simp [SynState.setLock, SynState.recordwtnts, waitgrantserver]

/-- The locks belong to the server thread. -/
theorem main_managed {a : Act} (hm : Main cfg pid h a h' out) :
    h'.y.locks = h.y.locks ∧ h'.y.noclearlocks = h.y.noclearlocks := by
  cases hm with
  | start hpc hhost ha hop hm =>
      obtain ⟨y, dm, hsave, -, rfl⟩ := endinterval_ok hm
      exact (savepages_sameButTop hsave).managed
  | scan hpc hi hm => exact (scanHome_ok hm).2.managed
  | acquired hpc hwait hm hy =>
      rw [pushstack_ok hy]
      exact ⟨rfl, rfl⟩
  | release hpc hwait hout hm hy =>
      obtain ⟨top, below, -, rfl⟩ := popstack_ok hy
      exact ⟨rfl, rfl⟩
  | arrive hpc hwait hm =>
      obtain ⟨cs, -, -, rfl⟩ := arrive_ok hm
      exact ⟨rfl, rfl⟩
  | leave hpc hm =>
      obtain ⟨m₁, m₂, -, -, rfl⟩ := leaveBarrier_ok hm
      exact ⟨rfl, rfl⟩
  | _ => exact ⟨rfl, rfl⟩

theorem main_locks {a : Act} (hm : Main cfg pid h a h' out) : h'.y.locks = h.y.locks :=
  (main_managed hm).1

theorem stackOk_served {src : Nat} {rnd : List Nat} {msg : Msg} (hok : StackOk h)
    (hs : Served cfg pid h src rnd msg h' out) : StackOk h' := by
  have hu := served_undisturbed hs
  have hids : h'.y.ids = h.y.ids := by
    rw [SynState.ids, SynState.ids, hu.top, hu.below]
  have hpc : PcOk h'.y h'.pc := by
    have hpcok := hok.pc
    rw [hu.pc]
    have hallowed : ∀ op, Allowed h.y op → Allowed h'.y op := by
      intro op hop
      cases op <;> simpa only [Allowed, hu.top, hu.below] using hop
    cases hp : h.pc with
    | scan op i n => exact hallowed op (by rwa [hp] at hpcok)
    | drain op => exact hallowed op (by rwa [hp] at hpcok)
    | acqwait l => exact hallowed (.acq l) (by rwa [hp] at hpcok)
    | barrwait => exact hallowed .barr (by rwa [hp] at hpcok)
    | barrsync => exact hallowed .barr (by rwa [hp] at hpcok)
    | _ => trivial
  exact hok.mono hids hpc (fun ha => hu.pc ▸ hok.acqwait (hu.acqwait ha))
    (fun hb => hu.pc ▸ hok.barrwait (hu.barrwait hb))
    (fun hw => hu.pc ▸ hok.waitwait (hu.waitwait hw))

end Host

theorem reach_stackOk {cfg : Config} {s : State} (hs : (system cfg).Reach s) (i : Nat) :
    Host.StackOk (s.host i) :=
  reach_host (P := fun _ h => Host.StackOk h) (fun _ => Host.stackOk_init)
    (fun _ _ _ _ _ _ hok hm => Host.stackOk_main hok hm)
    (fun _ _ _ _ _ _ _ hok hm => Host.stackOk_served hok hm) hs i

end Jiajia
