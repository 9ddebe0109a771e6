import Jiajia.HostRuns

/-!
# The notices on the lock stack

A page that a host writes as a cached page is named on the lock stack from the end
of the interval to the barrier: in the entry of the lock the write was made under
or, once that lock is released, in the one below.
-/

namespace Jiajia

open Fifo Transition Host MemState

variable {cfg : Config} {pid : Nat}

/-! ## Names in the lists -/

/-- The list has an entry for page `p`. -/
def WtntList.Names (cfg : Config) (l : WtntList) (p : Nat) : Prop :=
  pageNum (cfg.pageAddr p) ∈ l.nums

namespace SynState

theorem mem_nums_mergeNotices {es : List WtntEntry} {l : WtntList} {n : Nat} :
    n ∈ (mergeNotices es l).nums ↔ (∃ e ∈ es, e.num = n) ∨ n ∈ l.nums := by
  unfold mergeNotices
  induction es generalizing l with
  | nil => simp
  | cons e es ih =>
      rw [List.foldl_cons, ih, WtntList.mem_nums_save, List.exists_mem_cons_iff]
      have hnum : n = pageNum e.addr ↔ e.num = n := eq_comm
      rw [hnum, or_left_comm, or_assoc]

theorem names_saveTop {y : SynState} {addr : Addr} {p : Nat} :
    (y.saveTop addr pid).top.wtntp.Names cfg p ↔
      pageNum (cfg.pageAddr p) = pageNum addr ∨ y.top.wtntp.Names cfg p :=
  WtntList.mem_nums_save

end SynState

/-- Step 1 of `endinterval` names the page of every written slot. -/
theorem savepages_names {m : MemState} {y y' : SynState} {dm dm' : Nat → List PageDiff}
    {cs : List Nat} (h : savepages cfg pid m y dm cs = .ok (y', dm')) {p : Nat}
    (hp : y.top.wtntp.Names cfg p ∨
      ∃ c ∈ cs, (m.cache c).wtnt = true ∧ (m.cache c).addr = cfg.pageAddr p) :
    y'.top.wtntp.Names cfg p := by
  induction cs generalizing y dm with
  | nil =>
      simp only [savepages, Except.ok.injEq, Prod.mk.injEq] at h
      rcases hp with hp | ⟨c, hc, -⟩
      · exact h.1 ▸ hp
      · cases hc
  | cons c cs ih =>
      simp only [savepages] at h
      split at h
      · rename_i hw
        rw [bind_eq_ok] at h
        obtain ⟨dm₁, -, h⟩ := h
        apply ih h
        rcases hp with hp | ⟨c', hc', hw', ha'⟩
        · exact Or.inl (SynState.names_saveTop.mpr (Or.inr hp))
        · rcases List.mem_cons.mp hc' with rfl | hc'
          · exact Or.inl (SynState.names_saveTop.mpr (Or.inl (by rw [ha'])))
          · exact Or.inr ⟨c', hc', hw', ha'⟩
      · rename_i hw
        apply ih h
        rcases hp with hp | ⟨c', hc', hw', ha'⟩
        · exact Or.inl hp
        · rcases List.mem_cons.mp hc' with rfl | hc'
          · exact absurd hw' hw
          · exact Or.inr ⟨c', hc', hw', ha'⟩

/-! ## What the stack covers -/

/-- Every page of a set is named in its list or in one before it, unless `P` holds
of it. -/
def Covers (cfg : Config) : (Nat → Prop) → List WtntList → List (List Nat) → Prop
  | _, [], [] => True
  | P, l :: ls, s :: ss =>
      (∀ p ∈ s, p < cfg.npages ∧ (P p ∨ l.Names cfg p)) ∧
        Covers cfg (fun p => P p ∨ l.Names cfg p) ls ss
  | _, _, _ => False

section Covers

variable {P Q : Nat → Prop} {l l' l₂ : WtntList} {ls : List WtntList} {s : List Nat}
  {ss : List (List Nat)}

theorem Covers.length (h : Covers cfg P ls ss) : ss.length = ls.length := by
  induction ls generalizing P ss with
  | nil =>
      cases ss with
      | nil => rfl
      | cons s ss => cases h
  | cons l ls ih =>
      cases ss with
      | nil => cases h
      | cons s ss => simpa using ih h.2

theorem Covers.mono (h : Covers cfg P ls ss) (hPQ : ∀ p < cfg.npages, P p → Q p) :
    Covers cfg Q ls ss := by
  induction ls generalizing P Q ss with
  | nil =>
      cases ss with
      | nil => trivial
      | cons s ss => cases h
  | cons l ls ih =>
      cases ss with
      | nil => cases h
      | cons s ss =>
          refine ⟨?_, ih h.2 fun p hp hor => hor.imp_left (hPQ p hp)⟩
          intro p hp
          obtain ⟨hlt, hor⟩ := h.1 p hp
          exact ⟨hlt, hor.imp_left (hPQ p hlt)⟩

theorem Covers.add (h : Covers cfg P ls ss) {p : Nat} (hp : p < cfg.npages) (hP : P p) :
    Covers cfg P ls (ss.map (p :: ·)) := by
  induction ls generalizing P ss with
  | nil =>
      cases ss with
      | nil => trivial
      | cons s ss => cases h
  | cons l ls ih =>
      cases ss with
      | nil => cases h
      | cons s ss =>
          refine ⟨?_, ih h.2 (Or.inl hP)⟩
          intro q hq
          rcases List.mem_cons.mp hq with rfl | hq
          · exact ⟨hp, Or.inl hP⟩
          · exact h.1 q hq

/-- The first list grows, and names what `P` held of. -/
theorem Covers.save (h : Covers cfg P (l :: ls) ss) (hsave : ∀ p < cfg.npages, P p → l'.Names cfg p)
    (hgrow : ∀ p, l.Names cfg p → l'.Names cfg p) : Covers cfg Q (l' :: ls) ss := by
  cases ss with
  | nil => cases h
  | cons s ss =>
      have hall : ∀ p < cfg.npages, P p ∨ l.Names cfg p → Q p ∨ l'.Names cfg p := by
        intro p hp hor
        right
        rcases hor with hP | hl
        · exact hsave p hp hP
        · exact hgrow p hl
      refine ⟨?_, h.2.mono hall⟩
      intro p hp
      obtain ⟨hlt, hor⟩ := h.1 p hp
      exact ⟨hlt, hall p hlt hor⟩

theorem Covers.push (h : Covers cfg P ls ss) : Covers cfg P (.empty :: ls) ([] :: ss) := by
  refine ⟨?_, h.mono fun _ _ hP => Or.inl hP⟩
  intro p hp
  cases hp

theorem Covers.pop (h : Covers cfg P (l :: l₂ :: ls) ss)
    (hmerge : ∀ p, l.Names cfg p ∨ l₂.Names cfg p → l'.Names cfg p) :
    Covers cfg P (l' :: ls) ss.tail := by
  match ss, h with
  | s :: s₂ :: ss, ⟨_, h₂, hrest⟩ =>
      have hall : ∀ p, (P p ∨ l.Names cfg p) ∨ l₂.Names cfg p → P p ∨ l'.Names cfg p := by
        rintro p ((hP | hl) | hl₂)
        · exact Or.inl hP
        · exact Or.inr (hmerge p (Or.inl hl))
        · exact Or.inr (hmerge p (Or.inr hl₂))
      refine ⟨?_, hrest.mono fun p _ => hall p⟩
      intro p hp
      obtain ⟨hlt, hor⟩ := h₂ p hp
      exact ⟨hlt, hall p hor⟩

theorem covers_start : Covers cfg P [.empty] [[]] := by
  refine ⟨?_, trivial⟩
  intro p hp
  cases hp

end Covers

/-! ## What the host has written -/

/-- The pages the host has written as cached pages since each `jia_lock` that is open
returned, the innermost one first, and last since the previous barrier. -/
def dirtied (pid : Nat) (d : List (List Nat)) (h : Host) : HostEvent → List (List Nat)
  | .main _ (.store p _ _) => if (h.m.page p).homepid = pid then d else d.map (p :: ·)
  | .main _ .go =>
      match h.pc with
      | .acqwait _ => [] :: d
      | .drain (.rel _) => d.tail
      | .drain .barr => [[]]
      | _ => d
  | _ => d

def dirtyHistory (pid : Nat) : System.Observer Host HostEvent (List (List Nat)) where
  start := [[]]
  obs d h e _ := dirtied pid d h e

/-- The lists of the stack, top first. -/
def SynState.lists (y : SynState) : List WtntList := (y.top :: y.below).map StackEntry.wtntp

/-- What is written and not named yet is in a written slot. -/
structure Covered (cfg : Config) (pid : Nat) (x : Host × List (List Nat)) : Prop where
  run : RunOk cfg pid x.1
  rw : Running x.1 → WrittenRw cfg x.1.m
  covers : Covers cfg (fun p => Running x.1 ∧ Written cfg x.1.m p) x.1.y.lists x.2

section Step

variable {h h' : Host} {out : Out} {d : List (List Nat)}

theorem Covers.running (hc : Covers cfg (fun p => Running h ∧ Written cfg h.m p) h.y.lists d)
    (hlists : h'.y.lists = h.y.lists) (hrun : Running h → Running h')
    (hkeep : Running h → Keeps cfg pid h.m h'.m) :
    Covers cfg (fun p => Running h' ∧ Written cfg h'.m p) h'.y.lists d := by
  rw [hlists]
  apply hc.mono
  rintro p hp ⟨hr, hw⟩
  exact ⟨hrun hr, (hkeep hr).written p hp hw⟩

theorem main_covers {a : Act} {b : Bool} (hok : RunOk cfg pid h)
    (hrw : Running h → WrittenRw cfg h.m)
    (hc : Covers cfg (fun p => Running h ∧ Written cfg h.m p) h.y.lists d)
    (hm : Main cfg pid h a h' out) :
    Covers cfg (fun p => Running h' ∧ Written cfg h'.m p) h'.y.lists
      (dirtied pid d h (.main b a)) := by
  have hkeep : Running h → Running h' → Keeps cfg pid h.m h'.m :=
    fun hrun hrun' => main_keeps hok.pages.tables hm hrun hrun'
  -- a step that leaves the stack
  have hlists : h'.y.lists = h.y.lists → (Running h → Running h') →
      Covers cfg (fun p => Running h' ∧ Written cfg h'.m p) h'.y.lists d :=
    fun hlists hrun => hc.running hlists hrun fun hr => hkeep hr (hrun hr)
  have hstay : h'.y.lists = h.y.lists → dirtied pid d h (.main b a) = d →
      Act.starts a = none → Covers cfg (fun p => Running h' ∧ Written cfg h'.m p) h'.y.lists
        (dirtied pid d h (.main b a)) := by
    intro heq hd hstarts
    rw [hd]
    exact hlists heq (main_stays hm hstarts)
  cases hm with
  | load hpc => exact hstay rfl rfl rfl
  | @store p u v hpc hp hprot =>
      by_cases hhome : (h.m.page p).homepid = pid
      · refine hstay rfl ?_ rfl
        simp [dirtied, hhome]
      · have hrun : Running h := Or.inl hpc
        have hw := store_written hok (hrw hrun) hp hpc hprot hhome
        simp only [dirtied, if_neg hhome]
        exact (hlists rfl id).add hp ⟨hrun, hw⟩
  | homeFault hpc => exact hstay rfl rfl rfl
  | cacheFault hpc => exact hstay rfl rfl rfl
  | faultEnd hpc => exact hstay rfl (by simp [dirtied, hpc]) rfl
  | single hpc hhost ha =>
      have hd : dirtied pid d h (.main b a) = d := by
        rcases ha with rfl | ha
        · rfl
        · cases a <;> first | rfl | cases ha
      rw [hd]
      exact hlists rfl id
  | @start a op h' out hpc hhost ha hop hm =>
      obtain ⟨y, dm, hsave, -, rfl⟩ := endinterval_ok hm
      have hd : dirtied pid d h (.main b a) = d := by
        cases a <;> first | rfl | cases ha
      rw [hd]
      have hbelow := (savepages_sameButTop hsave).flags.2.2.2.2.1
      unfold SynState.lists at hc ⊢
      rw [List.map_cons] at hc ⊢
      simp only [hbelow]
      refine hc.save ?_ fun p hp => savepages_names hsave (Or.inl hp)
      rintro p - ⟨-, c, hlt, hw, -, ha⟩
      exact savepages_names hsave (Or.inr ⟨c, List.mem_range.mpr hlt, hw, ha⟩)
  | @scan op i n h₁ hpc hi hm =>
      have hno : ¬ Running h := not_running hpc rfl
      have hs := scanHome_spec hm
      have hd : dirtied pid d h (.main b .go) = d := by simp [dirtied, hpc]
      rw [hd]
      unfold SynState.lists at hc ⊢
      rw [List.map_cons] at hc ⊢
      simp only [hs.top.flags.2.2.2.2.1]
      refine hc.save (fun p _ hp => absurd hp.1 hno) ?_
      intro p hp
      rcases hs.saved with heq | ⟨-, heq⟩
      · exact heq ▸ hp
      · rw [heq]
        exact SynState.names_saveTop.mpr (Or.inr hp)
  | scanEnd hpc => exact hstay rfl (by simp [dirtied, hpc]) rfl
  | acquire hpc => exact hstay rfl (by simp [dirtied, hpc]) rfl
  | acquired hpc hwait hm hpush =>
      have hno : ¬ Running h := not_running hpc rfl
      obtain ⟨m₁, m₂, -, -, rfl⟩ := startinterval_ok hm
      have hd : dirtied pid d h (.main b .go) = [] :: d := by simp [dirtied, hpc]
      rw [hd, pushstack_ok hpush]
      exact (hc.mono fun p _ hp => absurd hp.1 hno).push
  | release hpc hwait hout hm hpop =>
      have hno : ¬ Running h := not_running hpc rfl
      obtain ⟨m₁, m₂, -, -, rfl⟩ := startinterval_ok hm
      obtain ⟨top, below, hbelow, rfl⟩ := popstack_ok hpop
      have hd : dirtied pid d h (.main b .go) = d.tail := by simp [dirtied, hpc]
      rw [hd]
      unfold SynState.lists at hc ⊢
      rw [hbelow, List.map_cons, List.map_cons] at hc
      refine (hc.mono fun p _ hp => absurd hp.1 hno).pop ?_
      rintro p (hp | hp)
      · exact SynState.mem_nums_mergeNotices.mpr (Or.inl (WtntList.mem_nums.mp hp))
      · exact SynState.mem_nums_mergeNotices.mpr (Or.inr hp)
  | arrive hpc hwait hm =>
      have hbelow : h.y.below = [] := by
        have hpcok := hok.stack.pc
        rwa [hpc] at hpcok
      obtain ⟨cs, -, -, rfl⟩ := arrive_ok hm
      have hd : dirtied pid d h (.main b .go) = [[]] := by simp [dirtied, hpc]
      rw [hd]
      unfold SynState.lists
      simp only [hbelow]
      exact covers_start
  | barrsync hpc => exact hstay rfl (by simp [dirtied, hpc]) rfl
  | leave hpc hm =>
      obtain ⟨m₁, m₂, -, -, rfl⟩ := leaveBarrier_ok hm
      refine hstay rfl ?_ rfl
      rcases hpc with ⟨hpc, -⟩ | ⟨hpc, -⟩ <;> simp [dirtied, hpc]
  | wait hpc => exact hstay rfl rfl rfl
  | waited hpc => exact hstay rfl (by simp [dirtied, hpc]) rfl
  | stay hpc => exact hstay rfl (by simp [dirtied, hpc]) rfl

theorem covers_withAdWd {b : Bool} {P : Nat → Prop} {ls : List WtntList} {ss : List (List Nat)} :
    Covers (cfg.withAdWd b) P ls ss ↔ Covers cfg P ls ss := by
  induction ls generalizing P ss with
  | nil =>
      cases ss with
      | nil => exact Iff.rfl
      | cons s ss => exact Iff.rfl
  | cons l ls ih =>
      cases ss with
      | nil => exact Iff.rfl
      | cons s ss => exact and_congr Iff.rfl ih

theorem Covered.step {e : HostEvent} (hx : Covered cfg pid (h, d)) (hcomes : Comes cfg pid h e)
    (hs : hostStep cfg pid h e = .ok (h', out)) : Covered cfg pid (h', dirtied pid d h e) := by
  refine ⟨hx.run.step hcomes hs, step_writtenRw hx.run hcomes hs hx.rw, ?_⟩
  rcases hostStep_view hs with ⟨b, a, rfl, hm⟩ | ⟨b, src, rnd, msg, rfl, hm⟩
  · have hcov : Covers (cfg.withAdWd b) (fun p => Running h' ∧ Written (cfg.withAdWd b) h'.m p)
        h'.y.lists (dirtied pid d h (.main b a)) :=
      main_covers (runOk_withAdWd.mpr hx.run) hx.rw (covers_withAdWd.mpr hx.covers) hm
    exact covers_withAdWd.mp hcov
  · obtain ⟨hpc, htop, hbelow⟩ := served_stack hm
    have hrun : Running h → Running h' := by
      intro hr
      unfold Running at hr ⊢
      rwa [hpc]
    refine hx.covers.running ?_ hrun fun hr => step_keeps hx.run hcomes hs hr (hrun hr)
    unfold SynState.lists
    rw [htop, hbelow]

theorem reach_covered (hhost : cfg.hostc ≠ 1) {x : Host × List (List Nat)}
    (hx : ((hostSystem cfg pid).withHist (dirtyHistory pid)).Reach x) : Covered cfg pid x := by
  induction hx with
  | start =>
      refine ⟨runOk_init hhost, ?_, covers_start⟩
      intro _ c _ hw
      cases hw
  | @step x x' e _ hnext ih =>
      obtain ⟨⟨hcomes, out, hs⟩, hd⟩ := hnext
      obtain ⟨h, d⟩ := x
      obtain ⟨h', d'⟩ := x'
      obtain rfl : d' = dirtied pid d h e := hd
      exact ih.step hcomes hs

end Step

/-! ## What is sent -/

/-- The notices of a message of `sendwtnts`. -/
def Msg.sentNotices : Msg → List StackNotice
  | .rel _ _ ns => ns
  | msg => msg.stackNotices

/-- The pages the messages of one step name, message by message. -/
def noticed (out : Out) : List Addr := out.flatMap fun x => x.2.sentNotices.map StackNotice.addr

theorem noticed_wtntMsgs {lock dst : Nat} {last : List StackNotice → Msg}
    (hlast : ∀ ns, (last ns).sentNotices = ns) {cs : List (List WtntEntry)} (hne : cs ≠ []) :
    noticed ((wtntMsgs lock last cs).map fun msg => (dst, msg)) = cs.flatten.map WtntEntry.addr := by
  have hmore : ∀ c : List WtntEntry,
      ((Msg.wtnt lock (c.map WtntEntry.toStack)).sentNotices.map StackNotice.addr) =
        c.map WtntEntry.addr := by
    intro c
    simp [Msg.sentNotices, Msg.stackNotices, WtntEntry.toStack]
  have hend : ∀ c : List WtntEntry,
      ((last (c.map WtntEntry.toStack)).sentNotices.map StackNotice.addr) =
        c.map WtntEntry.addr := by
    intro c
    rw [hlast]
    simp [WtntEntry.toStack]
  have hmsgs : ∀ cs : List (List WtntEntry), cs ≠ [] →
      (wtntMsgs lock last cs).flatMap (fun msg => msg.sentNotices.map StackNotice.addr) =
        cs.flatten.map WtntEntry.addr := by
    intro cs
    induction cs with
    | nil => exact fun hnil => absurd rfl hnil
    | cons c cs ih =>
        intro _
        cases cs with
        | nil => simpa [wtntMsgs, chunkMsgs] using hend c
        | cons c' cs =>
            have hrest := ih (List.cons_ne_nil c' cs)
            unfold wtntMsgs at hrest ⊢
            rw [chunkMsgs, List.flatMap_cons, hrest, hmore]
            · simp
            · exact List.cons_ne_nil c' cs
  unfold noticed
  rw [List.flatMap_map]
  exact hmsgs cs hne

/-- A list names a page at most once. -/
theorem count_names {l : WtntList} (hl : l.Pages cfg) {p : Nat} (hp : p < cfg.npages)
    (hname : l.Names cfg p) : (l.entries.map WtntEntry.addr).count (cfg.pageAddr p) = 1 := by
  have hnodup : (l.entries.map WtntEntry.addr).Nodup := by
    refine List.Nodup.of_map pageNum ?_
    rw [List.map_map]
    exact l.nodup
  apply List.count_eq_one_of_mem hnodup
  obtain ⟨e, he, hnum⟩ := WtntList.mem_nums.mp hname
  obtain ⟨q, hq, ha⟩ := hl e he
  rw [WtntEntry.num, ha] at hnum
  rw [← cfg.pageNum_pageAddr_inj hq hp hnum, ← ha]
  exact List.mem_map_of_mem he

variable {h h' : Host} {out : Out} {d : List (List Nat)}

/-- What the messages of a release and of a barrier name. -/
structure SendsDirtied (cfg : Config) (h : Host) (d : List (List Nat)) (out : Out) : Prop where
  barr : h.pc = .drain .barr → ∃ s, d = [s] ∧
    ∀ p ∈ s, (noticed out).count (cfg.pageAddr p) = 1
  rel : ∀ l, h.pc = .drain (.rel l) → h.y.top.lockid = l ∧ d.length = h.y.below.length + 1 ∧
    ∃ s ss, d = s :: ss ∧ ss ≠ [] ∧ ∀ p ∈ s, (noticed out).count (cfg.pageAddr p) = 1

theorem main_drain {op : SynOp} (hpc : h.pc = .drain op) (hm : Main cfg pid h .go h' out) :
    (∃ l, op = .acq l) ∨
      (∃ l, op = .rel l ∧ h.sendwtnts cfg false = .ok out ∧ ∃ y, h.y.popstack = .ok y) ∨
      (op = .barr ∧ h.arrive cfg = .ok (h', out)) := by
  have hsame : ∀ {op' : SynOp}, h.pc = .drain op' → op = op' := by
    intro op' hpc'
    rw [hpc] at hpc'
    cases hpc'
    rfl
  have hother : ∀ {pc : Pc}, h.pc = pc → (∀ op', pc ≠ .drain op') → False :=
    fun hpc' hne => hne op (hpc'.symm.trans hpc)
  cases hm with
  | acquire hpc' => exact Or.inl ⟨_, hsame hpc'⟩
  | release hpc' _ hout _ hpop => exact Or.inr (Or.inl ⟨_, hsame hpc', hout, _, hpop⟩)
  | arrive hpc' _ hm => exact Or.inr (Or.inr ⟨hsame hpc', hm⟩)
  | start _ _ ha => cases ha
  | faultEnd hpc' => exact (hother hpc' (by simp)).elim
  | single hpc' => exact (hother hpc' (by simp)).elim
  | scan hpc' => exact (hother hpc' (by simp)).elim
  | scanEnd hpc' => exact (hother hpc' (by simp)).elim
  | acquired hpc' => exact (hother hpc' (by simp)).elim
  | barrsync hpc' => exact (hother hpc' (by simp)).elim
  | leave hpc' =>
      rcases hpc' with ⟨hpc', -⟩ | ⟨hpc', -⟩
      · exact (hother hpc' (by simp)).elim
      · exact (hother hpc' (by simp)).elim
  | waited hpc' => exact (hother hpc' (by simp)).elim
  | stay hpc' => exact (hother hpc' (by simp)).elim

theorem stream_flatten {l : WtntList} {cs : List (List WtntEntry)}
    (hcs : appendStackWtnts.stream l = .ok cs) : cs.flatten = l.entries :=
  (Packing.chunks_flatten hcs).trans (List.filter_eq_self.mpr fun _ _ => rfl)

/-- Outside the intervals every page of the first set is named at the top. -/
theorem Covered.named (hx : Covered cfg pid (h, d)) (hno : ¬ Running h) {s : List Nat}
    {ss : List (List Nat)} (hd : d = s :: ss) {p : Nat} (hp : p ∈ s) :
    p < cfg.npages ∧ h.y.top.wtntp.Names cfg p := by
  have hc := hx.covers
  simp only [hd, SynState.lists, List.map_cons] at hc
  obtain ⟨hlt, hor⟩ := hc.1 p hp
  exact ⟨hlt, hor.resolve_left fun hr => hno hr.1⟩

theorem Covered.length (hx : Covered cfg pid (h, d)) : d.length = h.y.below.length + 1 := by
  simpa [SynState.lists] using hx.covers.length

/-- The last messages of an interval name a page of the top once. -/
theorem count_sent {lock dst : Nat} {last : List StackNotice → Msg} {l : WtntList}
    {cs : List (List WtntEntry)} (hlast : ∀ ns, (last ns).sentNotices = ns)
    (hcs : appendStackWtnts.stream l = .ok cs) (hl : l.Pages cfg) {p : Nat} (hp : p < cfg.npages)
    (hname : l.Names cfg p) :
    (noticed ((wtntMsgs lock last cs).map fun msg => (dst, msg))).count (cfg.pageAddr p) = 1 := by
  rw [noticed_wtntMsgs hlast (Packing.chunks_ne_nil hcs), stream_flatten hcs]
  exact count_names hl hp hname

theorem sends_of_covered (hx : Covered cfg pid (h, d)) (hm : Main cfg pid h .go h' out) :
    SendsDirtied cfg h d out := by
  have hlen := hx.length
  have htop := hx.run.pages.lists.top
  have hallowed := hx.run.stack.pc
  constructor
  · intro hpc
    have hno : ¬ Running h := not_running hpc rfl
    rw [hpc] at hallowed
    rw [show h.y.below = [] from hallowed] at hlen
    obtain ⟨s, hd⟩ := List.length_eq_one_iff.mp hlen
    refine ⟨s, hd, ?_⟩
    intro p hp
    obtain ⟨hlt, hname⟩ := hx.named hno hd hp
    rcases main_drain hpc hm with ⟨l, hop⟩ | ⟨l, hop, -⟩ | ⟨-, harrive⟩
    · cases hop
    · cases hop
    · obtain ⟨cs, hcs, rfl, -⟩ := arrive_ok harrive
      refine count_sent (fun _ => rfl) hcs ?_ hlt ?_
      · unfold barrNotices
        split
        · exact htop.setMig _
        · exact htop
      · unfold barrNotices
        split
        · simpa [WtntList.Names, MemState.migcheckcache] using hname
        · exact hname
  · intro l hpc
    have hno : ¬ Running h := not_running hpc rfl
    rw [hpc] at hallowed
    refine ⟨hallowed.2.symm, hlen, ?_⟩
    rcases main_drain hpc hm with ⟨l', hop⟩ | ⟨l', -, hout, y, hpop⟩ | ⟨hop, -⟩
    · cases hop
    · obtain ⟨top, below, hbelow, -⟩ := popstack_ok hpop
      rw [hbelow] at hlen
      obtain ⟨s, ss, hd⟩ := List.exists_cons_of_length_eq_add_one hlen
      refine ⟨s, ss, hd, ?_, ?_⟩
      · rintro rfl
        rw [hd] at hlen
        simp at hlen
      · intro p hp
        obtain ⟨hlt, hname⟩ := hx.named hno hd hp
        obtain ⟨cs, hcs, rfl⟩ := sendwtnts_ok hout
        exact count_sent (fun _ => rfl) hcs htop hlt hname
    · cases hop

/-- A single host takes no interval to its end. -/
theorem single_pc (hhost : cfg.hostc = 1) (hr : (hostSystem cfg pid).Reach h) :
    ∀ op, h.pc ≠ .drain op := by
  have hpc : h.pc = .app ∨ ∃ w, h.pc = .fault w := by
    refine hr.invariant (I := fun h => h.pc = .app ∨ ∃ w, h.pc = .fault w) (Or.inl rfl) ?_
    intro h e h' _ hpc hnext
    obtain ⟨-, out, hs⟩ := hnext
    rcases hostStep_view hs with ⟨b, a, -, hm⟩ | ⟨b, src, rnd, msg, -, hm⟩
    · have hno : ∀ {pc : Pc}, h.pc = pc → pc ≠ .app → (∀ w, pc ≠ .fault w) →
          h'.pc = .app ∨ ∃ w, h'.pc = .fault w := by
        intro pc heq h₁ h₂
        rcases hpc with hp | ⟨w, hp⟩
        · exact absurd (heq.symm.trans hp) h₁
        · exact absurd (heq.symm.trans hp) (h₂ w)
      cases hm with
      | cacheFault => exact Or.inr ⟨_, rfl⟩
      | start _ hne => exact absurd hhost hne
      | wait _ hne => exact absurd hhost hne
      | faultEnd => exact Or.inl rfl
      | scan hp => exact hno hp (by simp) (by simp)
      | scanEnd hp => exact hno hp (by simp) (by simp)
      | acquire hp => exact hno hp (by simp) (by simp)
      | acquired hp => exact hno hp (by simp) (by simp)
      | release hp => exact hno hp (by simp) (by simp)
      | arrive hp => exact hno hp (by simp) (by simp)
      | barrsync hp => exact hno hp (by simp) (by simp)
      | leave hp =>
          rcases hp with ⟨hp, -⟩ | ⟨hp, -⟩
          · exact hno hp (by simp) (by simp)
          · exact hno hp (by simp) (by simp)
      | waited hp => exact hno hp (by simp) (by simp)
      | _ => exact hpc
    · rw [(served_stack hm).1]
      exact hpc
  intro op hop
  rcases hpc with hp | ⟨w, hp⟩ <;> rw [hp] at hop <;> cases hop

/-- In every run of a host the messages of a barrier name each page it has written as
a cached page since the barrier before, and those of a release name each page it has
written since the lock was granted. -/
theorem stack_keeps_notices {x : Host × List (List Nat)}
    (hx : ((hostSystem cfg pid).withHist (dirtyHistory pid)).Reach x) {b : Bool}
    (hs : hostStep cfg pid x.1 (.main b .go) = .ok (h', out)) :
    SendsDirtied cfg x.1 x.2 out := by
  by_cases hhost : cfg.hostc = 1
  · have hno := single_pc hhost hx.forget
    exact ⟨fun hpc => absurd hpc (hno _), fun l hpc => absurd hpc (hno _)⟩
  · have hcov := reach_covered hhost hx
    have hcov' : Covered (cfg.withAdWd b) pid (x.1, x.2) :=
      ⟨runOk_withAdWd.mpr hcov.run, hcov.rw, covers_withAdWd.mpr hcov.covers⟩
    have hsend := sends_of_covered hcov' (act_main hs)
    exact ⟨hsend.barr, hsend.rel⟩

/-! ## A nested run -/

namespace NestedLocks

/-- Host 0 locks 2, writes page 0, locks 4, writes page 1 and comes to the release of
lock 2. -/
def run : List HostEvent :=
  let main := HostEvent.main false
  let serve := HostEvent.serve false
  let acq := fun l => [main (.lock l), main .go, main .go]
  let granted := fun l => [serve 0 [] (.acqgrant l 1 []), main .go]
  let write := fun p => [main (.fault p true 0),
    serve 1 [] (.getpgrant (Config.fivePages.pageAddr p) WVFULL zeroPage []), main .go,
    main (.fault p true 0), main .go, main (.store p Config.unit0 7)]
  acq 2 ++ granted 2 ++ write 0 ++ [main (.lock 4), main .go, serve 1 [] .diffgrant, main .go] ++
    granted 4 ++ write 1 ++ [main (.unlock 4), main .go, serve 1 [] .diffgrant, main .go] ++
    [main (.unlock 2), main .go]

/-- Messages of the run that carry no notices are expected at any time. -/
def Plain : HostEvent → Prop
  | .main _ _ => True
  | .serve _ src _ (.acqgrant l _ ns) => l < Maxlocks ∧ src = l % 2 ∧ ns = []
  | .serve _ _ _ (.getpgrant a _ _ xs) =>
      (∃ p < Config.fivePages.npages, a = Config.fivePages.pageAddr p) ∧ xs.isEmpty = true
  | .serve _ _ _ .diffgrant => True
  | _ => False

instance : DecidablePred Plain := by
  intro e
  unfold Plain
  split <;> infer_instance

theorem comes_of_plain {h : Host} {e : HostEvent} (he : Plain e) : Comes .fivePages 0 h e := by
  cases e with
  | main b a => trivial
  | serve b src rnd msg =>
      cases msg with
      | acqgrant l scope ns =>
          obtain ⟨hlt, hsrc, rfl⟩ := he
          exact ⟨⟨by simp, by simp⟩, ⟨hlt, hsrc⟩, by simp [Barrier.down],
            Or.inr (by simp [Msg.invalidates])⟩
      | getpgrant a wv data xs =>
          obtain ⟨hpage, hxs⟩ := he
          rw [List.isEmpty_iff] at hxs
          subst hxs
          exact ⟨⟨hpage, by simp⟩, trivial, by simp [Barrier.down],
            Or.inr (by simp [Msg.invalidates, Msg.grantNotices])⟩
      | diffgrant =>
          exact ⟨trivial, trivial, by simp [Barrier.down],
            Or.inr (by simp [Msg.invalidates, Msg.grantNotices])⟩
      | _ => cases he

/-- One step of the run. -/
def turn (x : Host × List (List Nat)) (e : HostEvent) : Result (Host × List (List Nat)) := do
  await (Plain e)
  let (h, _) ← hostStep .fivePages 0 x.1 e
  return (h, dirtied 0 x.2 x.1 e)

end NestedLocks

open NestedLocks in
theorem stack_keeps_notices_nested : ∃ (x : Host × List (List Nat)) (h' : Host) (out : Out),
    ((hostSystem .fivePages 0).withHist (dirtyHistory 0)).Reach x ∧
      x.1.pc = .drain (.rel 2) ∧ x.2 = [[1, 0], [1, 0]] ∧
      hostStep .fivePages 0 x.1 (.main false .go) = .ok (h', out) ∧
      SendsDirtied .fivePages x.1 x.2 out := by
  have hnext : ∀ x e x', turn x e = .ok x' →
      ((hostSystem .fivePages 0).withHist (dirtyHistory 0)).next x e x' := by
    intro x e x' hturn
    simp only [turn, bind_eq_ok, await_eq_ok, Prod.exists, pure, Except.pure,
      Except.ok.injEq] at hturn
    obtain ⟨-, he, h, out, hs, rfl⟩ := hturn
    exact ⟨⟨comes_of_plain he, out, hs⟩, rfl⟩
  obtain ⟨x, hx, hcheck⟩ := System.exists_execBy hnext run
    (fun x => decide (x.1.pc = .drain (.rel 2)) && (x.2 == [[1, 0], [1, 0]]) &&
      (hostStep .fivePages 0 x.1 (.main false .go)).isOk) (by decide +kernel)
  simp only [Bool.and_eq_true, decide_eq_true_eq, beq_iff_eq] at hcheck
  obtain ⟨⟨hpc, hd⟩, hok⟩ := hcheck
  cases hs : hostStep .fivePages 0 x.1 (.main false .go) with
  | ok y => exact ⟨x, y.1, y.2, hx, hpc, hd, hs, stack_keeps_notices hx hs⟩
  | error e =>
      rw [hs] at hok
      cases hok

end Jiajia
