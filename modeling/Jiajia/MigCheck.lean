import Jiajia.StackNotices

/-!
# The candidates for home migration

At a barrier `migcheckcache` walks the notices of the stack top and looks up the
cache slot of every page.  A page without a slot has the size of the cache table
as its index.
-/

namespace Jiajia

open Transition Host MemState

variable {cfg : Config} {pid : Nat}

/-- No entry carries the tag of a candidate. -/
def WtntList.Unmarked (l : WtntList) : Prop := ∀ e ∈ l.entries, e.mig = 0

/-! ## What `migcheckcache` reads and marks -/

namespace MemState

variable (cfg : Config) (m : MemState)

/-- The indices at which `migcheckcache` reads `cache[]`. -/
def migReads (l : WtntList) : List Nat := l.entries.map fun e => m.cachepage cfg e.addr

/-- All reads are inside the table, and the tag tells whether the page is cached. -/
def MarksExactly (l : WtntList) : Prop :=
  (∀ i ∈ m.migReads cfg l, i < cfg.cachepages) ∧
    (m.migcheckcache cfg l).entries.map WtntEntry.mig =
      l.entries.map fun e => if m.Cached cfg (cfg.pagei e.addr) then 1 else 0

variable {cfg m}

/-- Inside the table the tag is that of a cached page. -/
theorem migTag_of_lt {e : WtntEntry} (hlt : m.cachepage cfg e.addr < cfg.cachepages) :
    m.migTag cfg e = if m.Cached cfg (cfg.pagei e.addr) then 1 else e.mig := by
  have hstate : m.cacheState cfg (m.cachepage cfg e.addr) =
      (m.cache (m.cachepage cfg e.addr)).state := by
    unfold cacheState
    rw [if_pos hlt]
  unfold migTag
  rw [hstate]
  by_cases hst : (m.cache (m.cachepage cfg e.addr)).state = .ro ∨
      (m.cache (m.cachepage cfg e.addr)).state = .rw
  · have hcached : m.Cached cfg (cfg.pagei e.addr) := ⟨hlt, hst⟩
    simp only [if_pos hst, if_pos hcached]
  · have hnot : ¬ m.Cached cfg (cfg.pagei e.addr) := fun hc => hst hc.2
    simp only [if_neg hst, if_neg hnot]

theorem mig_migcheckcache (l : WtntList) :
    (m.migcheckcache cfg l).entries.map WtntEntry.mig = l.entries.map (m.migTag cfg) := by
  unfold migcheckcache
  rw [WtntList.entries_setMig, List.map_map]
  rfl

/-- The candidates are marked exactly, and nothing past the table is read, when every
notice is about a page that has a slot: none is about a page of this host or a page
that was evicted. -/
theorem migcheckcache_exact_iff {l : WtntList} (hl : l.Unmarked) :
    m.MarksExactly cfg l ↔ ∀ e ∈ l.entries, m.cachepage cfg e.addr < cfg.cachepages := by
  constructor
  · intro h e he
    exact h.1 _ (List.mem_map_of_mem he)
  · intro h
    constructor
    · intro i hi
      obtain ⟨e, he, rfl⟩ := List.mem_map.mp hi
      exact h e he
    · rw [mig_migcheckcache]
      apply List.map_congr_left
      intro e he
      rw [migTag_of_lt (h e he), hl e he]

/-- The only notice of a host about its own page. -/
def ownNotice (cfg : Config) : WtntList :=
  WtntList.empty.save (cfg.pageAddr 0) 0 0 (BitVec.ofNat 32 Maxhosts)

/-- Host 1 has a valid copy of page 0 in slot 2. -/
def oneCopy : MemState :=
  ((initmem Config.onePage 1).setCache 2 ⟨.ro, Config.onePage.pageAddr 0, none, false⟩).setPage 0
    ⟨2, Homepages, 0⟩

theorem ownNotice_entries (cfg : Config) :
    (ownNotice cfg).entries = [⟨cfg.pageAddr 0, 0, BitVec.ofNat 32 Maxhosts, 0⟩] := rfl

theorem migcheckcache_exact_copy :
    oneCopy.MarksExactly Config.onePage (ownNotice Config.onePage) := by
  apply (migcheckcache_exact_iff ?_).mpr
  · intro e he
    rw [ownNotice_entries, List.mem_singleton] at he
    subst he
    decide
  · intro e he
    rw [ownNotice_entries, List.mem_singleton] at he
    subst he
    rfl

/-- A notice about a page of the host itself makes it read one entry past the cache. -/
theorem own_page_reads_past :
    ¬ (initmem Config.onePage 0).MarksExactly Config.onePage (ownNotice Config.onePage) := by
  intro h
  have hread := h.1 Config.onePage.cachepages (by decide)
  exact absurd hread (lt_irrefl _)

end MemState

/-! ## The notices that reach it -/

namespace WtntList

variable {l : WtntList}

theorem unmarked_empty : empty.Unmarked := by
  intro e he
  cases he

theorem Unmarked.save (h : l.Unmarked) (addr : Addr) (fromPid : Nat) (scope : BitVec 32) :
    (l.save addr 0 fromPid scope).Unmarked := by
  intro e he
  rcases of_mem_save he with ⟨hold, -⟩ | ⟨-, rfl⟩ | ⟨e₀, -, -, rfl⟩
  · exact h e hold
  · rfl
  · rfl

theorem Unmarked.merge {es : List WtntEntry} (h : l.Unmarked) (hes : ∀ e ∈ es, e.mig = 0) :
    (SynState.mergeNotices es l).Unmarked := by
  unfold SynState.mergeNotices
  induction es generalizing l with
  | nil => exact h
  | cons e es ih =>
      rw [List.foldl_cons, hes e List.mem_cons_self]
      exact ih (h.save _ _ _) fun x hx => hes x (List.mem_cons_of_mem _ hx)

end WtntList

/-- No entry of the lock stack carries a tag. -/
def SynState.StackUnmarked (y : SynState) : Prop := ∀ l ∈ y.lists, l.Unmarked

namespace SynState

variable {y y' : SynState}

theorem stackUnmarked_iff :
    y.StackUnmarked ↔ y.top.wtntp.Unmarked ∧ ∀ t ∈ y.below, t.wtntp.Unmarked := by
  simp [StackUnmarked, lists]

theorem StackUnmarked.congr (h : y.StackUnmarked) (htop : y'.top.wtntp = y.top.wtntp)
    (hbelow : y'.below = y.below) : y'.StackUnmarked := by
  rw [stackUnmarked_iff] at h ⊢
  rw [htop, hbelow]
  exact h

theorem StackUnmarked.saveTop (h : y.StackUnmarked) (addr : Addr) :
    (y.saveTop addr pid).StackUnmarked := by
  rw [stackUnmarked_iff] at h ⊢
  exact ⟨h.1.save _ _ _, h.2⟩

end SynState

theorem savepages_unmarked {m : MemState} {y y' : SynState} {dm dm' : Nat → List PageDiff}
    {cs : List Nat} (hy : y.StackUnmarked) (h : savepages cfg pid m y dm cs = .ok (y', dm')) :
    y'.StackUnmarked := by
  induction cs generalizing y dm with
  | nil =>
      simp only [savepages, Except.ok.injEq, Prod.mk.injEq] at h
      exact h.1 ▸ hy
  | cons c cs ih =>
      simp only [savepages] at h
      split at h
      · rw [bind_eq_ok] at h
        obtain ⟨dm₁, -, h⟩ := h
        exact ih (hy.saveTop _) h
      · exact ih hy h

section Steps

variable {h h' : Host} {out : Out}

theorem main_unmarked {a : Act} (hy : h.y.StackUnmarked) (hm : Main cfg pid h a h' out) :
    h'.y.StackUnmarked := by
  cases hm with
  | load => exact hy
  | store => exact hy
  | homeFault => exact hy
  | cacheFault => exact hy
  | faultEnd => exact hy
  | single => exact hy
  | start hpc hhost ha hop hm =>
      obtain ⟨y, dm, hsave, -, rfl⟩ := endinterval_ok hm
      exact savepages_unmarked hy hsave
  | scan hpc hi hm =>
      cases (scanHome_spec hm).saved with
      | inl heq => exact heq.symm ▸ hy
      | inr hsaved => exact hsaved.2.symm ▸ hy.saveTop _
  | scanEnd => exact hy
  | acquire => exact hy.congr rfl rfl
  | acquired hpc hwait hm hpush =>
      rw [pushstack_ok hpush, SynState.stackUnmarked_iff]
      refine ⟨WtntList.unmarked_empty, ?_⟩
      intro t ht
      exact hy _ (List.mem_map_of_mem ht)
  | release hpc hwait hout hm hpop =>
      obtain ⟨top, below, hbelow, rfl⟩ := popstack_ok hpop
      rw [SynState.stackUnmarked_iff, hbelow] at hy
      rw [SynState.stackUnmarked_iff]
      have htop := hy.2 top List.mem_cons_self
      exact ⟨htop.merge hy.1, fun t ht => hy.2 t (List.mem_cons_of_mem _ ht)⟩
  | arrive hpc hwait hm =>
      obtain ⟨cs, -, -, rfl⟩ := arrive_ok hm
      rw [SynState.stackUnmarked_iff] at hy ⊢
      exact ⟨WtntList.unmarked_empty, hy.2⟩
  | barrsync => exact hy.congr rfl rfl
  | leave hpc hm =>
      obtain ⟨m₁, m₂, -, -, rfl⟩ := leaveBarrier_ok hm
      exact hy
  | wait => exact hy.congr rfl rfl
  | waited => exact hy
  | stay => exact hy

/-- In every run the notices of the lock stack carry no tag, so the condition of
`migcheckcache_exact_iff` decides at every barrier. -/
theorem reach_unmarked (hs : (hostSystem cfg pid).Reach h) : h.y.StackUnmarked := by
  apply hs.invariant (I := fun h => h.y.StackUnmarked)
  · show initsyn.StackUnmarked
    rw [SynState.stackUnmarked_iff]
    refine ⟨WtntList.unmarked_empty, ?_⟩
    intro t ht
    cases ht
  · intro h e h' _ hy hnext
    obtain ⟨-, out, hstep⟩ := hnext
    rcases hostStep_view hstep with ⟨b, a, -, hm⟩ | ⟨b, src, rnd, msg, -, hm⟩
    · exact main_unmarked hy hm
    · obtain ⟨-, htop, hbelow⟩ := served_stack hm
      exact hy.congr (by rw [htop]) hbelow

end Steps

end Jiajia
