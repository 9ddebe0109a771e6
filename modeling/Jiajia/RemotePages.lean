import Jiajia.Contents
import Jiajia.CacheInverse

/-!
# Pages on hosts that are not their home

A page of another host has no slot of the cache, or a slot that is INV, RO or RW,
and its mapping fits: none, without permission, readable, writable.  Only while its
fault is handled is a page writable whose slot says less.
-/

namespace Jiajia

open Fifo Transition Host MemState

variable {cfg : Config}

namespace MemState

variable {pid : Nat} {m m' m'' : MemState} {p : Nat}

/-- The slot and the mapping of page `p` stay. -/
structure SameSlot (p : Nat) (m m' : MemState) : Prop where
  page : m'.page p = m.page p
  slot : m'.cache (m.page p).cachei = m.cache (m.page p).cachei
  prot : m'.prot p = m.prot p

theorem SameSlot.refl (m : MemState) : SameSlot p m m := ⟨rfl, rfl, rfl⟩

theorem SameSlot.trans (h : SameSlot p m m') (h' : SameSlot p m' m'') : SameSlot p m m'' where
  page := h'.page.trans h.page
  slot := by
    have hslot := h'.slot
    rw [h.page] at hslot
    exact hslot.trans h.slot
  prot := h'.prot.trans h.prot

theorem sameSlot_memprotect {q : Nat} {pr : Prot} (hq : q ≠ p) (h : m.memprotect q pr = .ok m') :
    SameSlot p m m' := by
  obtain ⟨-, rfl⟩ := memprotect_eq_ok.mp h
  exact ⟨rfl, rfl, by simp [Ne.symm hq]⟩

theorem sameSlot_homeFault {q : Nat} (hq : q ≠ p) (h : m.homeFault cfg q = .ok m') :
    SameSlot p m m' := by
  simp only [homeFault, bind_eq_ok, defined_eq_ok, pure, Except.pure, Except.ok.injEq] at h
  obtain ⟨m₁, hprot, -, -, rfl⟩ := h
  exact (sameSlot_memprotect hq hprot).trans ⟨rfl, rfl, rfl⟩

/-- A page of another host is copied from only where it is mapped. -/
theorem sameSlot_copyPage {q : Nat} {pg : Page} (haway : (m.page p).homepid ≠ pid)
    (h : m.copyPage cfg pid q = .ok (m', pg)) : SameSlot p m m' := by
  unfold copyPage at h
  split at h
  · simp only [pure, Except.pure, Except.ok.injEq, Prod.mk.injEq] at h
    exact h.1 ▸ SameSlot.refl m
  · simp only [bind_eq_ok, defined_eq_ok, pure, Except.pure, Except.ok.injEq, Prod.mk.injEq] at h
    obtain ⟨-, hdef, m₁, hf, rfl, -⟩ := h
    refine sameSlot_homeFault ?_ hf
    rintro rfl
    exact haway hdef.2

theorem sameSlot_copyUnless {c : Prop} [Decidable c] {q : Nat} {pg : Page}
    (haway : (m.page p).homepid ≠ pid)
    (h : (if c then .ok (m, zeroPage) else m.copyPage cfg pid q) = .ok (m', pg)) :
    SameSlot p m m' := by
  by_cases hc : c
  · rw [if_pos hc, Except.ok.injEq, Prod.mk.injEq] at h
    exact h.1 ▸ SameSlot.refl m
  · rw [if_neg hc] at h
    exact sameSlot_copyPage haway h

theorem sameSlot_copyPages {ps : List Nat} {xs : List ExtraPage}
    (haway : (m.page p).homepid ≠ pid) (h : m.copyPages cfg pid ps = .ok (m', xs)) :
    SameSlot p m m' := by
  induction ps generalizing m xs with
  | nil =>
      simp only [copyPages, Except.ok.injEq, Prod.mk.injEq] at h
      exact h.1 ▸ SameSlot.refl m
  | cons q ps ih =>
      simp only [copyPages, bind_eq_ok, Prod.exists, pure, Except.pure, Except.ok.injEq,
        Prod.mk.injEq] at h
      obtain ⟨m₁, pg, hcopy, m₂, rest, hrest, rfl, rfl⟩ := h
      have haway' : (m₁.page p).homepid ≠ pid := by
        rw [(sameSlot_copyPage haway hcopy).page]
        exact haway
      exact (sameSlot_copyPage haway hcopy).trans (ih haway' hrest)

theorem sameSlot_renewTwin {homei : Nat} (haway : (m.page p).homepid ≠ pid)
    (h : m.renewTwin cfg pid homei = .ok m') : SameSlot p m m' := by
  unfold renewTwin at h
  split at h
  · simp only [bind_eq_ok, Prod.exists, pure, Except.pure, Except.ok.injEq] at h
    obtain ⟨m₁, twin, hcopy, rfl⟩ := h
    have hset : SameSlot p m (m.setHome homei { m.home homei with wvfull := false }) :=
      ⟨rfl, rfl, rfl⟩
    exact (hset.trans (sameSlot_copyPage haway hcopy)).trans ⟨rfl, rfl, rfl⟩
  · exact Except.ok.inj h ▸ SameSlot.refl m

theorem sameSlot_prefetchLoop {k q num : Nat} {acc ps : List Nat}
    (h : prefetchLoop cfg pid k m q num acc = .ok (m', ps)) : SameSlot p m m' := by
  induction k generalizing m q num acc with
  | zero =>
      simp only [prefetchLoop, Except.ok.injEq, Prod.mk.injEq] at h
      exact h.1 ▸ SameSlot.refl m
  | succ k ih =>
      simp only [prefetchLoop, bind_eq_ok, defined_eq_ok] at h
      obtain ⟨-, -, h⟩ := h
      split at h
      · simp only [bind_eq_ok, defined_eq_ok] at h
        obtain ⟨-, -, -, -, h⟩ := h
        have hset : SameSlot p m (m.setHome (m.page q).homei
            { m.home (m.page q).homei with rdnt := true }) := ⟨rfl, rfl, rfl⟩
        split at h
        · simp only [pure, Except.pure, Except.ok.injEq, Prod.mk.injEq] at h
          exact h.1 ▸ hset
        · exact hset.trans (ih h)
      · exact ih h

theorem sameSlot_prefetch {q : Nat} {ps : List Nat} (h : m.prefetch cfg pid q = .ok (m', ps)) :
    SameSlot p m m' := by
  unfold prefetch at h
  split at h
  · exact sameSlot_prefetchLoop h
  · simp only [Except.ok.injEq, Prod.mk.injEq] at h
    exact h.1 ▸ SameSlot.refl m

theorem sameSlot_getpserver {src : Nat} {addr : Addr} {temp : Bool} {out : Out}
    (haway : (m.page p).homepid ≠ pid)
    (h : m.getpserver cfg pid src addr temp = .ok (m', out)) : SameSlot p m m' := by
  obtain ⟨-, m₁, m₂, m₃, ps, pg, xs, wv, data, htwin, hpre, hcopy, hxs, -⟩ := getpserver_steps h
  have hset : SameSlot p m₁ (m₁.setHome (m.homepage cfg addr)
      { m₁.home (m.homepage cfg addr) with rdnt := true }) := ⟨rfl, rfl, rfl⟩
  have h₂ := (sameSlot_renewTwin haway htwin).trans (hset.trans (sameSlot_prefetch hpre))
  have haway₂ : (m₂.page p).homepid ≠ pid := by
    rw [h₂.page]
    exact haway
  have h₃ := sameSlot_copyUnless haway₂ hcopy
  have haway₃ : (m₃.page p).homepid ≠ pid := by
    rw [h₃.page]
    exact haway₂
  exact (h₂.trans h₃).trans (sameSlot_copyPages haway₃ hxs)

theorem sameSlot_applyDiff {src : Nat} {d : PageDiff} (hd : cfg.pagei d.addr ≠ p)
    (h : m.applyDiff cfg src d = .ok m') : SameSlot p m m' := by
  have happ := applyDiff_ok h
  refine ⟨by rw [happ.page], by rw [happ.cache], ?_⟩
  rw [happ.prot]
  split
  · rfl
  · exact upd_of_ne _ _ (Ne.symm hd)

theorem sameSlot_applyDiffs {src : Nat} {ds : List PageDiff}
    (hds : ∀ d ∈ ds, cfg.pagei d.addr ≠ p) (h : applyDiffs cfg src m ds = .ok m') :
    SameSlot p m m' := by
  induction ds generalizing m with
  | nil =>
      simp only [applyDiffs, Except.ok.injEq] at h
      exact h ▸ SameSlot.refl m
  | cons d ds ih =>
      simp only [applyDiffs, bind_eq_ok] at h
      obtain ⟨m₁, hd, hrest⟩ := h
      exact (sameSlot_applyDiff (hds d List.mem_cons_self) hd).trans
        (ih (fun x hx => hds x (List.mem_cons_of_mem _ hx)) hrest)

/-! ## Intervals -/

theorem sameSlot_scanHome {h h' : Host} {op : SynOp} {i : Nat}
    (hs : h.scanHome cfg pid op i = .ok h') : SameSlot p h.m h'.m := by
  unfold scanHome at hs
  split at hs
  · simp only [bind_eq_ok, pure, Except.pure, Except.ok.injEq] at hs
    obtain ⟨m, hvec, rfl⟩ := hs
    have hsave : SameSlot p h.m (h.saveHome pid op i).m := by
      unfold saveHome
      split
      · split
        · exact ⟨rfl, rfl, rfl⟩
        · exact SameSlot.refl _
      · exact SameSlot.refl _
    refine hsave.trans ?_
    unfold vectorHome at hvec
    simp only at hvec
    split at hvec
    · split at hvec
      · cases hvec
      · exact Except.ok.inj hvec ▸ ⟨rfl, rfl, rfl⟩
    · exact Except.ok.inj hvec ▸ SameSlot.refl _
  · exact Except.ok.inj hs ▸ SameSlot.refl _

theorem home_ne (ht : m.HomeTables cfg pid) (hp : p < cfg.npages)
    (haway : (m.page p).homepid ≠ pid) (hc : m.Compact) {i : Nat} (hi : i < m.hpages) :
    cfg.pagei (m.home i).addr ≠ p := by
  have hlt := hc.1
  obtain ⟨q, hq, ha, hidx⟩ := ht.entry i (by omega) (hc.2 i hi)
  rw [ha, cfg.pagei_pageAddr hq]
  rintro rfl
  have hnone := ht.away q hq haway
  omega

theorem sameSlot_twinHome (m : MemState) (i : Nat) : SameSlot p m (twinHome cfg m i) := by
  unfold twinHome
  simp only
  split
  · exact ⟨rfl, rfl, rfl⟩
  · exact SameSlot.refl m

theorem sameSlot_startHomeAdwd {i : Nat} (hi : cfg.pagei (m.home i).addr ≠ p)
    (h : startHomeAdwd cfg m i = .ok m') : SameSlot p m m' := by
  have hset : ∀ e : HomeEntry, SameSlot p m (m.setHome i e) := fun _ => ⟨rfl, rfl, rfl⟩
  unfold startHomeAdwd at h
  simp only at h
  split at h
  · exact Except.ok.inj h ▸ SameSlot.refl m
  · cases h
  · cases h
  · split at h
    · simp only [bind_eq_ok, pure, Except.pure, Except.ok.injEq] at h
      obtain ⟨m₁, hprot, rfl⟩ := h
      refine ((sameSlot_memprotect hi hprot).trans ?_).trans (sameSlot_twinHome _ i)
      exact ⟨rfl, rfl, rfl⟩
    · exact Except.ok.inj h ▸ hset _
  · split at h
    · exact Except.ok.inj h ▸ sameSlot_twinHome m i
    · exact (hset _).trans (sameSlot_memprotect hi h)
  · exact (hset _).trans (sameSlot_memprotect hi h)
  · exact Except.ok.inj h ▸ hset _

theorem sameSlot_startHomesAdwd {is : List Nat}
    (his : ∀ i ∈ is, cfg.pagei (m.home i).addr ≠ p) (h : startHomesAdwd cfg m is = .ok m') :
    SameSlot p m m' := by
  induction is generalizing m with
  | nil =>
      simp only [startHomesAdwd, Except.ok.injEq] at h
      exact h ▸ SameSlot.refl m
  | cons i is ih =>
      simp only [startHomesAdwd, bind_eq_ok] at h
      obtain ⟨m₁, h₁, hrest⟩ := h
      refine (sameSlot_startHomeAdwd (his i List.mem_cons_self) h₁).trans (ih ?_ hrest)
      intro j hj
      rw [(still_startHomeAdwd h₁).home.addr]
      exact his j (List.mem_cons_of_mem _ hj)

theorem sameSlot_startHomes {barr : Bool} (ht : m.HomeTables cfg pid) (hp : p < cfg.npages)
    (haway : (m.page p).homepid ≠ pid) (hc : m.Compact) (h : startHomes cfg barr m = .ok m') :
    SameSlot p m m' := by
  unfold startHomes at h
  split at h
  · exact sameSlot_startHomesAdwd (fun i hi => home_ne ht hp haway hc (List.mem_range.mp hi)) h
  · simp only [startHome, bind_eq_ok, pure, Except.pure, Except.ok.injEq] at h
    obtain ⟨-, -, rfl⟩ := h
    refine ⟨rfl, rfl, if_neg ?_⟩
    rintro ⟨i, hi, -, ha⟩
    exact home_ne ht hp haway hc hi ha

end MemState

/-! ## The states of a page -/

/-- What a host has of a page of another host. -/
inductive CopyState
  | absent
  | invalid
  | clean
  | dirty (twin : Page)
  | faulting (w : FaultWait)

/-- The slot, the mapping and the fault handler of host `h` put page `p` in a state. -/
inductive CopyAt (cfg : Config) (h : Host) (p : Nat) : CopyState → Prop
  | absent (hc : cfg.cachepages ≤ (h.m.page p).cachei) (hprot : h.m.prot p = .unmapped)
      (hpc : ∀ w, h.pc = .fault w → w.page ≠ p) : CopyAt cfg h p .absent
  | invalid (hc : (h.m.page p).cachei < cfg.cachepages)
      (hst : (h.m.cache (h.m.page p).cachei).state = .inv)
      (hw : (h.m.cache (h.m.page p).cachei).wtnt = false) (hprot : h.m.prot p = .none)
      (hpc : ∀ w, h.pc = .fault w → w.page ≠ p) : CopyAt cfg h p .invalid
  | clean (hc : (h.m.page p).cachei < cfg.cachepages)
      (hst : (h.m.cache (h.m.page p).cachei).state = .ro)
      (hw : (h.m.cache (h.m.page p).cachei).wtnt = false) (hprot : h.m.prot p = .read)
      (hpc : ∀ w, h.pc = .fault w → w.page ≠ p) : CopyAt cfg h p .clean
  | dirty (twin : Page) (hc : (h.m.page p).cachei < cfg.cachepages)
      (hst : (h.m.cache (h.m.page p).cachei).state = .rw)
      (hw : (h.m.cache (h.m.page p).cachei).wtnt = true)
      (htwin : (h.m.cache (h.m.page p).cachei).twin = some twin)
      (hprot : h.m.prot p = .readWrite)
      (hpc : ∀ w, h.pc = .fault w → w.page ≠ p) : CopyAt cfg h p (.dirty twin)
  | faulting (w : FaultWait) (hc : (h.m.page p).cachei < cfg.cachepages)
      (hst : (h.m.cache (h.m.page p).cachei).state = if w.writefault then .rw else .ro)
      (hw : (h.m.cache (h.m.page p).cachei).wtnt = w.writefault)
      (hprot : h.m.prot p = .readWrite)
      (hpc : h.pc = .fault w) (hpage : w.page = p) (hslot : w.cachei = (h.m.page p).cachei) :
      CopyAt cfg h p (.faulting w)

/-- Every page of another host is in one of the states, and faults are about them. -/
structure RemoteOk (cfg : Config) (pid : Nat) (h : Host) : Prop where
  page : ∀ p < cfg.npages, (h.m.page p).homepid ≠ pid → ∃ c, CopyAt cfg h p c
  fault : ∀ w, h.pc = .fault w → w.page < cfg.npages ∧ (h.m.page w.page).homepid ≠ pid

section Host

variable {pid p : Nat} {h h' : Host} {out : Out} {c : CopyState}

/-- The state depends on the slot, the mapping and the fault that is handled. -/
theorem CopyAt.congr (hat : CopyAt cfg h p c) (hsame : SameSlot p h.m h'.m)
    (hpc : ∀ w, w.page = p → (h'.pc = .fault w ↔ h.pc = .fault w)) : CopyAt cfg h' p c := by
  have hslot : h'.m.cache (h'.m.page p).cachei = h.m.cache (h.m.page p).cachei := by
    rw [hsame.page, hsame.slot]
  have hno : (∀ w, h.pc = .fault w → w.page ≠ p) → ∀ w, h'.pc = .fault w → w.page ≠ p :=
    fun hold w hw hp => hold w ((hpc w hp).mp hw) hp
  cases hat with
  | absent hc hprot hpc₀ =>
      exact .absent (by rwa [hsame.page]) (by rw [hsame.prot, hprot]) (hno hpc₀)
  | invalid hc hst hw hprot hpc₀ =>
      exact .invalid (by rwa [hsame.page]) (by rw [hslot, hst]) (by rw [hslot, hw])
        (by rw [hsame.prot, hprot]) (hno hpc₀)
  | clean hc hst hw hprot hpc₀ =>
      exact .clean (by rwa [hsame.page]) (by rw [hslot, hst]) (by rw [hslot, hw])
        (by rw [hsame.prot, hprot]) (hno hpc₀)
  | dirty twin hc hst hw htwin hprot hpc₀ =>
      exact .dirty twin (by rwa [hsame.page]) (by rw [hslot, hst]) (by rw [hslot, hw])
        (by rw [hslot, htwin]) (by rw [hsame.prot, hprot]) (hno hpc₀)
  | faulting w hc hst hw hprot hpc₀ hpage hcachei =>
      exact .faulting w (by rwa [hsame.page]) (by rw [hslot, hst]) (by rw [hslot, hw])
        (by rw [hsame.prot, hprot]) ((hpc w hpage).mpr hpc₀) hpage (by rw [hsame.page, hcachei])

theorem CopyAt.unique {c' : CopyState} (hat : CopyAt cfg h p c) (hat' : CopyAt cfg h p c') :
    c' = c := by
  cases hat with
  | absent hc hprot hpc =>
      cases hat' with
      | absent => rfl
      | faulting w hc' => omega
      | _ hc' => omega
  | invalid hc hst hw hprot hpc =>
      cases hat' with
      | absent hc' => omega
      | invalid => rfl
      | clean _ hst' => rw [hst] at hst'; cases hst'
      | dirty _ _ hst' => rw [hst] at hst'; cases hst'
      | faulting w _ _ _ _ hpc' hp' => exact absurd hp' (hpc w hpc')
  | clean hc hst hw hprot hpc =>
      cases hat' with
      | absent hc' => omega
      | invalid _ hst' => rw [hst] at hst'; cases hst'
      | clean => rfl
      | dirty _ _ hst' => rw [hst] at hst'; cases hst'
      | faulting w _ _ _ _ hpc' hp' => exact absurd hp' (hpc w hpc')
  | dirty twin hc hst hw htwin hprot hpc =>
      cases hat' with
      | absent hc' => omega
      | invalid _ hst' => rw [hst] at hst'; cases hst'
      | clean _ hst' => rw [hst] at hst'; cases hst'
      | dirty twin' _ _ _ htwin' =>
          rw [htwin, Option.some.injEq] at htwin'
          rw [htwin']
      | faulting w _ _ _ _ hpc' hp' => exact absurd hp' (hpc w hpc')
  | faulting w hc hst hw hprot hpc hpage hslot =>
      cases hat' with
      | absent hc' => omega
      | invalid _ _ _ _ hpc' => exact absurd hpage (hpc' w hpc)
      | clean _ _ _ _ hpc' => exact absurd hpage (hpc' w hpc)
      | dirty _ _ _ _ _ _ hpc' => exact absurd hpage (hpc' w hpc)
      | faulting w' _ _ _ _ hpc' =>
          rw [hpc, Pc.fault.injEq] at hpc'
          rw [hpc']

/-! ## Faults -/

theorem sameSlot_setCache {m : MemState} {s : Nat} {e : CacheEntry} (hs : (m.page p).cachei ≠ s) :
    SameSlot p m (m.setCache s e) := ⟨rfl, by simp [hs], rfl⟩

theorem cachei_ne {m : MemState} (hi : CacheInverse cfg pid m) {q : Nat} (hp : p < cfg.npages)
    (hq : q < cfg.npages) (hpq : p ≠ q) (hc : (m.page q).cachei < cfg.cachepages) :
    (m.page p).cachei ≠ (m.page q).cachei := by
  intro heq
  have hp' := ((hi.slot p hp _ hc).mp heq).2
  have hq' := ((hi.slot q hq _ hc).mp rfl).2
  rw [hp'] at hq'
  exact hpq (cfg.pageAddr_inj hp hq hq')

/-- `findposition` for another page leaves page `p` alone or takes its slot, which it
does not do to a written page. -/
theorem findposition_other {m m' : MemState} (hi : CacheInverse cfg pid m) {q seti s : Nat}
    (hp : p < cfg.npages) (hpq : p ≠ q) (h : m.findposition cfg q seti = some (s, m')) :
    ((m.page p).cachei ≠ s ∧ SameSlot p m m') ∨
      ((m.page p).cachei = s ∧ (m.cache s).state ≠ .rw ∧
        m'.page p = { m.page p with cachei := cfg.cachepages } ∧ m'.prot p = .unmapped) := by
  have hs : s < cfg.cachepages := by
    rw [(findposition_some h).1]
    exact (findSlot_settles cfg m seti).1
  have hflush : (m.cache s).state ≠ .unmap → (m.cache s).state ≠ .rw →
      m' = (m.flushpage cfg s).setPage q { (m.flushpage cfg s).page q with cachei := s } →
      ((m.page p).cachei ≠ s ∧ SameSlot p m m') ∨
        ((m.page p).cachei = s ∧ (m.cache s).state ≠ .rw ∧
          m'.page p = { m.page p with cachei := cfg.cachepages } ∧ m'.prot p = .unmapped) := by
    intro hused hrw hm'
    subst hm'
    obtain ⟨r, hr, hrs, hra⟩ := hi.toLinked.owner hs hused
    by_cases hpr : p = r
    · subst hpr
      right
      refine ⟨hrs, hrw, ?_, ?_⟩
      · rw [setPage_page, upd_of_ne _ _ hpq]
        simp [flushpage, hra, cfg.pagei_pageAddr hr, memunmap]
      · simp [flushpage, hra, cfg.pagei_pageAddr hr, memunmap]
    · left
      have hne : (m.page p).cachei ≠ s := by
        intro hps
        have hra' := ((hi.slot p hp s hs).mp hps).2
        rw [hra] at hra'
        exact hpr (cfg.pageAddr_inj hr hp hra').symm
      refine ⟨hne, ?_, ?_, ?_⟩
      · rw [setPage_page, upd_of_ne _ _ hpq]
        simp [flushpage, hra, cfg.pagei_pageAddr hr, memunmap, hpr]
      · simp [flushpage, memunmap, hne]
      · simp [flushpage, hra, cfg.pagei_pageAddr hr, memunmap, hpr]
  have hsome := findposition_some h
  unfold MemState.findposition at h
  rw [← hsome.1] at h
  simp only at h
  split at h
  · cases h
  · rename_i hst
    simp only [Option.some.injEq, Prod.mk.injEq, true_and] at h
    left
    have hne : (m.page p).cachei ≠ s := by
      intro hps
      exact ((hi.slot p hp s hs).mp hps).1 hst
    rw [← h]
    refine ⟨hne, ?_, rfl, rfl⟩
    rw [setPage_page, upd_of_ne _ _ hpq]
  · rename_i hst
    simp only [Option.some.injEq, Prod.mk.injEq, true_and] at h
    exact hflush (by simp [hst]) (by simp [hst]) h.symm
  · rename_i hst
    simp only [Option.some.injEq, Prod.mk.injEq, true_and] at h
    exact hflush (by simp [hst]) (by simp [hst]) h.symm

theorem cacheFault_other {m m' : MemState} (hi : CacheInverse cfg pid m)
    {q seti : Nat} {w : FaultWait} (hp : p < cfg.npages) (hq : q < cfg.npages) (hpq : p ≠ q)
    (h : m.cacheFault cfg q seti = .ok (m', w, out)) :
    SameSlot p m m' ∨
      ((m.page p).cachei < cfg.cachepages ∧ (m.cache (m.page p).cachei).state ≠ .rw ∧
        m'.page p = { m.page p with cachei := cfg.cachepages } ∧ m'.prot p = .unmapped) := by
  obtain ⟨m₁, s, hslot, rfl, -⟩ := (cacheFault_eq_ok cfg m).mp h
  rcases faultSlot_cases cfg m hslot with ⟨hc, rfl, -, wait, rfl, -⟩ | ⟨hc, m₂, hpos, rfl, -⟩
  · left
    have hopen : SameSlot p m { m.setProt q .readWrite with getpwait := wait } :=
      ⟨rfl, rfl, by simp [hpq]⟩
    exact hopen.trans (sameSlot_setCache (cachei_ne hi hp hq hpq hc))
  · have hs : s < cfg.cachepages := by
      rw [(findposition_some hpos).1]
      exact (findSlot_settles cfg m seti).1
    rcases findposition_other hi hp hpq hpos with ⟨hne, hsame⟩ | ⟨heq, hrw, hpage, hprot⟩
    · left
      have hmap : SameSlot p m₂ { m₂.memmap q .readWrite with getpwait := true } :=
        ⟨rfl, rfl, by simp [memmap, hpq]⟩
      refine (hsame.trans hmap).trans (sameSlot_setCache ?_)
      change (m₂.page p).cachei ≠ s
      rw [hsame.page]
      exact hne
    · right
      subst heq
      exact ⟨hs, hrw, hpage, by simpa [memmap, hpq] using hprot⟩

/-- A fault on page `p` itself: a copy that is only to be opened for writing is not
asked for, every other page is. -/
theorem cacheFault_self (ht : h.m.CacheTables cfg) {seti : Nat} {w : FaultWait} {m : MemState}
    (hat : CopyAt cfg h p c) (hpc : h.pc = .app)
    (hfault : ¬ h.m.Readable p ∨ h.m.prot p ≠ .readWrite)
    (hm : h.m.cacheFault cfg p seti = .ok (m, w, out)) :
    w.page = p ∧ CopyAt cfg { h with m := m, pc := .fault w } p (.faulting w) ∧
      ((c = .clean ∧ w.writefault = true ∧ out = [] ∧ m.getpwait = h.m.getpwait) ∨
        ((c = .absent ∨ c = .invalid) ∧ m.getpwait = true ∧
          ∃ temp, out = [((h.m.page p).homepid, .getp (cfg.pageAddr p) temp)])) := by
  obtain ⟨m₁, s, hslot, rfl, rfl⟩ := (cacheFault_eq_ok cfg h.m).mp hm
  refine ⟨rfl, ?_, ?_⟩
  · rcases faultSlot_cases cfg h.m hslot with ⟨hc, rfl, hmap, wait, rfl, -⟩ |
      ⟨hc, m₂, hpos, rfl, -⟩
    · have hwrite : h.m.writefault p = true := by simpa [writefault] using hmap
      have hentry : ∀ c : CacheEntry, (h.m.faultEntry cfg p c).state = .rw ∧
          (h.m.faultEntry cfg p c).wtnt = true := by
        intro c
        unfold faultEntry
        rw [if_pos hwrite]
        exact ⟨rfl, rfl⟩
      refine .faulting _ hc ?_ ?_ (by simp) rfl rfl rfl
      · simp [hwrite, (hentry _).1]
      · simp [hwrite, (hentry _).2]
    · have hprot : h.m.prot p = .unmapped := by
        cases hat with
        | absent _ hprot => exact hprot
        | invalid hc' => omega
        | clean hc' => omega
        | dirty _ hc' => omega
        | faulting _ hc' => omega
      have hread : h.m.writefault p = false := by simp [writefault, hprot]
      obtain ⟨-, hclean, -⟩ := findposition_handed ht hpos
      obtain ⟨hlt, hcachei, -, -⟩ := faultSlot_recorded hslot
      have hcachei' : (m₂.page p).cachei = s := hcachei
      refine .faulting _ ?_ ?_ ?_ (by simp [memmap]) rfl rfl ?_
      · simp only [setCache_page, memmap, setMem_page, setProt_page, hcachei']
        exact hlt
      · simp [memmap, hcachei', faultEntry, hread]
      · simpa [memmap, hcachei', faultEntry, hread] using hclean
      · simp [memmap, hcachei']
  · cases hat with
    | absent hc hprot =>
        right
        refine ⟨Or.inl rfl, ?_⟩
        rcases faultSlot_cases cfg h.m hslot with ⟨hc', -⟩ | ⟨-, m₂, hpos, rfl, rfl⟩
        · omega
        · exact ⟨rfl, false, rfl⟩
    | invalid hc hst hw hprot =>
        right
        refine ⟨Or.inr rfl, ?_⟩
        unfold faultSlot at hslot
        simp only [if_pos hc, bind_eq_ok] at hslot
        obtain ⟨m₂, -, hslot⟩ := hslot
        rw [if_neg (by simp [hst])] at hslot
        simp only [pure, Except.pure, Except.ok.injEq, Prod.mk.injEq] at hslot
        obtain ⟨rfl, rfl, rfl⟩ := hslot
        exact ⟨rfl, true, rfl⟩
    | clean hc hst hw hprot =>
        left
        have hwrite : h.m.writefault p = true := by simp [writefault, hprot]
        refine ⟨rfl, hwrite, ?_⟩
        unfold faultSlot at hslot
        simp only [if_pos hc, bind_eq_ok, memprotect_eq_ok] at hslot
        obtain ⟨m₂, ⟨-, rfl⟩, hslot⟩ := hslot
        rw [if_pos ⟨hwrite, hst⟩] at hslot
        simp only [pure, Except.pure, Except.ok.injEq, Prod.mk.injEq] at hslot
        obtain ⟨rfl, rfl, rfl⟩ := hslot
        exact ⟨rfl, rfl⟩
    | dirty twin hc hst hw htwin hprot =>
        rcases hfault with hno | hne
        · exact absurd (Or.inr hprot) hno
        · exact absurd hprot hne
    | faulting w' _ _ _ _ hpc' =>
        rw [hpc] at hpc'
        cases hpc'

theorem faultEnd_other {m m' : MemState} {w : FaultWait} (hne : w.page ≠ p)
    (hslot : (m.page p).cachei ≠ w.cachei) (h : m.faultEnd w = .ok m') : SameSlot p m m' := by
  unfold faultEnd at h
  split at h
  · simp only [pure, Except.pure, Except.ok.injEq] at h
    subst h
    exact sameSlot_setCache hslot
  · exact sameSlot_memprotect hne h

/-- The page is there, and its contents are the twin of a write. -/
theorem faultEnd_self {m : MemState} {w : FaultWait} (hat : CopyAt cfg h p (.faulting w))
    (hm : h.m.faultEnd w = .ok m) : CopyAt cfg { h with m := m, pc := .app } p
      (if w.writefault then .dirty (h.m.mem p) else .clean) := by
  cases hat with
  | faulting _ hc hst hw hprot hpc hpage hslot =>
      unfold faultEnd at hm
      split at hm
      · rename_i hwrite
        simp only [pure, Except.pure, Except.ok.injEq] at hm
        subst hm
        rw [if_pos hwrite]
        rw [if_pos hwrite] at hst
        refine .dirty _ hc ?_ ?_ ?_ hprot nofun
        · simp [hslot, hst]
        · simp [hslot, hw, hwrite]
        · simp [hslot, hpage]
      · rename_i hread
        obtain ⟨-, rfl⟩ := memprotect_eq_ok.mp hm
        rw [if_neg hread] at hst ⊢
        refine .clean hc hst ?_ (by simp [hpage]) nofun
        rw [Bool.not_eq_true] at hread
        exact hw.trans hread

/-! ## The start of an interval -/

/-- A page that was not written keeps its slot and its mapping. -/
theorem sameSlot_startCache {m m' : MemState} (hi : CacheInverse cfg pid m) (hp : p < cfg.npages)
    (hclean : (m.page p).cachei < cfg.cachepages →
      (m.cache (m.page p).cachei).wtnt = false) (h : startCache cfg m = .ok m') :
    SameSlot p m m' := by
  simp only [startCache, bind_eq_ok, pure, Except.pure, Except.ok.injEq] at h
  obtain ⟨-, -, rfl⟩ := h
  refine ⟨rfl, if_neg ?_, if_neg ?_⟩
  · rintro ⟨hc, hw⟩
    rw [hclean hc] at hw
    cases hw
  · rintro ⟨s, hs, hw, ha⟩
    have hused : (m.cache s).state ≠ .unmap := by
      intro hst
      rw [hi.wtnt s hs hst] at hw
      cases hw
    obtain ⟨q, hq, hqs, hqa⟩ := hi.toLinked.owner hs hused
    rw [hqa, cfg.pagei_pageAddr hq] at ha
    subst ha
    rw [hqs] at hclean
    rw [hclean hs] at hw
    cases hw

theorem startCache_dirty {m : MemState} {twin : Page} (hi : CacheInverse cfg pid h.m)
    (hp : p < cfg.npages) (hat : CopyAt cfg h p (.dirty twin))
    (hm : startCache cfg h.m = .ok m) : CopyAt cfg { h with m := m } p .clean := by
  simp only [startCache, bind_eq_ok, pure, Except.pure, Except.ok.injEq] at hm
  obtain ⟨-, -, rfl⟩ := hm
  cases hat with
  | dirty _ hc hst hw htwin hprot hpc =>
      have haddr : (h.m.cache (h.m.page p).cachei).addr = cfg.pageAddr p :=
        ((hi.slot p hp _ hc).mp rfl).2
      refine .clean hc ?_ ?_ (if_pos ⟨_, hc, hw, ?_⟩) hpc
      · simp [hc, hw]
      · simp [hc, hw]
      · rw [haddr, cfg.pagei_pageAddr hp]

/-- The state of a page after the start of an interval. -/
def CopyState.renewed : CopyState → CopyState
  | .dirty _ => .clean
  | c => c

/-- The start of an interval, after which the main thread is in the application. -/
theorem CopyAt.startinterval {m₁ m₂ : MemState} {barr : Bool} (hat : CopyAt cfg h p c)
    (hi : CacheInverse cfg pid h.m) (hok : PagesOk cfg pid h) (hcompact : h.m.Compact)
    (hp : p < cfg.npages) (haway : (h.m.page p).homepid ≠ pid) (hpc : ∀ w, h.pc ≠ .fault w)
    (h₁ : startCache cfg h.m = .ok m₁) (h₂ : startHomes cfg barr m₁ = .ok m₂) (hm : h'.m = m₂)
    (hpc' : h'.pc = .app) : CopyAt cfg h' p c.renewed := by
  have hhome := (startCache_ok hok.tables.cache h₁).1
  have haway₁ : (m₁.page p).homepid ≠ pid := by
    rw [hhome.homepid]
    exact haway
  have hrest : SameSlot p m₁ h'.m :=
    hm ▸ sameSlot_startHomes (hhome.tables hok.tables.home) hp haway₁ (hhome.compact hcompact) h₂
  have hkeep : (∀ twin, c ≠ .dirty twin) → CopyAt cfg h' p c := by
    intro hne
    refine hat.congr ((sameSlot_startCache hi hp ?_ h₁).trans hrest) ?_
    · cases hat with
      | absent hc => exact fun hc' => by omega
      | invalid hc hst hw => exact fun _ => hw
      | clean hc hst hw => exact fun _ => hw
      | dirty twin => exact absurd rfl (hne twin)
      | faulting w _ _ _ _ hpcw => exact absurd hpcw (hpc w)
    · intro w _
      constructor
      · intro hw
        rw [hpc'] at hw
        cases hw
      · exact fun hw => absurd hw (hpc w)
  cases c with
  | dirty twin =>
      refine (startCache_dirty hi hp hat h₁).congr hrest ?_
      intro w _
      constructor
      · intro hw
        rw [hpc'] at hw
        cases hw
      · exact fun hw => absurd hw (hpc w)
  | absent => exact hkeep nofun
  | invalid => exact hkeep nofun
  | clean => exact hkeep nofun
  | faulting w => exact hkeep nofun

/-! ## Steps of the main thread -/

/-- What a step of the main thread does to the state of page `p`. -/
inductive MainCopy (cfg : Config) (h h' : Host) (p : Nat) (out : Out) :
    CopyState → CopyState → Prop
  /-- Nothing. -/
  | keep (c : CopyState) (hno : ∀ w, c ≠ .faulting w)
      (hrun : (∃ twin, c = .dirty twin) → Running h' → Running h) : MainCopy cfg h h' p out c c
  /-- The page is asked for. -/
  | ask (c : CopyState) (w : FaultWait) (temp : Bool) (hc : c = .absent ∨ c = .invalid)
      (hwait : h'.m.getpwait = true)
      (hout : out = [((h.m.page p).homepid, .getp (cfg.pageAddr p) temp)]) :
      MainCopy cfg h h' p out c (.faulting w)
  /-- The copy is opened for writing. -/
  | openCopy (w : FaultWait) (hw : w.writefault = true) (hpc : h.pc = .app)
      (hwait : h'.m.getpwait = h.m.getpwait) (hout : out = []) :
      MainCopy cfg h h' p out .clean (.faulting w)
  /-- Another page takes the slot. -/
  | evict (c : CopyState) (hc : c = .clean ∨ c = .invalid) : MainCopy cfg h h' p out c .absent
  | finish (w : FaultWait) (hwait : h.m.getpwait = false) (hrun' : Running h') :
      MainCopy cfg h h' p out (.faulting w) (if w.writefault then .dirty (h.m.mem p) else .clean)
  /-- A new interval starts. -/
  | renew (twin : Page) (hrun : ¬ Running h) (hrun' : Running h') :
      MainCopy cfg h h' p out (.dirty twin) .clean

theorem CopyAt.not_faulting (hat : CopyAt cfg h p c) (hpc : ∀ w, h.pc = .fault w → w.page ≠ p) :
    ∀ w, c ≠ .faulting w := by
  rintro w rfl
  cases hat with
  | faulting _ _ _ _ _ hpcw hpage => exact hpc w hpcw hpage

theorem CopyAt.of_fault (hat : CopyAt cfg h p c) {w : FaultWait} (hpc : h.pc = .fault w)
    (hpage : w.page = p) : c = .faulting w := by
  cases hat with
  | absent _ _ hno => exact absurd hpage (hno w hpc)
  | invalid _ _ _ _ hno => exact absurd hpage (hno w hpc)
  | clean _ _ _ _ hno => exact absurd hpage (hno w hpc)
  | dirty _ _ _ _ _ _ hno => exact absurd hpage (hno w hpc)
  | faulting w' _ _ _ _ hpc' =>
      rw [hpc, Pc.fault.injEq] at hpc'
      rw [hpc']

/-- The page of a fault is mapped for writing while the handler waits for it. -/
theorem RemoteOk.fault_writable (hrem : RemoteOk cfg pid h) {w : FaultWait}
    (hpc : h.pc = .fault w) : h.m.prot w.page = .readWrite := by
  obtain ⟨hlt, haway⟩ := hrem.fault w hpc
  obtain ⟨c, hat⟩ := hrem.page w.page hlt haway
  obtain rfl := hat.of_fault hpc rfl
  cases hat with
  | faulting _ _ _ _ hprot => exact hprot

theorem main_copy {a : Act} (hoff : cfg.hMig = false) (hi : CacheInverse cfg pid h.m)
    (hok : PagesOk cfg pid h) (hrem : RemoteOk cfg pid h) (hp : p < cfg.npages)
    (haway : (h.m.page p).homepid ≠ pid) (hat : CopyAt cfg h p c)
    (hm : Main cfg pid h a h' out) :
    ∃ c', CopyAt cfg h' p c' ∧ MainCopy cfg h h' p out c c' := by
  have hkeep : SameSlot p h.m h'.m → (∀ w, h.pc = .fault w → w.page ≠ p) →
      (∀ w, h'.pc = .fault w → w.page ≠ p) → (Running h' → Running h) →
      ∃ c', CopyAt cfg h' p c' ∧ MainCopy cfg h h' p out c c' := by
    intro hsame hpc hpc' hrun
    refine ⟨c, hat.congr hsame ?_, .keep c (hat.not_faulting hpc) fun _ => hrun⟩
    intro w hw
    exact ⟨fun hf => absurd hw (hpc' w hf), fun hf => absurd hw (hpc w hf)⟩
  -- a step from the application, or back to it
  have happ : h.pc = .app → SameSlot p h.m h'.m → (∀ w, h'.pc = .fault w → w.page ≠ p) →
      ∃ c', CopyAt cfg h' p c' ∧ MainCopy cfg h h' p out c c' :=
    fun hpc hsame hpc' => hkeep hsame (by simp [hpc]) hpc' fun _ => Or.inl hpc
  have hquiet : SameSlot p h.m h'.m → (∀ w, h.pc ≠ .fault w) → runs h'.pc = false →
      ∃ c', CopyAt cfg h' p c' ∧ MainCopy cfg h h' p out c c' := by
    intro hsame hpc hrun
    refine hkeep hsame (fun w hw => absurd hw (hpc w)) ?_ fun hr => absurd hr (not_running rfl hrun)
    intro w hw
    rw [hw] at hrun
    cases hrun
  have hstart : ∀ {m₁ m₂ : MemState} {barr : Bool}, startCache cfg h.m = .ok m₁ →
      startHomes cfg barr m₁ = .ok m₂ → runs h.pc = false → h'.m = m₂ → h'.pc = .app →
      ∃ c', CopyAt cfg h' p c' ∧ MainCopy cfg h h' p out c c' := by
    intro m₁ m₂ barr h₁ h₂ hrun hm hpc'
    have hpc : ∀ w, h.pc ≠ .fault w := by
      intro w hw
      rw [hw] at hrun
      cases hrun
    have hno : ¬ Running h := not_running rfl hrun
    have hat' := hat.startinterval hi hok (hok.compact (Or.inl hoff)) hp haway hpc h₁ h₂ hm hpc'
    refine ⟨c.renewed, hat', ?_⟩
    have hfault := hat.not_faulting fun w hw => absurd hw (hpc w)
    cases c with
    | dirty twin => exact .renew twin hno (Or.inl hpc')
    | absent => exact .keep _ hfault fun ⟨_, ht⟩ => by cases ht
    | invalid => exact .keep _ hfault fun ⟨_, ht⟩ => by cases ht
    | clean => exact .keep _ hfault fun ⟨_, ht⟩ => by cases ht
    | faulting w => exact absurd rfl (hfault w)
  cases hm with
  | load hpc => exact happ hpc (SameSlot.refl _) (by simp [hpc])
  | store hpc => exact happ hpc ⟨rfl, rfl, rfl⟩ (by simp [hpc])
  | @homeFault q seti write m hpc hq hfault hhome hm =>
      refine happ hpc (sameSlot_homeFault ?_ hm) (by simp [hpc])
      rintro rfl
      exact haway hhome
  | @cacheFault q seti write m w out hpc hq hfault hhome hm =>
      by_cases hqp : p = q
      · subst hqp
        have hfault' : ¬ h.m.Readable p ∨ h.m.prot p ≠ .readWrite := hfault.imp_right And.right
        obtain ⟨-, hat', hask⟩ := cacheFault_self hok.tables.cache hat hpc hfault' hm
        refine ⟨_, hat', ?_⟩
        rcases hask with ⟨rfl, hwrite, hout, hwait⟩ | ⟨hc, hwait, temp, hout⟩
        · exact .openCopy w hwrite hpc hwait hout
        · exact .ask c w temp hc hwait hout
      · have hwq : w.page = q := (cacheFault_ok hok.tables.cache hq hm).page
        have hpc' : ∀ w', Pc.fault w = .fault w' → w'.page ≠ p := by
          intro w' hw'
          rw [← Pc.fault.inj hw', hwq]
          exact Ne.symm hqp
        rcases cacheFault_other hi hp hq hqp hm with hsame | ⟨hc, hrw, hpage, hprot⟩
        · exact happ hpc hsame hpc'
        · refine ⟨.absent, .absent ?_ hprot hpc', .evict c ?_⟩
          · rw [hpage]
          · cases hat with
            | absent hc' => omega
            | invalid => exact Or.inr rfl
            | clean => exact Or.inl rfl
            | dirty _ _ hst => exact absurd hst hrw
            | faulting _ _ _ _ _ hpcw =>
                rw [hpc] at hpcw
                cases hpcw
  | @faultEnd w m hpc hwait hm =>
      obtain ⟨hlt, haway'⟩ := hrem.fault w hpc
      by_cases hwp : w.page = p
      · obtain rfl := hat.of_fault hpc hwp
        exact ⟨_, faultEnd_self hat hm, .finish w hwait (Or.inl rfl)⟩
      · obtain ⟨c₁, hat₁⟩ := hrem.page w.page hlt haway'
        obtain rfl := hat₁.of_fault hpc rfl
        cases hat₁ with
        | faulting _ hc _ _ _ _ _ hslot =>
            refine hkeep (faultEnd_other hwp ?_ hm) ?_ nofun fun _ => Or.inr (Or.inl ⟨w, hpc⟩)
            · rw [hslot]
              exact cachei_ne hi hp hlt (Ne.symm hwp) hc
            · intro w' hw'
              rw [hpc, Pc.fault.injEq] at hw'
              rwa [← hw']
  | single hpc => exact happ hpc (SameSlot.refl _) (by simp [hpc])
  | start hpc hhost ha hop hm =>
      obtain ⟨y, dm, -, -, rfl⟩ := endinterval_ok hm
      exact happ hpc ⟨rfl, rfl, rfl⟩ nofun
  | @scan op i n h₁ hpc hlt hm =>
      have hsame : SameSlot p h.m h₁.m := sameSlot_scanHome hm
      exact hquiet hsame (by simp [hpc]) rfl
  | scanEnd hpc => exact hquiet (SameSlot.refl _) (by simp [hpc]) rfl
  | acquire hpc => exact hquiet (SameSlot.refl _) (by simp [hpc]) rfl
  | acquired hpc hwait hm =>
      obtain ⟨m₁, m₂, h₁, h₂, rfl⟩ := startinterval_ok hm
      exact hstart h₁ h₂ (by rw [hpc]; rfl) rfl rfl
  | release hpc hwait hout hm =>
      obtain ⟨m₁, m₂, h₁, h₂, rfl⟩ := startinterval_ok hm
      exact hstart h₁ h₂ (by rw [hpc]; rfl) rfl rfl
  | arrive hpc hwait hm =>
      obtain ⟨cs, -, -, rfl⟩ := arrive_ok hm
      exact hquiet (SameSlot.refl _) (by simp [hpc]) rfl
  | barrsync hpc => exact hquiet (SameSlot.refl _) (by simp [hpc]) rfl
  | leave hpc hm =>
      obtain ⟨m₁, m₂, h₁, h₂, rfl⟩ := leaveBarrier_ok hm
      refine hstart h₁ h₂ ?_ rfl rfl
      rcases hpc with ⟨hpc, -⟩ | ⟨hpc, -⟩ <;> rw [hpc] <;> rfl
  | wait hpc => exact happ hpc (SameSlot.refl _) nofun
  | waited hpc =>
      exact hkeep (SameSlot.refl _) (by simp [hpc]) nofun fun _ => Or.inr (Or.inr hpc)
  | stay hpc => exact hquiet (SameSlot.refl _) (by simp [hpc]) (by rw [hpc]; rfl)

theorem main_remoteOk {a : Act} (hoff : cfg.hMig = false) (hi : CacheInverse cfg pid h.m)
    (hok : PagesOk cfg pid h) (hrem : RemoteOk cfg pid h) (hm : Main cfg pid h a h' out) :
    RemoteOk cfg pid h' := by
  have hpid := (main_kept hok.tables hm).homepid
  constructor
  · intro p hp haway
    rw [hpid] at haway
    obtain ⟨c, hat⟩ := hrem.page p hp haway
    obtain ⟨c', hat', -⟩ := main_copy hoff hi hok hrem hp haway hat hm
    exact ⟨c', hat'⟩
  · intro w hw
    rw [hpid]
    cases hm with
    | @cacheFault p seti write m w' out hpc hp hfault hhome hm =>
        rw [← Pc.fault.inj hw, (cacheFault_ok hok.tables.cache hp hm).page]
        exact ⟨hp, hhome⟩
    | load hpc => rw [hpc] at hw; cases hw
    | store hpc => rw [hpc] at hw; cases hw
    | homeFault hpc => rw [hpc] at hw; cases hw
    | single hpc => rw [hpc] at hw; cases hw
    | start hpc hhost ha hop hm =>
        obtain ⟨y, dm, -, -, rfl⟩ := endinterval_ok hm
        cases hw
    | arrive hpc hwait hm =>
        obtain ⟨cs, -, -, rfl⟩ := arrive_ok hm
        cases hw
    | leave hpc hm =>
        obtain ⟨m₁, m₂, h₁, h₂, rfl⟩ := leaveBarrier_ok hm
        cases hw
    | stay hpc => rw [hpc] at hw; cases hw
    | _ => cases hw

/-! ## Messages -/

theorem copy_invalidateCopy {n : GrantNotice} {m : MemState} (hi : CacheInverse cfg pid h.m)
    (hp : p < cfg.npages) (hpc : ∀ w, h.pc ≠ .fault w) (hn : cfg.IsPage n.addr)
    (hat : CopyAt cfg h p c) (hm : invalidateCopy cfg pid h.m n = .ok m) :
    CopyAt cfg { h with m := m } p c ∨
      ((c = .clean ∨ ∃ twin, c = .dirty twin) ∧ CopyAt cfg { h with m := m } p .invalid) := by
  obtain ⟨q, hq, ha⟩ := hn
  unfold invalidateCopy at hm
  simp only [cachepage, homehost, ha, cfg.pagei_pageAddr hq] at hm
  split at hm
  · rename_i hcond
    obtain ⟨-, haway, hc, hst⟩ := hcond
    obtain ⟨-, rfl⟩ := memprotect_eq_ok.mp hm
    have haddr := ((hi.slot q hq _ hc).mp rfl).2
    simp only [haddr, cfg.pagei_pageAddr hq]
    by_cases hpq : p = q
    · subst hpq
      right
      constructor
      · cases hat with
        | absent hc' => omega
        | invalid _ hst' => exact absurd hst' hst
        | clean => exact Or.inl rfl
        | dirty twin => exact Or.inr ⟨twin, rfl⟩
        | faulting w _ _ _ _ hpcw => exact absurd hpcw (hpc w)
      · exact .invalid hc (by simp) (by simp) (by simp) fun w hw => absurd hw (hpc w)
    · left
      refine hat.congr ?_ fun w _ => Iff.rfl
      exact (sameSlot_setCache (cachei_ne hi hp hq hpq hc)).trans ⟨rfl, rfl, by simp [hpq]⟩
  · left
    rw [← Except.ok.inj hm]
    exact hat

/-- Notices drop copies, written ones too. -/
theorem copy_invalidate {lock : Nat} {ns : List GrantNotice} {m : MemState}
    (hoff : cfg.hMig = false) (hi : CacheInverse cfg pid h.m) (hp : p < cfg.npages)
    (hpc : ∀ w, h.pc ≠ .fault w) (hns : ∀ n ∈ ns, cfg.IsPage n.addr) (hat : CopyAt cfg h p c)
    (hm : invalidate cfg pid lock h.m ns = .ok m) :
    CopyAt cfg { h with m := m } p c ∨
      ((c = .clean ∨ ∃ twin, c = .dirty twin) ∧ CopyAt cfg { h with m := m } p .invalid) := by
  induction ns generalizing h c with
  | nil =>
      simp only [invalidate, Except.ok.injEq] at hm
      rw [← hm]
      exact Or.inl hat
  | cons n ns ih =>
      simp only [invalidate, bind_eq_ok] at hm
      obtain ⟨m₁, hone, hrest⟩ := hm
      have hn := hns n List.mem_cons_self
      have hi₁ : CacheInverse cfg pid m₁ := hi.invalidateNotice hn hone
      have hns' : ∀ n ∈ ns, cfg.IsPage n.addr := fun x hx => hns x (List.mem_cons_of_mem _ hx)
      simp only [invalidateNotice, bind_eq_ok] at hone
      obtain ⟨m₂, hcopy, m₃, hmig, hmark⟩ := hone
      -- the other branches leave the slot alone
      have hsame : SameSlot p m₂ m₁ := by
        unfold migrateNotice at hmig
        rw [if_neg (by simp [hoff])] at hmig
        obtain rfl := Except.ok.inj hmig
        unfold markRemote at hmark
        split at hmark
        · simp only [bind_eq_ok, pure, Except.pure, Except.ok.injEq] at hmark
          obtain ⟨-, -, rfl⟩ := hmark
          exact ⟨rfl, rfl, rfl⟩
        · exact Except.ok.inj hmark ▸ SameSlot.refl _
      have hstep : ∀ {c' : CopyState}, CopyAt cfg { h with m := m₂ } p c' →
          CopyAt cfg { h with m := m } p c' ∨ ((c' = .clean ∨ ∃ twin, c' = .dirty twin) ∧
            CopyAt cfg { h with m := m } p .invalid) := fun hat' =>
        ih (h := { h with m := m₁ }) hi₁ hpc hns' (hat'.congr hsame fun w _ => Iff.rfl) hrest
      rcases copy_invalidateCopy hi hp hpc hn hat hcopy with hat₂ | ⟨hc, hat₂⟩
      · exact hstep hat₂
      · refine Or.inr ⟨hc, ?_⟩
        rcases hstep hat₂ with hat' | ⟨-, hat'⟩ <;> exact hat'

/-- What a message does to the state of page `p`. -/
inductive ServedCopy (cfg : Config) (h h' : Host) (msg : Msg) (p : Nat) :
    CopyState → CopyState → Prop
  /-- Nothing. -/
  | keep (c : CopyState) (hmsg : ∀ wv data, msg ≠ .getpgrant (cfg.pageAddr p) wv data [])
      (hmem : h'.m.mem p = h.m.mem p)
      (hwait : h'.m.getpwait = h.m.getpwait ∨ ∀ w, c ≠ .faulting w) : ServedCopy cfg h h' msg p c c
  /-- The page that was asked for is here. -/
  | install (w : FaultWait) (wv : BitVec Wvbits) (data : Page)
      (hmsg : msg = .getpgrant (cfg.pageAddr p) wv data []) (hmem : h'.m.mem p = data)
      (hwait : h'.m.getpwait = false) : ServedCopy cfg h h' msg p (.faulting w) (.faulting w)
  /-- The copy is invalidated. -/
  | drop (c : CopyState) (hc : c = .clean ∨ ∃ twin, c = .dirty twin) (hwait : h.Waits) :
      ServedCopy cfg h h' msg p c .invalid

theorem Host.Waits.not_fault (hw : h.Waits) (w : FaultWait) : h.pc ≠ .fault w := by
  intro hf
  rcases hw with ⟨l, hpc⟩ | hpc <;> rw [hpc] at hf <;> cases hf

/-- What the other hosts promise about the messages of pages: a notice comes to a host
that waits, a DIFF goes to the home of its pages, and a reply is the page asked for. -/
structure CopyMsg (cfg : Config) (pid : Nat) (h : Host) (msg : Msg) : Prop where
  pages : msg.Pages cfg
  waits : h.Waits ∨ msg.invalidates = []
  diff : ∀ ds, msg = .diff ds → ∀ d ∈ ds, (h.m.page (cfg.pagei d.addr)).homepid = pid
  reply : ∀ addr wv data xs, msg = .getpgrant addr wv data xs →
    xs = [] ∧ ∃ w, h.pc = .fault w ∧ addr = cfg.pageAddr w.page

theorem served_copy {src : Nat} {rnd : List Nat} {msg : Msg} (hoff : cfg.hMig = false)
    (hvec : cfg.wVec = false) (hi : CacheInverse cfg pid h.m) (hrem : RemoteOk cfg pid h)
    (hmsg : CopyMsg cfg pid h msg) (hp : p < cfg.npages) (haway : (h.m.page p).homepid ≠ pid)
    (hat : CopyAt cfg h p c) (hs : Served cfg pid h src rnd msg h' out) :
    ∃ c', CopyAt cfg h' p c' ∧ ServedCopy cfg h h' msg p c c' := by
  have hpc : h'.pc = h.pc := (served_stack hs).1
  have hother : msg.isGetpgrant = false →
      ∀ wv data, msg ≠ .getpgrant (cfg.pageAddr p) wv data [] := by
    rintro hno wv data rfl
    cases hno
  have hkeep : SameSlot p h.m h'.m → h'.m.mem p = h.m.mem p → h'.m.getpwait = h.m.getpwait →
      msg.isGetpgrant = false → ∃ c', CopyAt cfg h' p c' ∧ ServedCopy cfg h h' msg p c c' :=
    fun hsame hmem hwait hno =>
      ⟨c, hat.congr hsame fun w _ => by rw [hpc], .keep c (hother hno) hmem (Or.inl hwait)⟩
  have hinv : ∀ {lock : Nat} {ns : List GrantNotice} {m : MemState}, msg.invalidates = ns →
      (∀ n ∈ ns, cfg.IsPage n.addr) → msg.isGetpgrant = false →
      invalidate cfg pid lock h.m ns = .ok m → h'.m = m →
      ∃ c', CopyAt cfg h' p c' ∧ ServedCopy cfg h h' msg p c c' := by
    intro lock ns m hinv hns hno hm hm'
    have hmem : h'.m.mem p = h.m.mem p := by rw [hm', (inert_invalidate hm).mem]
    have hsame : SameSlot p m h'.m := by
      rw [hm']
      exact SameSlot.refl m
    rcases hmsg.waits with hw | hnil
    · have hfault : ∀ w, c ≠ .faulting w := hat.not_faulting fun w hw' => absurd hw' (hw.not_fault w)
      have hto : ∀ c', CopyAt cfg { h with m := m } p c' → CopyAt cfg h' p c' :=
        fun c' hat' => hat'.congr hsame fun w _ => by rw [hpc]
      rcases copy_invalidate hoff hi hp hw.not_fault hns hat hm with hat' | ⟨hc, hat'⟩
      · exact ⟨c, hto c hat', .keep c (hother hno) hmem (Or.inr hfault)⟩
      · exact ⟨.invalid, hto _ hat', .drop c hc hw⟩
    · rw [hinv] at hnil
      subst hnil
      simp only [invalidate, Except.ok.injEq] at hm
      subst hm
      exact hkeep hsame hmem (by rw [hm']) hno
  cases hs with
  | @diff ds m hm =>
      have hds : ∀ d ∈ ds, cfg.pagei d.addr ≠ p := by
        rintro d hd rfl
        exact haway (hmsg.diff ds rfl d hd)
      refine hkeep (sameSlot_applyDiffs hds hm) ?_ (still_applyDiffs hm).getpwait rfl
      have hnone : (ds.filter fun d => cfg.pagei d.addr = p) = [] := by
        rw [List.filter_eq_nil_iff]
        simpa using hds
      rw [applyDiffs_mem hm, hnone]
      rfl
  | diffgrant => exact hkeep ⟨rfl, rfl, rfl⟩ rfl rfl rfl
  | getp hm =>
      refine hkeep (sameSlot_getpserver haway hm) ?_ (getpserver_ok hm).flagged.getpwait rfl
      rw [(inert_getpserver hm).mem]
  | @getpgrant addr wv data xs m hm =>
      obtain ⟨rfl, w, hw, rfl⟩ := hmsg.reply _ _ _ _ rfl
      obtain ⟨hlt, haway'⟩ := hrem.fault w hw
      obtain rfl := getpgrantserver_one hvec hm
      rw [cfg.pagei_pageAddr hlt] at *
      have hat' : CopyAt cfg { h with
          m := { h.m.setMem w.page data with getpwait := false } } p c :=
        hat.congr ⟨rfl, rfl, rfl⟩ fun _ _ => Iff.rfl
      by_cases hwp : w.page = p
      · subst hwp
        obtain rfl := hat.of_fault hw rfl
        exact ⟨_, hat', .install w wv data rfl (upd_same _ _ _) rfl⟩
      · refine ⟨c, hat', .keep c ?_ (upd_of_ne _ _ (Ne.symm hwp)) (Or.inr (hat.not_faulting ?_))⟩
        · intro wv' data' heq
          rw [Msg.getpgrant.injEq] at heq
          exact hwp (cfg.pageAddr_inj hlt hp heq.1)
        · intro w' hw'
          rw [hw, Pc.fault.injEq] at hw'
          rwa [← hw']
  | acqgrant hm => exact hinv rfl hmsg.pages.1 rfl hm rfl
  | invld hm => exact hinv rfl hmsg.pages.1 rfl hm rfl
  | barrgrant hm =>
      obtain ⟨m, hm', rfl⟩ := barrgrantserver_ok hm
      exact hinv rfl hmsg.pages.1 rfl hm' (by simp [hoff])
  | _ => exact hkeep (SameSlot.refl _) rfl rfl rfl

end Host

end Jiajia
