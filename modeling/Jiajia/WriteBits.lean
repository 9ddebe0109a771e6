import Jiajia.Pages
import Jiajia.FindSlot

/-!
# Write detection

A page the application may write without a fault is marked: at its home by bit 0
of the home entry, elsewhere by the flag of its cache slot.  Every operation that
maps a page writable marks it, and every operation that takes the mark away
write-protects the page or unmaps it.
-/

namespace Jiajia

open Fifo Transition Host

namespace MemState

variable {cfg : Config} {pid : Nat} {m m' m'' : MemState}

/-- The writes to page `q` are seen at the end of the interval. -/
def Marked (cfg : Config) (pid : Nat) (m : MemState) (q : Nat) : Prop :=
  ((m.page q).homepid = pid → (m.home (m.page q).homei).wtnt &&& 1 = 1) ∧
    ((m.page q).homepid ≠ pid → (m.page q).cachei < cfg.cachepages ∧
      (m.cache (m.page q).cachei).wtnt = true)

/-- A home page that was written in this interval was written since the barrier. -/
def SeenBits (w : BitVec 8) : Prop := w &&& 1 = 1 → w &&& 2 = 2

theorem seenBits_or_three : ∀ w : BitVec 8, SeenBits (w ||| 3) := by
  unfold SeenBits
  decide

theorem bit_or_three : ∀ w : BitVec 8, (w ||| 3) &&& 1 = 1 := by decide

theorem seenBits_of_clear {w : BitVec 8} (h : w &&& 1 ≠ 1) : SeenBits w := fun hw => absurd hw h

/-- What an operation does for the detection of writes to page `q`. -/
def GuardedAt (cfg : Config) (pid : Nat) (m m' : MemState) (q : Nat) : Prop :=
  m'.prot q = .readWrite → Marked cfg pid m' q ∨
    (m.prot q = .readWrite ∧ (Marked cfg pid m q → Marked cfg pid m' q))

/-- What an operation does for the detection of writes. -/
structure Guarded (cfg : Config) (pid : Nat) (m m' : MemState) : Prop where
  bits : (∀ i, SeenBits (m.home i).wtnt) → ∀ i, SeenBits (m'.home i).wtnt
  page : ∀ q < cfg.npages, GuardedAt cfg pid m m' q

theorem GuardedAt.trans {q : Nat} (h : GuardedAt cfg pid m m' q) (h' : GuardedAt cfg pid m' m'' q) :
    GuardedAt cfg pid m m'' q := by
  intro hprot
  rcases h' hprot with hm | ⟨hprot', hkeep'⟩
  · exact Or.inl hm
  · rcases h hprot' with hm | ⟨hprot₀, hkeep⟩
    · exact Or.inl (hkeep' hm)
    · exact Or.inr ⟨hprot₀, fun hm => hkeep' (hkeep hm)⟩

theorem Guarded.refl (m : MemState) : Guarded cfg pid m m :=
  ⟨id, fun _ _ hprot => Or.inr ⟨hprot, id⟩⟩

theorem Guarded.trans (h : Guarded cfg pid m m') (h' : Guarded cfg pid m' m'') :
    Guarded cfg pid m m'' :=
  ⟨fun hb => h'.bits (h.bits hb), fun q hq => (h.page q hq).trans (h'.page q hq)⟩

/-- The same for an operation that clears no bit of a home entry. -/
structure Opens (cfg : Config) (pid : Nat) (m m' : MemState) : Prop where
  guarded : Guarded cfg pid m m'
  grows : ∀ i, (m.home i).wtnt &&& 1 = 1 → (m'.home i).wtnt &&& 1 = 1

theorem Opens.refl (m : MemState) : Opens cfg pid m m := ⟨Guarded.refl m, fun _ hw => hw⟩

theorem Opens.trans (h : Opens cfg pid m m') (h' : Opens cfg pid m' m'') : Opens cfg pid m m'' :=
  ⟨h.guarded.trans h'.guarded, fun i hw => h'.grows i (h.grows i hw)⟩

theorem Marked.congr {q : Nat} (h : Marked cfg pid m q) (hpage : m'.page q = m.page q)
    (hhome : (m.page q).homepid = pid →
      (m.home (m.page q).homei).wtnt &&& 1 = 1 → (m'.home (m.page q).homei).wtnt &&& 1 = 1)
    (hcache : (m.page q).homepid ≠ pid →
      (m.page q).cachei < cfg.cachepages → (m.cache (m.page q).cachei).wtnt = true →
      (m'.cache (m.page q).cachei).wtnt = true) : Marked cfg pid m' q := by
  unfold Marked
  rw [hpage]
  constructor
  · intro hpid
    exact hhome hpid (h.1 hpid)
  · intro hpid
    obtain ⟨hlt, hw⟩ := h.2 hpid
    exact ⟨hlt, hcache hpid hlt hw⟩

theorem still_page (h : Still m m') (q : Nat) : m'.page q = m.page q := by
  have h₁ := h.cache.cachei q
  have h₂ := h.home.homei q
  have h₃ := h.home.homepid q
  cases hp : m.page q
  cases hq : m'.page q
  simp_all

/-- An operation that opens no page and keeps every bit. -/
theorem guarded_of_still (h : Still m m')
    (hbit : ∀ i, (m.home i).wtnt &&& 1 = 1 → (m'.home i).wtnt &&& 1 = 1)
    (hseen : ∀ i, SeenBits (m.home i).wtnt → SeenBits (m'.home i).wtnt)
    (hprot : ∀ q < cfg.npages, m'.prot q = .readWrite → m.prot q = .readWrite) :
    Guarded cfg pid m m' := by
  refine ⟨fun hb i => hseen i (hb i), ?_⟩
  intro q hq hrw
  refine Or.inr ⟨hprot q hq hrw, ?_⟩
  intro hm
  refine hm.congr (still_page h q) (fun _ => hbit _) ?_
  intro _ _ hw
  rw [h.cache.cache]
  exact hw

theorem guarded_of_wtnt (h : Still m m') (hwtnt : ∀ i, (m'.home i).wtnt = (m.home i).wtnt)
    (hprot : ∀ q < cfg.npages, m'.prot q = .readWrite → m.prot q = .readWrite) :
    Guarded cfg pid m m' := by
  refine guarded_of_still h ?_ ?_ hprot
  · intro i hw
    rw [hwtnt]
    exact hw
  · intro i hs
    rw [hwtnt]
    exact hs

theorem wtnt_setHome {i : Nat} {e : HomeEntry} (he : e.wtnt = (m.home i).wtnt) (j : Nat) :
    ((m.setHome i e).home j).wtnt = (m.home j).wtnt := by
  by_cases hj : j = i
  · subst hj
    simpa using he
  · simp [hj]

theorem guarded_memprotect {p : Nat} {pr : Prot} (hpr : pr ≠ .readWrite)
    (h : m.memprotect p pr = .ok m') : Guarded cfg pid m m' := by
  have hstill := still_memprotect h
  obtain ⟨-, rfl⟩ := memprotect_eq_ok.mp h
  refine guarded_of_wtnt hstill (fun _ => rfl) ?_
  intro q _ hrw
  by_cases hqp : q = p
  · subst hqp
    rw [setProt_prot, upd_same] at hrw
    exact absurd hrw hpr
  · simpa [hqp] using hrw

/-! ## The fault handler -/

theorem opens_homeFault {p : Nat} (hhome : (m.page p).homepid = pid)
    (h : m.homeFault cfg p = .ok m') : Opens cfg pid m m' := by
  have hstill := still_homeFault h
  simp only [homeFault, bind_eq_ok, memprotect_eq_ok, defined_eq_ok, pure, Except.pure,
    Except.ok.injEq] at h
  obtain ⟨m₁, ⟨-, rfl⟩, -, -, rfl⟩ := h
  have hbit : ∀ i, (m.home i).wtnt &&& 1 = 1 → ∀ tw : Option Page,
      (((m.setProt p .readWrite).setHome (m.page p).homei
        { m.home (m.page p).homei with
          wtnt := (m.home (m.page p).homei).wtnt ||| 3, twin := tw }).home i).wtnt &&& 1 = 1 := by
    intro i hw tw
    by_cases hi : i = (m.page p).homei
    · subst hi
      rw [setHome_home, upd_same]
      exact bit_or_three _
    · simpa [hi] using hw
  refine ⟨⟨?_, ?_⟩, fun i hw => hbit i hw _⟩
  · intro hb i
    by_cases hi : i = (m.page p).homei
    · subst hi
      simp only [setProt_page, setHome_home, upd_same]
      exact seenBits_or_three _
    · simpa [hi] using hb i
  · intro q hq hrw
    by_cases hqp : q = p
    · subst hqp
      left
      refine ⟨fun _ => ?_, fun hne => absurd hhome hne⟩
      simp only [setProt_page, setHome_page, setHome_home, upd_same]
      exact bit_or_three _
    · right
      refine ⟨by simpa [hqp] using hrw, ?_⟩
      intro hm
      exact hm.congr rfl (fun _ hw => hbit _ hw _) fun _ _ hw => hw

/-- The page of slot `c` loses the slot and its mapping. -/
theorem guardedAt_flushpage (ht : m.CacheTables cfg) (c : Nat) {q : Nat} (hq : q < cfg.npages) :
    GuardedAt cfg pid m (m.flushpage cfg c) q := by
  intro hrw
  by_cases hqc : q = cfg.pagei (m.cache c).addr
  · subst hqc
    simp [flushpage, memunmap] at hrw
  · right
    refine ⟨by simpa [flushpage, memunmap, hqc] using hrw, ?_⟩
    intro hm
    refine hm.congr ?_ (fun _ hw => hw) ?_
    · simp [flushpage, memunmap, hqc]
    · intro _ hlt hw
      have hne : (m.page q).cachei ≠ c := by
        rintro rfl
        rw [(ht.slot q hq hlt).1, cfg.pagei_pageAddr hq] at hqc
        exact hqc rfl
      simpa [flushpage, memunmap, hne] using hw

theorem guardedAt_findposition (ht : m.CacheTables cfg) {p seti s q : Nat}
    (h : m.findposition cfg p seti = some (s, m')) (hq : q < cfg.npages) (hqp : q ≠ p) :
    GuardedAt cfg pid m m' q := by
  have hset : ∀ m₁ : MemState, GuardedAt cfg pid m₁ (m₁.setPage p { m₁.page p with cachei := s }) q := by
    intro m₁ hrw
    refine Or.inr ⟨hrw, ?_⟩
    intro hm
    exact hm.congr (by simp [hqp]) (fun _ hw => hw) fun _ _ hw => hw
  obtain ⟨-, -, m₁, rfl, hm₁⟩ := findposition_cases h
  rcases hm₁ with ⟨rfl, -⟩ | rfl
  · exact hset m₁
  · exact (guardedAt_flushpage ht s hq).trans (hset _)

theorem wtnt_findposition {p seti s : Nat} (h : m.findposition cfg p seti = some (s, m')) (i : Nat) :
    (m'.home i).wtnt = (m.home i).wtnt := by
  obtain ⟨-, -, m₁, rfl, hm₁⟩ := findposition_cases h
  rcases hm₁ with ⟨rfl, -⟩ | rfl
  · rfl
  · rfl

theorem guardedAt_place {p s q : Nat} (hr : Ready cfg p s m m') (hq : q < cfg.npages) (hqp : q ≠ p)
    (hpage : m''.page q = m'.page q) (hprot : m''.prot q = m'.prot q)
    (hhome : ∀ i, (m''.home i).wtnt = (m'.home i).wtnt)
    (hcache : ∀ c, c ≠ s → m''.cache c = m'.cache c) : GuardedAt cfg pid m' m'' q := by
  intro hrw
  refine Or.inr ⟨hprot ▸ hrw, ?_⟩
  intro hm
  refine hm.congr hpage (fun _ hw => by rw [hhome]; exact hw) ?_
  intro _ hlt hw
  rw [hcache _ (hr.free q hq hqp hlt)]
  exact hw

/-- After a fault every page that is writable and not the one of a read is marked
as before. -/
theorem guardedAt_cacheFault (ht : m.CacheTables cfg) {p seti : Nat} {w : FaultWait} {out : Out}
    (hp : p < cfg.npages) (haway : (m.page p).homepid ≠ pid)
    (h : m.cacheFault cfg p seti = .ok (m', w, out)) {q : Nat} (hq : q < cfg.npages)
    (hread : q = p → w.writefault = true) : GuardedAt cfg pid m m' q := by
  obtain ⟨m₁, s, hslot, rfl, rfl⟩ := (cacheFault_eq_ok cfg m).mp h
  obtain ⟨hlt, hcachei, -, -⟩ := faultSlot_recorded hslot
  by_cases hqp : q = p
  · subst hqp
    intro _
    left
    -- the slot is marked in a write fault
    have hentry : (m.faultEntry cfg q (m₁.cache s)).wtnt = true := by
      unfold faultEntry
      rw [if_pos (hread rfl)]
    have hhomepid : (m₁.page q).homepid = (m.page q).homepid := by
      rcases faultSlot_cases cfg m hslot with ⟨-, -, -, wait, rfl, -⟩ | ⟨-, m₂, hpos, rfl, -⟩
      · rfl
      · exact (findposition_ready ht hpos).home.homepid q
    refine ⟨fun hpid => ?_, fun _ => ?_⟩
    · rw [setCache_page, hhomepid] at hpid
      exact absurd hpid haway
    · simp only [setCache_page, setCache_cache, hcachei, upd_same]
      exact ⟨hlt, hentry⟩
  · rcases faultSlot_cases cfg m hslot with ⟨hc, rfl, -, wait, rfl, -⟩ | ⟨-, m₂, hpos, rfl, -⟩
    · refine guardedAt_place (ready_kept ht hp hc) hq hqp rfl (by simp [hqp]) (fun _ => rfl) ?_
      intro c hcs
      simp [hcs]
    · refine (guardedAt_findposition ht hpos hq hqp).trans ?_
      refine guardedAt_place (findposition_ready ht hpos) hq hqp rfl ?_ (fun _ => rfl) ?_
      · simp [memmap, hqp]
      · intro c hcs
        simp [memmap, hcs]

theorem wtnt_cacheFault {p seti : Nat} {w : FaultWait} {out : Out}
    (h : m.cacheFault cfg p seti = .ok (m', w, out)) (i : Nat) :
    (m'.home i).wtnt = (m.home i).wtnt := by
  obtain ⟨m₁, s, hslot, rfl, -⟩ := (cacheFault_eq_ok cfg m).mp h
  rcases faultSlot_cases cfg m hslot with ⟨-, -, -, wait, rfl, -⟩ | ⟨-, m₂, hpos, rfl, -⟩
  · rfl
  · exact wtnt_findposition hpos i

theorem guarded_faultEnd {w : FaultWait} (h : m.faultEnd w = .ok m') :
    Guarded cfg pid m m' ∧ (w.writefault = false → m'.prot w.page ≠ .readWrite) := by
  unfold faultEnd at h
  split at h
  · rename_i hw
    simp only [pure, Except.pure, Except.ok.injEq] at h
    subst h
    refine ⟨⟨fun hb => hb, ?_⟩, fun hr => ?_⟩
    · intro q hq hrw
      refine Or.inr ⟨hrw, ?_⟩
      intro hm
      refine hm.congr rfl (fun _ hb => hb) ?_
      intro _ _ hw'
      by_cases hc : (m.page q).cachei = w.cachei
      · rw [hc] at hw'
        simpa [hc] using hw'
      · simpa [hc] using hw'
    · rw [hw] at hr
      cases hr
  · refine ⟨guarded_memprotect (by simp) h, fun _ => ?_⟩
    obtain ⟨-, rfl⟩ := memprotect_eq_ok.mp h
    simp

/-! ## Intervals -/

theorem guarded_vectorHome {i : Nat} (h : vectorHome cfg pid m i = .ok m') :
    Guarded cfg pid m m' := by
  have hstill := still_vectorHome h
  unfold vectorHome at h
  simp only at h
  split at h
  · split at h
    · cases h
    · obtain rfl := Except.ok.inj h
      exact guarded_of_wtnt hstill (wtnt_setHome rfl) fun _ _ hrw => hrw
  · obtain rfl := Except.ok.inj h
    exact Guarded.refl m

theorem guarded_twinHome (m : MemState) (i : Nat) : Guarded cfg pid m (twinHome cfg m i) := by
  have hstill : Still m (twinHome cfg m i) := still_twinHome m i
  unfold twinHome at hstill ⊢
  simp only at hstill ⊢
  split
  · rename_i hv
    rw [if_pos hv] at hstill
    exact guarded_of_wtnt hstill (wtnt_setHome rfl) fun _ _ hrw => hrw
  · exact Guarded.refl m

/-- The written copies are write-protected when their marks go. -/
theorem guarded_startCache (ht : m.CacheTables cfg) (h : startCache cfg m = .ok m') :
    Guarded cfg pid m m' := by
  simp only [startCache, bind_eq_ok, jiaAssert_eq_ok, pure, Except.pure, Except.ok.injEq] at h
  obtain ⟨-, -, rfl⟩ := h
  refine ⟨fun hb => hb, ?_⟩
  intro q hq hrw
  simp only at hrw
  split at hrw
  · cases hrw
  · rename_i hno
    refine Or.inr ⟨hrw, ?_⟩
    intro hm
    refine hm.congr rfl (fun _ hb => hb) ?_
    intro _ hlt hw
    apply absurd _ hno
    refine ⟨(m.page q).cachei, hlt, hw, ?_⟩
    rw [(ht.slot q hq hlt).1, cfg.pagei_pageAddr hq]

theorem and_fe_clear : ∀ w : BitVec 8, (w &&& 0xfe) &&& 1 ≠ 1 := by decide

theorem guarded_startHome (ht : m.HomeTables cfg pid) (h : startHome cfg m = .ok m') :
    Guarded cfg pid m m' := by
  simp only [startHome, bind_eq_ok, jiaAssert_eq_ok, pure, Except.pure, Except.ok.injEq] at h
  obtain ⟨-, -, rfl⟩ := h
  constructor
  · intro hb i
    simp only
    split
    · exact seenBits_of_clear (and_fe_clear _)
    · exact hb i
  · intro q hq hrw
    simp only at hrw
    split at hrw
    · cases hrw
    · rename_i hno
      refine Or.inr ⟨hrw, ?_⟩
      intro hm
      refine hm.congr rfl ?_ fun _ _ hw => hw
      intro hpid hw
      simp only
      rw [if_neg]
      · exact hw
      · rintro ⟨hlt, hbit⟩
        apply hno
        refine ⟨(m.page q).homei, hlt, hbit, ?_⟩
        rw [(ht.home q hq hpid).2, cfg.pagei_pageAddr hq]

theorem guarded_entry (ht : m.HomeTables cfg pid) {i : Nat} (hi : i < Homepages)
    (hused : (m.home i).addr ≠ 0) {w : BitVec 8} {e : HomeEntry} (he : e.wtnt = w)
    (hstill : Still m m') (hhome : m'.home = upd m.home i e)
    (hprot : ∀ q, q ≠ cfg.pagei (m.home i).addr → m'.prot q = m.prot q)
    (hseen : SeenBits w)
    (hopen : m'.prot (cfg.pagei (m.home i).addr) = .readWrite →
      w &&& 1 = 1 ∨ (m.prot (cfg.pagei (m.home i).addr) = .readWrite ∧ (m.home i).wtnt &&& 1 ≠ 1)) :
    Guarded cfg pid m m' := by
  obtain ⟨p, hp, ha, hpi, hpid⟩ := ht.owned hi hused
  rw [ha, cfg.pagei_pageAddr hp] at hprot hopen
  constructor
  · intro hb j
    rw [hhome]
    by_cases hj : j = i
    · subst hj
      rw [upd_same, he]
      exact hseen
    · rw [upd_of_ne _ _ hj]
      exact hb j
  · intro q hq hrw
    by_cases hqp : q = p
    · subst hqp
      rcases hopen hrw with hw | ⟨hrw₀, hclear⟩
      · left
        rw [Marked, still_page hstill, hhome, hpi, upd_same, he]
        exact ⟨fun _ => hw, fun hne => absurd hpid hne⟩
      · refine Or.inr ⟨hrw₀, ?_⟩
        intro hm
        have hbit := hm.1 hpid
        rw [hpi] at hbit
        exact absurd hbit hclear
    · rw [hprot q hqp] at hrw
      refine Or.inr ⟨hrw, ?_⟩
      intro hm
      refine hm.congr (still_page hstill q) ?_ ?_
      · intro hqpid hw
        -- another page has another entry
        have hne : (m.page q).homei ≠ i := by
          intro heq
          have haq := (ht.home q hq hqpid).2
          rw [heq, ha] at haq
          exact hqp (cfg.pageAddr_inj hp hq haq).symm
        rw [hhome, upd_of_ne _ _ hne]
        exact hw
      · intro _ _ hw
        rw [hstill.cache.cache]
        exact hw

theorem count_clear : ∀ c : BitVec 8, ((c <<< 4) &&& 0xf0) &&& 1 ≠ 1 := by decide

theorem low_bits : ∀ w : BitVec 8, (w &&& 7).toNat ≠ 1 → (w &&& 7).toNat ≠ 5 →
    (w &&& 7).toNat ≠ 3 → (w &&& 7).toNat ≠ 7 → w &&& 1 ≠ 1 := by decide

theorem guarded_startHomeAdwd (ht : m.HomeTables cfg pid) {i : Nat} (hi : i < Homepages)
    (hused : (m.home i).addr ≠ 0) (h : startHomeAdwd cfg m i = .ok m') :
    Guarded cfg pid m m' := by
  have hset : ∀ {e : HomeEntry}, e.addr = (m.home i).addr → e.rdnt = (m.home i).rdnt →
      Still m (m.setHome i e) := fun ha hr => still_setHome ha hr
  -- an entry without bit 0 gets no bit, and its page stays as it is
  have hclear : ∀ w : BitVec 8, w &&& 1 ≠ 1 → (m.home i).wtnt &&& 1 ≠ 1 →
      Guarded cfg pid m (m.setHome i { m.home i with wtnt := w }) := by
    intro w hw hold
    refine guarded_entry ht hi hused (w := w) rfl (hset rfl rfl) rfl (fun _ _ => rfl)
      (seenBits_of_clear hw) ?_
    intro hrw
    exact Or.inr ⟨hrw, hold⟩
  -- an entry loses bit 0, and its page is write-protected
  have hclose : ∀ w : BitVec 8, w &&& 1 ≠ 1 →
      (m.setHome i { m.home i with wtnt := w }).memprotect (cfg.pagei (m.home i).addr) .read =
        .ok m' → Guarded cfg pid m m' := by
    intro w hw hprot
    have hstill := (hset (e := { m.home i with wtnt := w }) rfl rfl).trans (still_memprotect hprot)
    obtain ⟨-, rfl⟩ := memprotect_eq_ok.mp hprot
    refine guarded_entry ht hi hused (w := w) rfl hstill rfl ?_ (seenBits_of_clear hw) ?_
    · intro q hq
      simp [hq]
    · intro hrw
      simp at hrw
  unfold startHomeAdwd at h
  simp only at h
  split at h
  · obtain rfl := Except.ok.inj h
    exact Guarded.refl m
  · cases h
  · cases h
  · rename_i hbits
    have hold := low_bits (m.home i).wtnt (by omega) (by omega) (by omega) (by omega)
    split at h
    · simp only [bind_eq_ok, pure, Except.pure, Except.ok.injEq] at h
      obtain ⟨m₁, hprot, rfl⟩ := h
      have hstill := still_memprotect hprot
      obtain ⟨-, rfl⟩ := memprotect_eq_ok.mp hprot
      refine Guarded.trans ?_ (guarded_twinHome _ i)
      refine guarded_entry ht hi hused (w := (m.home i).wtnt ||| 3) rfl
        (hstill.trans (still_setHome rfl rfl)) rfl ?_ (seenBits_or_three _)
        fun _ => Or.inl (bit_or_three _)
      intro q hq
      simp [hq]
    · obtain rfl := Except.ok.inj h
      exact hclear _ (count_clear _) hold
  · split at h
    · obtain rfl := Except.ok.inj h
      exact guarded_twinHome m i
    · exact hclose _ (count_clear _) h
  · exact hclose 0 (by decide) h
  · rename_i h₀ h₁ h₅ h₂ h₃ h₇
    obtain rfl := Except.ok.inj h
    exact hclear 0 (by decide) (low_bits _ h₁ h₅ h₃ h₇)

theorem guarded_startHomesAdwd (ht : m.HomeTables cfg pid) {is : List Nat}
    (hused : ∀ i ∈ is, i < Homepages ∧ (m.home i).addr ≠ 0)
    (h : startHomesAdwd cfg m is = .ok m') : Guarded cfg pid m m' := by
  induction is generalizing m with
  | nil =>
      simp only [startHomesAdwd, Except.ok.injEq] at h
      exact h ▸ Guarded.refl m
  | cons i is ih =>
      simp only [startHomesAdwd, bind_eq_ok] at h
      obtain ⟨m₁, hone, hrest⟩ := h
      have hstill := still_startHomeAdwd hone
      obtain ⟨hi, hne⟩ := hused i List.mem_cons_self
      refine (guarded_startHomeAdwd ht hi hne hone).trans (ih (hstill.home.tables ht) ?_ hrest)
      intro j hj
      rw [hstill.home.addr]
      exact hused j (List.mem_cons_of_mem _ hj)

theorem guarded_startHomes (ht : m.HomeTables cfg pid) (hcompact : m.Compact) {barr : Bool}
    (h : startHomes cfg barr m = .ok m') : Guarded cfg pid m m' := by
  unfold startHomes at h
  split at h
  · refine guarded_startHomesAdwd ht ?_ h
    intro i hi
    rw [List.mem_range] at hi
    exact ⟨by have := hcompact.1; omega, hcompact.2 i hi⟩
  · exact guarded_startHome ht h

/-! ## The servers -/

theorem opens_applyDiffs {src : Nat} {ds : List PageDiff}
    (h : applyDiffs cfg src m ds = .ok m') : Opens cfg pid m m' := by
  induction ds generalizing m with
  | nil =>
      simp only [applyDiffs, Except.ok.injEq] at h
      exact h ▸ Opens.refl m
  | cons d ds ih =>
      simp only [applyDiffs, bind_eq_ok] at h
      obtain ⟨m₁, hd, h⟩ := h
      have happlied := applyDiff_ok hd
      have hone : applyDiffs cfg src m [d] = .ok m₁ := by
        simp only [applyDiffs, hd]
        rfl
      have hstill := still_applyDiffs hone
      refine Opens.trans ⟨guarded_of_wtnt hstill happlied.home_wtnt ?_, ?_⟩ (ih h)
      · intro q _ hrw
        rw [happlied.prot] at hrw
        split at hrw
        · exact hrw
        · by_cases hqp : q = cfg.pagei d.addr
          · subst hqp
            rw [upd_same] at hrw
            cases hrw
          · rwa [upd_of_ne _ _ hqp] at hrw
      · intro i hw
        rw [happlied.home_wtnt]
        exact hw

theorem opens_copyPage {p : Nat} {pg : Page} (h : m.copyPage cfg pid p = .ok (m', pg)) :
    Opens cfg pid m m' := by
  unfold copyPage at h
  split at h
  · simp only [pure, Except.pure, Except.ok.injEq, Prod.mk.injEq] at h
    exact h.1 ▸ Opens.refl m
  · simp only [bind_eq_ok, defined_eq_ok, pure, Except.pure, Except.ok.injEq, Prod.mk.injEq] at h
    obtain ⟨-, ⟨-, hhome⟩, m₁, hf, rfl, -⟩ := h
    exact opens_homeFault hhome hf

theorem opens_copyUnless {c : Prop} [Decidable c] {p : Nat} {pg : Page}
    (h : (if c then .ok (m, zeroPage) else m.copyPage cfg pid p) = .ok (m', pg)) :
    Opens cfg pid m m' := by
  by_cases hc : c
  · rw [if_pos hc, Except.ok.injEq, Prod.mk.injEq] at h
    exact h.1 ▸ Opens.refl m
  · rw [if_neg hc] at h
    exact opens_copyPage h

theorem opens_copyPages {ps : List Nat} {xs : List ExtraPage}
    (h : m.copyPages cfg pid ps = .ok (m', xs)) : Opens cfg pid m m' := by
  induction ps generalizing m xs with
  | nil =>
      simp only [copyPages, Except.ok.injEq, Prod.mk.injEq] at h
      exact h.1 ▸ Opens.refl m
  | cons p ps ih =>
      simp only [copyPages, bind_eq_ok, Prod.exists, pure, Except.pure, Except.ok.injEq,
        Prod.mk.injEq] at h
      obtain ⟨m₁, pg, hone, m₂, rest, hrest, rfl, -⟩ := h
      exact (opens_copyPage hone).trans (ih hrest)

theorem opens_setHome {i : Nat} {e : HomeEntry} (he : e.wtnt = (m.home i).wtnt) :
    Opens cfg pid m (m.setHome i e) := by
  have hwtnt := wtnt_setHome (m := m) he
  refine ⟨⟨fun hb j => by rw [hwtnt]; exact hb j, ?_⟩, fun j hw => by rw [hwtnt]; exact hw⟩
  intro q _ hrw
  refine Or.inr ⟨hrw, ?_⟩
  intro hm
  exact hm.congr rfl (fun _ hw => by rw [hwtnt]; exact hw) fun _ _ hw => hw

theorem opens_setRdnt (m : MemState) (i : Nat) :
    Opens cfg pid m (m.setHome i { m.home i with rdnt := true }) := opens_setHome rfl

theorem opens_renewTwin {homei : Nat} (h : m.renewTwin cfg pid homei = .ok m') :
    Opens cfg pid m m' := by
  unfold renewTwin at h
  split at h
  · simp only [bind_eq_ok, Prod.exists, pure, Except.pure, Except.ok.injEq] at h
    obtain ⟨m₁, twin, hcopy, rfl⟩ := h
    have hstart : Opens cfg pid m (m.setHome homei { m.home homei with wvfull := false }) :=
      opens_setHome rfl
    have hend : Opens cfg pid m₁ (m₁.setHome homei { m₁.home homei with twin := some twin }) :=
      opens_setHome rfl
    exact (hstart.trans (opens_copyPage hcopy)).trans hend
  · exact Except.ok.inj h ▸ Opens.refl m

theorem opens_prefetchLoop {k p num : Nat} {acc ps : List Nat}
    (h : prefetchLoop cfg pid k m p num acc = .ok (m', ps)) : Opens cfg pid m m' := by
  induction k generalizing m p num acc with
  | zero =>
      simp only [prefetchLoop, Except.ok.injEq, Prod.mk.injEq] at h
      exact h.1 ▸ Opens.refl m
  | succ k ih =>
      simp only [prefetchLoop, bind_eq_ok] at h
      obtain ⟨-, -, h⟩ := h
      split at h
      · simp only [bind_eq_ok] at h
        obtain ⟨-, -, -, -, h⟩ := h
        split at h
        · simp only [pure, Except.pure, Except.ok.injEq, Prod.mk.injEq] at h
          exact h.1 ▸ opens_setRdnt m _
        · exact (opens_setRdnt m _).trans (ih h)
      · exact ih h

theorem opens_prefetch {p : Nat} {ps : List Nat} (h : m.prefetch cfg pid p = .ok (m', ps)) :
    Opens cfg pid m m' := by
  unfold prefetch at h
  split at h
  · exact opens_prefetchLoop h
  · simp only [Except.ok.injEq, Prod.mk.injEq] at h
    exact h.1 ▸ Opens.refl m

theorem opens_getpserver {src : Nat} {addr : Addr} {temp : Bool} {out : Out}
    (h : m.getpserver cfg pid src addr temp = .ok (m', out)) : Opens cfg pid m m' := by
  obtain ⟨-, m₁, m₂, m₃, ps, pg, xs, wv, data, hrenew, hpre, hcopy, hrest, -⟩ := getpserver_steps h
  have hpage : Opens cfg pid m₂ m₃ := opens_copyUnless hcopy
  have hready :=
    (opens_renewTwin hrenew).trans (opens_setRdnt m₁ (m.homepage cfg addr))
  exact ((hready.trans (opens_prefetch hpre)).trans hpage).trans (opens_copyPages hrest)

theorem guarded_installExtra (ht : m.CacheTables cfg) {x : ExtraPage} {seti : Nat}
    (hx : cfg.IsPage x.addr) (h : m.installExtra cfg x seti = .ok m') :
    Guarded cfg pid m m' := by
  obtain ⟨p, hp, hxp⟩ := hx
  unfold installExtra at h
  simp only [hxp, cfg.pagei_pageAddr hp] at h
  split at h
  · exact Except.ok.inj h ▸ Guarded.refl m
  · split at h
    · exact Except.ok.inj h ▸ Guarded.refl m
    · rename_i s m₁ hpos
      obtain ⟨-, rfl⟩ := memprotect_eq_ok.mp h
      constructor
      · intro hb i
        change SeenBits (m₁.home i).wtnt
        rw [wtnt_findposition hpos]
        exact hb i
      · intro q hq
        by_cases hqp : q = p
        · subst hqp
          intro hrw
          simp at hrw
        · refine (guardedAt_findposition ht hpos hq hqp).trans ?_
          refine guardedAt_place (findposition_ready ht hpos) hq hqp rfl ?_ (fun _ => rfl) ?_
          · simp [memmap, hqp]
          · intro c hcs
            simp [memmap, hcs]

theorem guarded_installExtras {xs : List ExtraPage} {rnd : List Nat} (ht : m.CacheTables cfg)
    (hxs : ∀ x ∈ xs, cfg.IsPage x.addr) (h : installExtras cfg m xs rnd = .ok m') :
    Guarded cfg pid m m' := by
  induction xs generalizing m rnd with
  | nil =>
      simp only [installExtras, Except.ok.injEq] at h
      exact h ▸ Guarded.refl m
  | cons x xs ih =>
      simp only [installExtras, bind_eq_ok] at h
      obtain ⟨m₁, hone, hrest⟩ := h
      have hpage := hxs x List.mem_cons_self
      obtain ⟨hre, -⟩ := installExtra_ok ht hpage hone
      exact (guarded_installExtra ht hpage hone).trans
        (ih hre.cache (fun y hy => hxs y (List.mem_cons_of_mem _ hy)) hrest)

theorem guarded_getpgrantserver {addr : Addr} {wv : BitVec Wvbits} {data : Page}
    {xs : List ExtraPage} {rnd : List Nat} (ht : m.CacheTables cfg)
    (hxs : ∀ x ∈ xs, cfg.IsPage x.addr)
    (h : m.getpgrantserver cfg addr wv data xs rnd = .ok m') : Guarded cfg pid m m' := by
  simp only [getpgrantserver, bind_eq_ok, pure, Except.pure, Except.ok.injEq] at h
  obtain ⟨-, -, m₁, hinst, rfl⟩ := h
  have hguard : Guarded cfg pid (m.setMem (cfg.pagei addr) _) m₁ :=
    guarded_installExtras ⟨ht.slot, ht.dirty⟩ hxs hinst
  exact ⟨hguard.bits, hguard.page⟩

/-! ## Invalidation -/

theorem guarded_invalidateCopy (ht : m.CacheTables cfg) {n : GrantNotice}
    (h : invalidateCopy cfg pid m n = .ok m') : Guarded cfg pid m m' := by
  unfold invalidateCopy at h
  simp only at h
  split at h
  · obtain ⟨-, rfl⟩ := memprotect_eq_ok.mp h
    refine ⟨fun hb => hb, ?_⟩
    intro q hq hrw
    by_cases hqc : q = cfg.pagei (m.cache (m.cachepage cfg n.addr)).addr
    · subst hqc
      simp at hrw
    · right
      refine ⟨by simpa [hqc] using hrw, ?_⟩
      intro hm
      refine hm.congr rfl (fun _ hw => hw) ?_
      intro _ hlt hw
      have hne : (m.page q).cachei ≠ m.cachepage cfg n.addr := by
        intro heq
        rw [← heq, (ht.slot q hq hlt).1, cfg.pagei_pageAddr hq] at hqc
        exact hqc rfl
      simpa [hne] using hw
  · exact Except.ok.inj h ▸ Guarded.refl m

theorem bit_or_four : ∀ w : BitVec 8, w &&& 1 = 1 → (w ||| 4) &&& 1 = 1 := by decide

theorem seenBits_or_four : ∀ w : BitVec 8, SeenBits w → SeenBits (w ||| 4) := by
  unfold SeenBits
  decide

theorem guarded_markRemote {lock homepid : Nat} {n : GrantNotice}
    (h : markRemote cfg pid lock homepid m n = .ok m') : Guarded cfg pid m m' := by
  have hstill := markRemote_same h
  unfold markRemote at h
  split at h
  · simp only [bind_eq_ok, pure, Except.pure, Except.ok.injEq] at h
    obtain ⟨-, -, rfl⟩ := h
    refine guarded_of_still hstill ?_ ?_ fun _ _ hrw => hrw
    · intro i hw
      by_cases hi : i = m.homepage cfg n.addr
      · subst hi
        rw [setHome_home, upd_same]
        exact bit_or_four _ hw
      · simpa [hi] using hw
    · intro i hs
      by_cases hi : i = m.homepage cfg n.addr
      · subst hi
        rw [setHome_home, upd_same]
        exact seenBits_or_four _ hs
      · simpa [hi] using hs
  · exact Except.ok.inj h ▸ Guarded.refl m

/-! ## Migration -/

theorem migNewHome_bits {p : Nat} (hp : p < cfg.npages)
    (h : m.migNewHome cfg (cfg.pageAddr p) = .ok m') :
    m'.prot = m.prot ∧ ∀ i, (m'.home i).wtnt = if i = (m'.page p).homei then
      (if (m.cache (m.page p).cachei).wtnt then 3 else 2) else (m.home i).wtnt := by
  simp only [migNewHome, bind_eq_ok, jiaAssert_eq_ok, pure, Except.pure, Except.ok.injEq,
    cfg.pagei_pageAddr hp] at h
  obtain ⟨-, -, -, -, rfl⟩ := h
  generalize firstIdx (fun i => (m.home i).addr == 0) Homepages 0 = idx
  by_cases hv : cfg.wVec = true
  · refine ⟨by simp [hv, setwtvect], ?_⟩
    intro i
    by_cases hi : i = idx
    · simp [hv, setwtvect, hi]
    · simp [hv, setwtvect, hi]
  · refine ⟨by simp [hv], ?_⟩
    intro i
    by_cases hi : i = idx
    · simp [hv, hi]
    · simp [hv, hi]

theorem guarded_migNewHome (ht : m.Tables cfg pid) {p : Nat} (hp : p < cfg.npages)
    (haway : (m.page p).homepid ≠ pid) (h : m.migNewHome cfg (cfg.pageAddr p) = .ok m') :
    Guarded cfg pid m (m'.setPage p { m'.page p with homepid := pid }) := by
  obtain ⟨idx, hidx, hzero, hlt, hpage, -, -, hcache, -, -⟩ := migNewHome_fields hp h
  obtain ⟨hprot, hwtnt⟩ := migNewHome_bits hp h
  have hpi : (m'.page p).homei = idx := by simp [hpage]
  rw [hpi] at hwtnt
  have hown := (ready_kept ht.cache hp hlt).free
  constructor
  · intro hb i
    rw [setPage_home, hwtnt]
    split
    · split <;> unfold SeenBits <;> decide
    · exact hb i
  · intro q hq hrw
    rw [setPage_prot, hprot] at hrw
    refine Or.inr ⟨hrw, ?_⟩
    intro hm
    by_cases hqp : q = p
    · subst hqp
      -- the flag of the slot becomes the bit of the entry
      obtain ⟨-, hw⟩ := hm.2 haway
      refine ⟨fun _ => ?_, fun hne => absurd (by simp) hne⟩
      simp [hpage, hwtnt, hw]
    · refine hm.congr (by simp [hqp, hpage]) ?_ ?_
      · intro hqpid hw
        have hne : (m.page q).homei ≠ idx := by
          intro heq
          have haq := (ht.home.home q hq hqpid).2
          rw [heq, hzero] at haq
          exact cfg.pageAddr_ne_zero hq haq.symm
        rw [setPage_home, hwtnt, if_neg hne]
        exact hw
      · intro _ hqlt hw
        rw [setPage_cache, hcache, if_neg (hown q hq hqp hqlt)]
        exact hw

/-- The copy an old home keeps is marked like the home page was. -/
theorem demote_marked (ht : m.Tables cfg pid) {p : Nat} (hp : p < cfg.npages)
    (hhome : (m.page p).homepid = pid) :
    (∀ i, ((demote cfg m (cfg.pageAddr p)).home i).wtnt = (m.home i).wtnt) ∧
      (∀ q < cfg.npages, q ≠ p → GuardedAt cfg pid m (demote cfg m (cfg.pageAddr p)) q) ∧
      ((demote cfg m (cfg.pageAddr p)).prot p = .readWrite → m.prot p = .readWrite ∧
        (Marked cfg pid m p →
          ((demote cfg m (cfg.pageAddr p)).page p).cachei < cfg.cachepages ∧
            ((demote cfg m (cfg.pageAddr p)).cache
              ((demote cfg m (cfg.pageAddr p)).page p).cachei).wtnt = true)) := by
  unfold demote
  simp only [cfg.pagei_pageAddr hp]
  generalize hidx : firstIdx (fun i => (m.cache i).state == .unmap || (m.cache i).state == .inv)
    cfg.cachepages 0 = s
  split
  · rename_i hlt
    have hbit : Marked cfg pid m p → (m.home (m.page p).homei).wtnt &&& 1 = 1 :=
      fun hm => hm.1 hhome
    -- the slot is free once a stale copy in it is gone
    have hplace : ∀ m₁ : MemState, Ready cfg p s m (m₁.setPage p { m₁.page p with cachei := s }) →
        (∀ q < cfg.npages, q ≠ p → GuardedAt cfg pid m m₁ q) → ∀ e : CacheEntry,
        ∀ q < cfg.npages, q ≠ p → GuardedAt cfg pid m
          ((m₁.setCache s e).setPage p { (m₁.setCache s e).page p with cachei := s }) q := by
      intro m₁ hready hflush e q hq hqp
      refine (hflush q hq hqp).trans ?_
      have hset : GuardedAt cfg pid m₁ (m₁.setPage p { m₁.page p with cachei := s }) q := by
        intro hrw
        refine Or.inr ⟨hrw, ?_⟩
        intro hm
        exact hm.congr (by simp [hqp]) (fun _ hw => hw) fun _ _ hw => hw
      refine hset.trans (guardedAt_place hready hq hqp rfl rfl (fun _ => rfl) ?_)
      intro c hcs
      simp [hcs]
    by_cases hinv : (m.cache s).state = .inv
    · simp only [hinv, if_true]
      refine ⟨fun _ => rfl, hplace _ (flushed_ready ht.cache p s)
        (fun q hq _ => guardedAt_flushpage ht.cache s hq) _, ?_⟩
      intro hrw
      refine ⟨?_, ?_⟩
      · by_cases hpc : p = cfg.pagei (m.cache s).addr
        · subst hpc
          simp [flushpage, memunmap] at hrw
        · simpa [flushpage, memunmap, hpc] using hrw
      · intro hm
        refine ⟨by simpa using hlt, ?_⟩
        simpa [flushpage, memunmap] using hbit hm
    · simp only [hinv, if_false]
      have hfound := firstIdx_found
        (P := fun i => (m.cache i).state == .unmap || (m.cache i).state == .inv)
        (k := cfg.cachepages) (i := 0) (by rw [hidx]; omega)
      rw [hidx] at hfound
      refine ⟨fun _ => rfl, hplace m (Ready.of_unmapped ht.cache p (by simpa [hinv] using hfound))
        (fun _ _ _ hrw => Or.inr ⟨hrw, id⟩) _, ?_⟩
      intro hrw
      refine ⟨hrw, ?_⟩
      intro hm
      refine ⟨by simpa using hlt, ?_⟩
      simpa using hbit hm
  · refine ⟨fun _ => rfl, ?_, ?_⟩
    · intro q _ hqp hrw
      refine Or.inr ⟨by simpa [memunmap, hqp] using hrw, ?_⟩
      intro hm
      exact hm.congr rfl (fun _ hw => hw) fun _ _ hw => hw
    · intro hrw
      simp [memunmap] at hrw

theorem migOldHome_bits {p : Nat} (hp : p < cfg.npages)
    (h : m.migOldHome cfg (cfg.pageAddr p) = .ok m') :
    m'.prot = (demote cfg m (cfg.pageAddr p)).prot ∧ ∀ i, (m'.home i).wtnt =
      if i = (m.page p).homei then 0 else ((demote cfg m (cfg.pageAddr p)).home i).wtnt := by
  rw [migOldHome_eq] at h
  simp only [bind_eq_ok, jiaAssert_eq_ok, pure, Except.pure, Except.ok.injEq,
    cfg.pagei_pageAddr hp] at h
  obtain ⟨-, -, h⟩ := h
  generalize demote cfg m (cfg.pageAddr p) = d at h ⊢
  subst h
  by_cases hv : cfg.wVec = true
  · refine ⟨by simp [hv, retire, setwtvect], ?_⟩
    intro i
    by_cases hi : i = (m.page p).homei
    · simp [hv, retire, setwtvect, hi]
    · simp [hv, retire, setwtvect, hi]
  · refine ⟨by simp [hv, retire], ?_⟩
    intro i
    by_cases hi : i = (m.page p).homei
    · simp [hv, retire, hi]
    · simp [hv, retire, hi]

theorem guarded_migOldHome (ht : m.Tables cfg pid) {p modifypid : Nat} (hp : p < cfg.npages)
    (hhome : (m.page p).homepid = pid) (hne : modifypid ≠ pid)
    (h : m.migOldHome cfg (cfg.pageAddr p) = .ok m') :
    Guarded cfg pid m (m'.setPage p { m'.page p with homepid := modifypid }) := by
  obtain ⟨hlt, ha, hpage, -, -, hcache, -, -⟩ := migOldHome_fields hp h
  obtain ⟨hprot, hwtnt⟩ := migOldHome_bits hp h
  obtain ⟨hdw, hdother, hdp⟩ := demote_marked ht hp hhome
  obtain ⟨hd, -⟩ := demote_ok ht.cache hp
  generalize demote cfg m (cfg.pageAddr p) = d at hdw hdother hdp hd hpage hprot hwtnt hcache
  constructor
  · intro hb i
    rw [setPage_home, hwtnt]
    split
    · unfold SeenBits
      decide
    · rw [hdw]
      exact hb i
  · intro q hq
    by_cases hqp : q = p
    · subst hqp
      intro hrw
      rw [setPage_prot, hprot] at hrw
      obtain ⟨hrw₀, hmark⟩ := hdp hrw
      refine Or.inr ⟨hrw₀, ?_⟩
      intro hm
      refine ⟨fun hpid => ?_, fun _ => ?_⟩
      · rw [setPage_page, upd_same] at hpid
        exact absurd hpid hne
      · obtain ⟨hclt, hcw⟩ := hmark hm
        simp only [setPage_page, upd_same, setPage_cache, hpage, if_true, hcache]
        exact ⟨hclt, hcw⟩
    · refine (hdother q hq hqp).trans ?_
      intro hrw
      rw [setPage_prot, hprot] at hrw
      refine Or.inr ⟨hrw, ?_⟩
      intro hm
      refine hm.congr (by simp [hqp, hpage]) ?_ ?_
      · intro hqpid hw
        have hqi : (d.page q).homei ≠ (m.page p).homei := by
          intro heq
          rw [hd.home.homepid] at hqpid
          have haq := (ht.home.home q hq hqpid).2
          rw [← hd.home.homei, heq, ha] at haq
          exact hqp (cfg.pageAddr_inj hp hq haq).symm
        rw [setPage_home, hwtnt, if_neg hqi]
        exact hw
      · intro _ _ hw
        rw [setPage_cache, hcache]
        exact hw

theorem guarded_migpage (ht : m.Tables cfg pid) {p modifypid : Nat} (hp : p < cfg.npages)
    (h : m.migpage cfg pid (cfg.pageAddr p) (m.page p).homepid modifypid = .ok m') :
    Guarded cfg pid m m' := by
  simp only [migpage, bind_eq_ok, pure, Except.pure, Except.ok.injEq,
    cfg.pagei_pageAddr hp] at h
  obtain ⟨m₁, hrole, rfl⟩ := h
  unfold migRole at hrole
  split at hrole
  · rename_i hnew
    obtain ⟨rfl, haway⟩ := hnew
    exact guarded_migNewHome ht hp haway hrole
  · split at hrole
    · rename_i hold
      exact guarded_migOldHome ht hp hold.2 hold.1 hrole
    · rename_i hnew hold
      obtain rfl := Except.ok.inj hrole
      -- this host is neither the old nor the new home, or both
      have hiff : modifypid = pid ↔ (m.page p).homepid = pid := by tauto
      refine ⟨fun hb => hb, ?_⟩
      intro q hq hrw
      refine Or.inr ⟨hrw, ?_⟩
      intro hm
      by_cases hqp : q = p
      · subst hqp
        unfold Marked at hm ⊢
        simp only [setPage_page, upd_same, setPage_home, setPage_cache]
        exact ⟨fun heq => hm.1 (hiff.mp heq), fun hne => hm.2 fun heq => hne (hiff.mpr heq)⟩
      · exact hm.congr (by simp [hqp]) (fun _ hw => hw) fun _ _ hw => hw

theorem guarded_invalidateNotice (ht : m.Tables cfg pid) {lock p : Nat} {n : GrantNotice}
    (hp : p < cfg.npages) (hn : n.addr = cfg.pageAddr p)
    (h : invalidateNotice cfg pid lock m n = .ok m') : Guarded cfg pid m m' := by
  simp only [invalidateNotice, bind_eq_ok] at h
  obtain ⟨m₁, hcopy, m₂, hmig, hmark⟩ := h
  obtain ⟨hre, -, -⟩ := invalidateCopy_ok ht.cache hp hn hcopy
  have ht₁ : m₁.Tables cfg pid := ⟨hre.cache, hre.home.tables ht.home⟩
  have hmove : Guarded cfg pid m₁ m₂ := by
    unfold migrateNotice at hmig
    split at hmig
    · rw [hn, homehost, cfg.pagei_pageAddr hp] at hmig
      exact guarded_migpage ht₁ hp hmig
    · exact Except.ok.inj hmig ▸ Guarded.refl m₁
  exact ((guarded_invalidateCopy ht.cache hcopy).trans hmove).trans (guarded_markRemote hmark)

theorem invalidateNotice_tables (ht : m.Tables cfg pid) {lock p : Nat} {n : GrantNotice}
    (hp : p < cfg.npages) (hn : n.addr = cfg.pageAddr p)
    (h : invalidateNotice cfg pid lock m n = .ok m') : m'.Tables cfg pid := by
  by_cases hlock : lock = hidelock
  · subst hlock
    exact (invalidateNotice_ok ht hp hn h).1
  · have hone : invalidate cfg pid lock m [n] = .ok m' := by
      simp only [invalidate, h]
      rfl
    have hpage : ∀ x ∈ [n], cfg.IsPage x.addr := by
      intro x hx
      rw [List.mem_singleton.mp hx]
      exact ⟨p, hp, hn⟩
    obtain ⟨hre, -⟩ := invalidate_lock_ok hlock ht.cache hpage hone
    exact ⟨hre.cache, hre.home.tables ht.home⟩

theorem guarded_invalidate {lock : Nat} {ns : List GrantNotice} (ht : m.Tables cfg pid)
    (hpages : ∀ n ∈ ns, cfg.IsPage n.addr) (h : invalidate cfg pid lock m ns = .ok m') :
    Guarded cfg pid m m' ∧ m'.Tables cfg pid := by
  induction ns generalizing m with
  | nil =>
      simp only [invalidate, Except.ok.injEq] at h
      exact h ▸ ⟨Guarded.refl m, ht⟩
  | cons n ns ih =>
      simp only [invalidate, bind_eq_ok] at h
      obtain ⟨m₁, hone, hrest⟩ := h
      obtain ⟨p, hp, hn⟩ := hpages n List.mem_cons_self
      have ht₁ := invalidateNotice_tables ht hp hn hone
      obtain ⟨hguard, ht'⟩ := ih ht₁ (fun x hx => hpages x (List.mem_cons_of_mem _ hx)) hrest
      exact ⟨(guarded_invalidateNotice ht hp hn hone).trans hguard, ht'⟩

/-- An entry that moves takes its bits with it. -/
theorem guarded_moveHome (ht : m.HomeTables cfg pid) {i homei : Nat} (hi : homei < Homepages)
    (hne : homei ≠ i) (hfree : (m.home i).addr = 0) (hused : (m.home homei).addr ≠ 0) :
    Guarded cfg pid m (m.moveHome cfg i homei) := by
  obtain ⟨p, hp, ha, hpi, hpid⟩ := ht.owned hi hused
  have hwtnt : ∀ j, ((m.moveHome cfg i homei).home j).wtnt =
      if j = i then (m.home homei).wtnt else (m.home j).wtnt := by
    intro j
    unfold moveHome
    simp only [setHome_home, setPage_home, upd_apply]
    by_cases hj : j = homei
    · subst hj
      simp [hne]
    · by_cases hji : j = i
      · simp [hji, hne.symm]
      · simp [hj, hji]
  have hpage : ∀ q, (m.moveHome cfg i homei).page q =
      if q = p then { m.page p with homei := i } else m.page q := by
    intro q
    simp [moveHome, ha, cfg.pagei_pageAddr hp, upd_apply]
  constructor
  · intro hb j
    rw [hwtnt]
    split
    · exact hb homei
    · exact hb j
  · intro q hq hrw
    refine Or.inr ⟨hrw, ?_⟩
    intro hm
    by_cases hqp : q = p
    · subst hqp
      have hbit := hm.1 hpid
      rw [hpi] at hbit
      unfold Marked
      rw [hpage, if_pos rfl]
      refine ⟨fun _ => ?_, fun hcon => absurd hpid hcon⟩
      rw [hwtnt, if_pos rfl]
      exact hbit
    · refine hm.congr (by rw [hpage, if_neg hqp]) ?_ fun _ _ hw => hw
      intro hqpid hw
      have hqi : (m.page q).homei ≠ i := by
        intro heq
        have haq := (ht.home q hq hqpid).2
        rw [heq, hfree] at haq
        exact cfg.pageAddr_ne_zero hq haq.symm
      rw [hwtnt, if_neg hqi]
      exact hw

theorem guarded_arrangeLoop {k i : Nat} (ht : m.HomeTables cfg pid) (hk : i + k = Homepages) :
    Guarded cfg pid m (arrangeLoop cfg k i m).1 := by
  revert ht
  refine arrangeLoop_induct (Q := fun _ m r => m.HomeTables cfg pid → Guarded cfg pid m r.1)
    ?_ ?_ ?_ ?_ hk
  · exact fun m _ => Guarded.refl m
  · intro i j m r hij hj hfree hnext ih ht
    have hmove := (moveHome_ok ht (hij.trans hj) hj hfree hnext).1
    exact (guarded_moveHome ht hj hij.ne' hfree hnext).trans (ih hmove.home)
  · exact fun _ m _ _ _ => Guarded.refl m
  · exact fun _ _ _ _ _ ih ht => ih ht

theorem guarded_migarrangehome (ht : m.HomeTables cfg pid) :
    Guarded cfg pid m (m.migarrangehome cfg) := by
  have hloop := guarded_arrangeLoop (k := Homepages) (i := 0) ht (by omega)
  exact ⟨hloop.bits, hloop.page⟩

end MemState

namespace Host

open MemState

variable {cfg : Config} {pid : Nat} {h h' : Host} {out : Out}

/-- The main thread is in the handler of a read of page `q`. -/
def Reading (h : Host) (q : Nat) : Prop := ∃ w, h.pc = .fault w ∧ w.writefault = false ∧ w.page = q

/-- Every page the application can write to is marked. -/
structure Detects (cfg : Config) (pid : Nat) (h : Host) : Prop where
  bits : ∀ i, SeenBits (h.m.home i).wtnt
  marked : ∀ q < cfg.npages, h.m.prot q = .readWrite → ¬ Reading h q → Marked cfg pid h.m q

theorem Detects.guard (hd : Detects cfg pid h) (hg : Guarded cfg pid h.m h'.m)
    (hread : ∀ q, Reading h q → Reading h' q) : Detects cfg pid h' where
  bits := hg.bits hd.bits
  marked q hq hrw hno := by
    rcases hg.page q hq hrw with hm | ⟨hrw₀, hkeep⟩
    · exact hm
    · exact hkeep (hd.marked q hq hrw₀ fun hr => hno (hread q hr))

theorem not_reading {q : Nat} (hpc : ∀ w, h.pc ≠ .fault w) : ¬ Reading h q := by
  rintro ⟨w, hw, -⟩
  exact hpc w hw

theorem StackOk.compact (hst : StackOk h) (hok : PagesOk cfg pid h)
    (hdown : h.pc = .barrwait → h.y.barrwait = false) : h.m.Compact := by
  apply hok.compact
  right
  by_contra hup
  rw [Bool.not_eq_false] at hup
  rw [hdown (hst.barrwait hup)] at hup
  cases hup

theorem main_detects {a : Act} (hok : PagesOk cfg pid h) (hst : StackOk h)
    (hd : Detects cfg pid h) (hm : Main cfg pid h a h' out) : Detects cfg pid h' := by
  have hsame : h'.m = h.m → (∀ w, h.pc ≠ .fault w) → Detects cfg pid h' := by
    intro heq hpc
    refine hd.guard ?_ fun q hr => absurd hr (not_reading hpc)
    rw [heq]
    exact Guarded.refl h.m
  -- the start of an interval
  have hstart : ∀ {m₁ m₂ : MemState} {barr : Bool}, startCache cfg h.m = .ok m₁ →
      startHomes cfg barr m₁ = .ok m₂ → (∀ w, h.pc ≠ .fault w) →
      (h.pc = .barrwait → h.y.barrwait = false) → h'.m = m₂ → Detects cfg pid h' := by
    intro m₁ m₂ barr h₁ h₂ hpc hdown heq
    obtain ⟨hhome, -, -, -⟩ := startCache_ok hok.tables.cache h₁
    have hcompact := hhome.compact (hst.compact hok hdown)
    refine hd.guard ?_ fun q hr => absurd hr (not_reading hpc)
    subst heq
    exact (guarded_startCache hok.tables.cache h₁).trans
      (guarded_startHomes (hhome.tables hok.tables.home) hcompact h₂)
  cases hm with
  | load hpc => exact hsame rfl (by simp [hpc])
  | store hpc hp hprot =>
      refine hd.guard ⟨fun hb => hb, ?_⟩ fun q hr => absurd hr (not_reading (by simp [hpc]))
      exact (Guarded.refl h.m).page
  | homeFault hpc hp hfault hhome hm =>
      exact hd.guard (opens_homeFault hhome hm).guarded fun q hr =>
        absurd hr (not_reading (by simp [hpc]))
  | @cacheFault p seti write m w out hpc hp hfault hhome hm =>
      have hpage := (cacheFault_recorded hm).1
      constructor
      · intro i
        rw [wtnt_cacheFault hm]
        exact hd.bits i
      · intro q hq hrw hno
        have hread : q = p → w.writefault = true := by
          rintro rfl
          by_contra hw
          exact hno ⟨w, rfl, by simpa using hw, hpage⟩
        rcases guardedAt_cacheFault hok.tables.cache hp hhome hm hq hread hrw with
          hmark | ⟨hrw₀, hkeep⟩
        · exact hmark
        · exact hkeep (hd.marked q hq hrw₀ (not_reading (by simp [hpc])))
  | @faultEnd w m hpc hwait hm =>
      obtain ⟨hg, hclosed⟩ := @guarded_faultEnd cfg pid _ _ _ hm
      refine ⟨hg.bits hd.bits, ?_⟩
      intro q hq hrw _
      rcases hg.page q hq hrw with hmark | ⟨hrw₀, hkeep⟩
      · exact hmark
      · apply hkeep
        apply hd.marked q hq hrw₀
        rintro ⟨w', hw', hread, rfl⟩
        rw [hpc, Pc.fault.injEq] at hw'
        subst hw'
        exact hclosed hread hrw
  | single hpc => exact hsame rfl (by simp [hpc])
  | start hpc hhost ha hop hm =>
      obtain ⟨y, dm, -, -, rfl⟩ := endinterval_ok hm
      have hg : Guarded cfg pid h.m { h.m with diffwait := h.m.diffwait + out.length } :=
        ⟨fun hb => hb, (Guarded.refl h.m).page⟩
      exact hd.guard hg fun q hr => absurd hr (not_reading (by simp [hpc]))
  | @scan op i n h₁ hpc hi hm =>
      refine hd.guard ?_ fun q hr => absurd hr (not_reading (by simp [hpc]))
      unfold scanHome at hm
      split at hm
      · simp only [bind_eq_ok, pure, Except.pure, Except.ok.injEq] at hm
        obtain ⟨m, hvec, rfl⟩ := hm
        refine Guarded.trans ?_ (guarded_vectorHome hvec)
        unfold saveHome
        split
        · by_cases hop : op = .barr
          · simp only [hop, if_true]
            have hset : Opens cfg pid h.m (h.m.setHome i { h.m.home i with rdnt := false }) :=
              opens_setHome rfl
            exact hset.guarded
          · simp only [hop, if_false]
            exact Guarded.refl h.m
        · exact Guarded.refl h.m
      · rw [← Except.ok.inj hm]
        exact Guarded.refl h.m
  | scanEnd hpc => exact hsame rfl (by simp [hpc])
  | acquire hpc => exact hsame rfl (by simp [hpc])
  | acquired hpc hwait hm =>
      obtain ⟨m₁, m₂, h₁, h₂, rfl⟩ := startinterval_ok hm
      exact hstart h₁ h₂ (by simp [hpc]) (by simp [hpc]) rfl
  | release hpc hwait hout hm =>
      obtain ⟨m₁, m₂, h₁, h₂, rfl⟩ := startinterval_ok hm
      exact hstart h₁ h₂ (by simp [hpc]) (by simp [hpc]) rfl
  | arrive hpc hwait hm =>
      obtain ⟨cs, -, -, rfl⟩ := arrive_ok hm
      exact hsame rfl (by simp [hpc])
  | barrsync hpc => exact hsame rfl (by simp [hpc])
  | leave hpc hm =>
      obtain ⟨m₁, m₂, h₁, h₂, rfl⟩ := leaveBarrier_ok hm
      rcases hpc with ⟨hpc, hdown, -⟩ | ⟨hpc, -⟩
      · exact hstart h₁ h₂ (by simp [hpc]) (fun _ => hdown) rfl
      · exact hstart h₁ h₂ (by simp [hpc]) (by simp [hpc]) rfl
  | wait hpc => exact hsame rfl (by simp [hpc])
  | waited hpc => exact hsame rfl (by simp [hpc])
  | stay hpc => exact hsame rfl (by simp [hpc])

theorem guarded_served {src : Nat} {rnd : List Nat} {msg : Msg} (ht : h.m.Tables cfg pid)
    (hp : msg.Pages cfg) (hs : Served cfg pid h src rnd msg h' out) :
    Guarded cfg pid h.m h'.m := by
  cases hs with
  | diff hm => exact (opens_applyDiffs hm).guarded
  | diffgrant => exact ⟨fun hb => hb, (Guarded.refl h.m).page⟩
  | getp hm => exact (opens_getpserver hm).guarded
  | getpgrant hm => exact guarded_getpgrantserver ht.cache hp.2 hm
  | acqgrant hm => exact (guarded_invalidate ht hp.1 hm).1
  | invld hm => exact (guarded_invalidate ht hp.1 hm).1
  | barrgrant hm =>
      obtain ⟨m, hinv, rfl⟩ := barrgrantserver_ok hm
      obtain ⟨hg, ht'⟩ := guarded_invalidate ht hp.1 hinv
      by_cases hmig : cfg.hMig = true
      · simp only [hmig, if_true]
        exact hg.trans (guarded_migarrangehome ht'.home)
      · simp only [if_neg hmig]
        exact hg
  | _ => exact Guarded.refl h.m

theorem served_detects {src : Nat} {rnd : List Nat} {msg : Msg} (ht : h.m.Tables cfg pid)
    (hp : msg.Pages cfg) (hd : Detects cfg pid h) (hs : Served cfg pid h src rnd msg h' out) :
    Detects cfg pid h' := by
  refine hd.guard (guarded_served ht hp hs) ?_
  rintro q ⟨w, hw, hread⟩
  exact ⟨w, (served_stack hs).1.trans hw, hread⟩

theorem detects_init (hhost : cfg.hostc ≠ 1) : Detects cfg pid (initHost cfg pid) where
  bits i := by
    simp only [initHost, initmem]
    unfold SeenBits
    decide
  marked q hq hrw _ := by
    simp only [initHost, initmem, if_neg hhost] at hrw
    split at hrw <;> cases hrw

end Host

end Jiajia
