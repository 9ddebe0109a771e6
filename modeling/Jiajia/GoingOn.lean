import Jiajia.Handling

/-!
# Every main thread goes on

What `startinterval`, `sendwtnts` and the lock stack need when a wait is over: a main
thread that does not wait can take its next step, unless the lock stack is full.
-/

namespace Jiajia

open Fifo Transition Host MemState

variable {cfg : Config} {pid : Nat}

theorem appendStackWtnts_sound : appendStackWtnts.Sound where
  fits {size n} h := by
    have hlt := of_decide_eq_true h
    have hle := List.length_filter_le appendStackWtnts.sel n.entries
    simp only [appendStackWtnts, Intbytes, Addrbytes] at hlt hle ⊢
    omega
  first n := by
    have hle := n.wtntc_le
    apply decide_eq_true
    simp only [Intbytes, Addrbytes, Maxmsgsize, Maxwtnts, Maxsize, Msgheadsize] at hle ⊢
    omega

/-! ## The start of an interval -/

section Interval

variable {m : MemState}

/-- The entry of a page in use is that of an open home page. -/
theorem entry_mapped (ht : m.HomeTables cfg pid)
    (hopen : ∀ q < cfg.npages, (m.page q).homepid = pid → OpenAt m q) {i : Nat}
    (hi : i < Homepages) (hused : (m.home i).addr ≠ 0) :
    m.prot (cfg.pagei (m.home i).addr) ≠ .unmapped := by
  obtain ⟨q, hq, ha, -, hhome⟩ := ht.owned hi hused
  rw [ha, cfg.pagei_pageAddr hq]
  exact (hopen q hq hhome).mapped

theorem startHome_total (ht : m.HomeTables cfg pid) (hc : m.Compact)
    (hopen : ∀ q < cfg.npages, (m.page q).homepid = pid → OpenAt m q) :
    ∃ m', startHome cfg m = .ok m' := by
  refine ⟨_, bind_eq_ok.mpr ⟨(), jiaAssert_eq_ok.mpr ?_, rfl⟩⟩
  intro i hi _
  exact entry_mapped ht hopen (lt_of_lt_of_le hi hc.1) (hc.2 i hi)

theorem startHomeAdwd_total {i : Nat} (hseen : SeenBits (m.home i).wtnt)
    (hmapped : m.prot (cfg.pagei (m.home i).addr) ≠ .unmapped) :
    ∃ m', startHomeAdwd cfg m i = .ok m' := by
  obtain ⟨hone, hfive⟩ := seenBits_cases _ hseen
  unfold startHomeAdwd
  simp only
  split
  · exact ⟨m, rfl⟩
  · rename_i hbits
    exact absurd hbits hone
  · rename_i hbits
    exact absurd hbits hfive
  · split
    · exact ⟨_, bind_eq_ok.mpr ⟨_, memprotect_eq_ok.mpr ⟨hmapped, rfl⟩, rfl⟩⟩
    · exact ⟨_, rfl⟩
  · split
    · exact ⟨_, rfl⟩
    · exact ⟨_, memprotect_eq_ok.mpr ⟨hmapped, rfl⟩⟩
  · exact ⟨_, memprotect_eq_ok.mpr ⟨hmapped, rfl⟩⟩
  · exact ⟨_, rfl⟩

theorem startHomesAdwd_total {is : List Nat} (ht : m.HomeTables cfg pid)
    (hopen : ∀ q < cfg.npages, (m.page q).homepid = pid → OpenAt m q)
    (hseen : ∀ i, SeenBits (m.home i).wtnt)
    (hused : ∀ i ∈ is, i < Homepages ∧ (m.home i).addr ≠ 0) :
    ∃ m', startHomesAdwd cfg m is = .ok m' := by
  induction is generalizing m with
  | nil => exact ⟨m, rfl⟩
  | cons i is ih =>
      obtain ⟨hi, hne⟩ := hused i List.mem_cons_self
      obtain ⟨m₁, hone⟩ := startHomeAdwd_total (hseen i) (entry_mapped ht hopen hi hne)
      have hstill := still_startHomeAdwd hone
      obtain ⟨m', hrest⟩ := ih (m := m₁) (hstill.home.tables ht) (by
          intro q hq hhome
          rw [hstill.home.homepid] at hhome
          exact openAt_startHomeAdwd ht hi hne hq hhome (hopen q hq hhome) hone)
        ((guarded_startHomeAdwd ht hi hne hone).bits hseen) (by
          intro j hj
          rw [hstill.home.addr]
          exact hused j (List.mem_cons_of_mem _ hj))
      exact ⟨m', bind_eq_ok.mpr ⟨m₁, hone, hrest⟩⟩

end Interval

section Host

variable {h : Host}

/-- The written slots are those of pages that are mapped. -/
theorem startCache_total (hi : CacheInverse cfg pid h.m) (hrem : RemoteOk cfg pid h) :
    ∃ m, startCache cfg h.m = .ok m := by
  refine ⟨_, bind_eq_ok.mpr ⟨(), jiaAssert_eq_ok.mpr ?_, rfl⟩⟩
  intro c hc hw
  have hused : (h.m.cache c).state ≠ .unmap := by
    intro hst
    rw [hi.wtnt c hc hst] at hw
    cases hw
  obtain ⟨q, hq, hqc, ha⟩ := hi.toLinked.owner hc hused
  rw [ha, cfg.pagei_pageAddr hq]
  exact hrem.mapped hi hq (by rwa [hqc])

theorem startinterval_total (hoff : cfg.hMig = false) (hi : CacheInverse cfg pid h.m)
    (hok : PagesOk cfg pid h) (hrem : RemoteOk cfg pid h)
    (hopen : ∀ q < cfg.npages, (h.m.page q).homepid = pid → OpenAt h.m q)
    (hseen : ∀ i, SeenBits (h.m.home i).wtnt) (barr : Bool) :
    ∃ h', h.startinterval cfg barr = .ok h' := by
  obtain ⟨m₁, h₁⟩ := startCache_total hi hrem
  have hkeep := (startCache_ok hok.tables.cache h₁).1
  have hhome : m₁.home = h.m.home := by
    simp only [startCache, bind_eq_ok, pure, Except.pure, Except.ok.injEq] at h₁
    obtain ⟨-, -, rfl⟩ := h₁
    rfl
  have hopen₁ : ∀ q < cfg.npages, (m₁.page q).homepid = pid → OpenAt m₁ q := by
    intro q hq hown
    rw [hkeep.homepid] at hown
    exact openAt_startCache hi hq hown (hopen q hq hown) h₁
  have ht₁ := hkeep.tables hok.tables.home
  have hc₁ := hkeep.compact (hok.compact (Or.inl hoff))
  obtain ⟨m₂, h₂⟩ : ∃ m₂, startHomes cfg barr m₁ = .ok m₂ := by
    unfold startHomes
    split
    · refine startHomesAdwd_total ht₁ hopen₁ (by rwa [hhome]) ?_
      intro i hlt
      rw [List.mem_range] at hlt
      exact ⟨lt_of_lt_of_le hlt hc₁.1, hc₁.2 i hlt⟩
    · exact startHome_total ht₁ hc₁ hopen₁
  exact ⟨_, bind_eq_ok.mpr ⟨m₁, h₁, bind_eq_ok.mpr ⟨m₂, h₂, rfl⟩⟩⟩

theorem sendwtnts_total (barr : Bool) : ∃ out, h.sendwtnts cfg barr = .ok out := by
  obtain ⟨cs, hcs⟩ := appendStackWtnts_sound.stream_ok h.y.top.wtntp
  exact ⟨_, bind_eq_ok.mpr ⟨cs, hcs, rfl⟩⟩

/-! ## After a wait -/

/-- The page of a fault is mapped writable while the handler waits. -/
theorem faultEnd_total (hrem : RemoteOk cfg pid h) {w : FaultWait} (hpc : h.pc = .fault w) :
    ∃ m, h.m.faultEnd w = .ok m := by
  have hmapped : h.m.prot w.page ≠ .unmapped := by
    rw [hrem.fault_writable hpc]
    simp
  unfold MemState.faultEnd
  split
  · exact ⟨_, rfl⟩
  · exact ⟨_, memprotect_eq_ok.mpr ⟨hmapped, rfl⟩⟩

theorem scanHome_total (hvec : cfg.wVec = false) (op : SynOp) (i : Nat) :
    ∃ h', h.scanHome cfg pid op i = .ok h' := by
  unfold scanHome
  split
  · have hsame : vectorHome cfg pid (h.saveHome pid op i).m i = .ok (h.saveHome pid op i).m := by
      rw [vectorHome, if_neg (by simp [hvec])]
    exact ⟨_, bind_eq_ok.mpr ⟨_, hsame, rfl⟩⟩
  · exact ⟨h, rfl⟩

/-- An unlock finds the entry below that of its lock. -/
theorem popstack_total (hst : StackOk h) {l : Nat} (hl : Allowed h.y (.rel l)) :
    ∃ y, h.y.popstack = .ok y := by
  unfold SynState.popstack
  split
  · rename_i hbelow
    obtain ⟨hlt, rfl⟩ := hl
    rw [hst.top_hidelock hbelow] at hlt
    exact absurd hlt (lt_irrefl _)
  · exact ⟨_, rfl⟩

theorem release_total (hst : StackOk h) {l : Nat} (hl : Allowed h.y (.rel l))
    (hstart : ∃ h', h.startinterval cfg false = .ok h') : ∃ r, h.release cfg = .ok r := by
  obtain ⟨out, hout⟩ : ∃ out, h.sendwtnts cfg false = .ok out := sendwtnts_total false
  obtain ⟨h', hh⟩ := hstart
  obtain ⟨m₁, m₂, -, -, rfl⟩ := startinterval_ok hh
  obtain ⟨y, hy⟩ := popstack_total hst hl
  exact ⟨_, bind_eq_ok.mpr ⟨out, hout, bind_eq_ok.mpr ⟨_, hh, bind_eq_ok.mpr ⟨y, hy, rfl⟩⟩⟩⟩

theorem arrive_total : ∃ r, h.arrive cfg = .ok r := by
  unfold Host.arrive
  exact ⟨_, bind_eq_ok.mpr ⟨_, (sendwtnts_total true).choose_spec, rfl⟩⟩

/-- A granted lock goes onto the stack if there is room. -/
theorem acquired_iff {l : Nat} (hstart : ∃ h', h.startinterval cfg false = .ok h') :
    (∃ h', h.acquired cfg l = .ok h') ↔ h.y.below.length + 1 < Maxstacksize := by
  obtain ⟨h', hh⟩ := hstart
  obtain ⟨m₁, m₂, -, -, rfl⟩ := startinterval_ok hh
  constructor
  · rintro ⟨h₁, hacq⟩
    obtain ⟨h₂, hh', hacq⟩ := bind_eq_ok.mp hacq
    obtain rfl := Except.ok.inj (hh.symm.trans hh')
    obtain ⟨y, hy, -⟩ := bind_eq_ok.mp hacq
    obtain ⟨_, hroom, -⟩ := bind_eq_ok.mp hy
    exact jiaAssert_eq_ok.mp hroom
  · intro hroom
    obtain ⟨y, hy⟩ : ∃ y, h.y.pushstack l = .ok y :=
      ⟨_, bind_eq_ok.mpr ⟨(), jiaAssert_eq_ok.mpr hroom, rfl⟩⟩
    exact ⟨_, bind_eq_ok.mpr ⟨_, hh, bind_eq_ok.mpr ⟨y, hy, rfl⟩⟩⟩

theorem leaveBarrier_total (hstart : ∃ h', h.startinterval cfg true = .ok h') :
    ∃ h', h.leaveBarrier cfg = .ok h' := by
  obtain ⟨h', hh⟩ := hstart
  exact ⟨_, bind_eq_ok.mpr ⟨h', hh, rfl⟩⟩

end Host

end Jiajia
