import Jiajia.Memory

/-!
# The slot for a faulting page

`findposition` looks for a free slot from the one `replacei` names on.  The scan
goes once around the set and remembers the first INV slot.  Without an UNMAP or
INV slot it ends where it began, and no other slot is considered.
-/

namespace Jiajia

/-- The documented order: UNMAP before INV before RO before RW. -/
def PageState.rank : PageState → Nat
  | .unmap => 0
  | .inv => 1
  | .ro => 2
  | .rw => 3

namespace MemState

variable {cfg : Config} {m m' : MemState}

/-! ## The scan -/

/-- Where a scan of `k` slots from `seti` on ends: at an UNMAP slot, or behind `k`
slots none of which is UNMAP, and none INV unless one was remembered. -/
inductive Scan (cfg : Config) (m : MemState) (k seti : Nat) (r : Nat × Option Nat) : Prop
  | found (hlt : r.1 < cfg.cachepages) (hstate : (m.cache r.1).state = .unmap)
  | around (hend : r.1 = (seti + k) % cfg.cachepages)
      (hno : ∀ j < k, (m.cache ((seti + j) % cfg.cachepages)).state ≠ .unmap)
      (hinv : r.2 = none → ∀ j < k, (m.cache ((seti + j) % cfg.cachepages)).state ≠ .inv)

theorem findLoop_some {k seti i : Nat} {invi : Option Nat} (hseti : seti < cfg.cachepages)
    (h : (m.findLoop cfg k seti invi).2 = some i) :
    invi = some i ∨ (i < cfg.cachepages ∧ (m.cache i).state = .inv) := by
  induction k generalizing seti invi with
  | zero => exact Or.inl h
  | succ k ih =>
      simp only [findLoop] at h
      split at h
      · exact Or.inl h
      · have hnext : (seti + 1) % cfg.cachepages < cfg.cachepages :=
          Nat.mod_lt _ cfg.cachepages_pos
        rcases ih hnext h with hi | hi
        · split at hi
          · rename_i hinv
            cases hi
            exact Or.inr ⟨hseti, hinv.2⟩
          · exact Or.inl hi
        · exact Or.inr hi

theorem findLoop_remembers {k seti i : Nat} :
    (m.findLoop cfg k seti (some i)).2 = some i := by
  induction k generalizing seti with
  | zero => rfl
  | succ k ih =>
      simp only [findLoop]
      split
      · rfl
      · exact ih

theorem findLoop_scan (k : Nat) (invi : Option Nat) {seti : Nat} (hseti : seti < cfg.cachepages) :
    Scan cfg m k seti (m.findLoop cfg k seti invi) := by
  induction k generalizing seti invi with
  | zero =>
      refine .around ?_ (by omega) (by omega)
      rw [Nat.add_zero, Nat.mod_eq_of_lt hseti]
      rfl
  | succ k ih =>
      simp only [findLoop]
      split
      · rename_i hstate
        exact .found hseti hstate
      · rename_i hstate
        have hnext : (seti + 1) % cfg.cachepages < cfg.cachepages :=
          Nat.mod_lt _ cfg.cachepages_pos
        have hshift : ∀ j, ((seti + 1) % cfg.cachepages + j) % cfg.cachepages =
            (seti + (j + 1)) % cfg.cachepages := by
          intro j
          rw [Nat.mod_add_mod]
          congr 1
          omega
        generalize hinvi : (if invi = none ∧ (m.cache seti).state = .inv then some seti
          else invi) = invi'
        rcases ih invi' hnext with ⟨hlt, hfound⟩ | ⟨hend, hno, hinv⟩
        · exact .found hlt hfound
        · refine .around ?_ ?_ ?_
          · rw [hend, hshift]
          · intro j hj
            cases j with
            | zero => rwa [Nat.add_zero, Nat.mod_eq_of_lt hseti]
            | succ j => exact hshift j ▸ hno j (by omega)
          · intro hnone j hj
            cases j with
            | zero =>
                -- an INV slot here would have been remembered
                rw [Nat.add_zero, Nat.mod_eq_of_lt hseti]
                intro hi
                cases invi with
                | none =>
                    rw [if_pos ⟨rfl, hi⟩] at hinvi
                    rw [← hinvi, findLoop_remembers] at hnone
                    cases hnone
                | some i =>
                    rw [if_neg (by simp)] at hinvi
                    rw [← hinvi, findLoop_remembers] at hnone
                    cases hnone
            | succ j => exact hshift j ▸ hinv hnone j (by omega)

/-- Going once around the set visits every slot. -/
theorem exists_turn {seti c : Nat} (hseti : seti < cfg.cachepages) (hc : c < cfg.cachepages) :
    ∃ j < cfg.cachepages, (seti + j) % cfg.cachepages = c := by
  by_cases hle : seti ≤ c
  · refine ⟨c - seti, by omega, ?_⟩
    rw [Nat.add_sub_cancel' hle, Nat.mod_eq_of_lt hc]
  · refine ⟨c + cfg.cachepages - seti, by omega, ?_⟩
    rw [show seti + (c + cfg.cachepages - seti) = c + cfg.cachepages by omega,
      Nat.add_mod_right, Nat.mod_eq_of_lt hc]

/-- The three ways `findposition` settles on a slot. -/
inductive Settles (cfg : Config) (m : MemState) (seti s : Nat) : Prop
  | unmap (hstate : (m.cache s).state = .unmap)
  | inv (hno : ∀ c < cfg.cachepages, (m.cache c).state ≠ .unmap)
      (hstate : (m.cache s).state = .inv)
  | start (hno : ∀ c < cfg.cachepages, (m.cache c).state ≠ .unmap ∧ (m.cache c).state ≠ .inv)
      (hs : s = seti % cfg.cachepages)

theorem findSlot_settles (cfg : Config) (m : MemState) (seti : Nat) :
    m.findSlot cfg seti < cfg.cachepages ∧ Settles cfg m seti (m.findSlot cfg seti) := by
  have hseti : seti % cfg.cachepages < cfg.cachepages := Nat.mod_lt _ cfg.cachepages_pos
  have hscan := findLoop_scan (m := m) cfg.cachepages none hseti
  have hsome : ∀ i, (m.findLoop cfg cfg.cachepages (seti % cfg.cachepages) none).2 = some i →
      none = some i ∨ (i < cfg.cachepages ∧ (m.cache i).state = .inv) :=
    fun i => findLoop_some hseti
  unfold findSlot
  generalize m.findLoop cfg cfg.cachepages (seti % cfg.cachepages) none = r at hscan hsome
  simp only
  rcases hscan with ⟨hlt, hfound⟩ | ⟨hend, hno, hinv⟩
  · rw [if_neg (not_not.mpr hfound)]
    exact ⟨hlt, .unmap hfound⟩
  · have hall : ∀ c < cfg.cachepages, (m.cache c).state ≠ .unmap := by
      intro c hc
      obtain ⟨j, hj, rfl⟩ := exists_turn hseti hc
      exact hno j hj
    rw [Nat.add_mod_right, Nat.mod_mod] at hend
    rw [if_pos (hend ▸ hall _ hseti)]
    cases hr : r.2 with
    | some i =>
        rcases hsome i hr with hnone | ⟨hi, hstate⟩
        · cases hnone
        · exact ⟨hi, .inv hall hstate⟩
    | none =>
        refine ⟨by rw [Option.getD_none, hend]; exact hseti, .start ?_ hend⟩
        intro c hc
        obtain ⟨j, hj, rfl⟩ := exists_turn hseti hc
        exact ⟨hno j hj, hinv hr j hj⟩

/-! ## What a fault gets -/

theorem findposition_some {p seti s : Nat} (h : m.findposition cfg p seti = some (s, m')) :
    s = m.findSlot cfg seti ∧ (m.cache s).state ≠ .rw ∧ (m'.page p).cachei = s := by
  obtain ⟨hs, hnrw, m₁, rfl, -⟩ := findposition_cases h
  exact ⟨hs, hnrw, by simp⟩

theorem findposition_none {p seti : Nat} :
    m.findposition cfg p seti = none ↔ (m.cache (m.findSlot cfg seti)).state = .rw := by
  unfold findposition
  simp only
  split
  · rename_i hstate
    exact iff_of_true rfl hstate
  all_goals
    rename_i hstate
    simp [hstate]

/-- What a fault on page `p` of another host is promised: a slot by priority,
`findposition` gives up only when all slots are RW, and the handler goes on with a slot
of `cache[]` in which the page is recorded. -/
structure FaultServed (cfg : Config) (m : MemState) (p seti : Nat) : Prop where
  priority : ∀ {s m'}, m.findposition cfg p seti = some (s, m') →
    s < cfg.cachepages ∧ ∀ c < cfg.cachepages, (m.cache s).state.rank ≤ (m.cache c).state.rank
  givesUp : m.findposition cfg p seti = none → ∀ c < cfg.cachepages, (m.cache c).state = .rw
  inRange : m.cacheFault cfg p seti ≠ .error (.undefined "cache[-1]")
  recorded : ∀ {m' w out}, m.cacheFault cfg p seti = .ok (m', w, out) →
    w.page = p ∧ w.cachei < cfg.cachepages ∧ (m'.cache w.cachei).addr = cfg.pageAddr p ∧
      (m'.page p).cachei = w.cachei ∧ m'.prot p = .readWrite ∧
      ∀ x ∈ out, x.1 = (m.page p).homepid ∧ ∃ temp, x.2 = .getp (cfg.pageAddr p) temp

/-- When the fault is served: some slot is UNMAP or INV, or `replacei` names an RO slot,
or the page has a slot and no other one is needed. -/
def Serviceable (cfg : Config) (m : MemState) (p seti : Nat) : Prop :=
  (∃ c < cfg.cachepages, (m.cache c).state = .unmap ∨ (m.cache c).state = .inv) ∨
    (m.cache (seti % cfg.cachepages)).state = .ro ∨
    ((∀ c < cfg.cachepages, (m.cache c).state = .rw) ∧ (m.page p).cachei < cfg.cachepages)

theorem faultSlot_recorded {p seti s : Nat} {out : Out}
    (h : m.faultSlot cfg p seti = .ok (m', s, out)) :
    s < cfg.cachepages ∧ (m'.page p).cachei = s ∧ m'.prot p = .readWrite ∧
      ∀ x ∈ out, x.1 = (m.page p).homepid ∧ ∃ temp, x.2 = .getp (cfg.pageAddr p) temp := by
  rcases faultSlot_cases cfg m h with ⟨hslot, rfl, -, wait, rfl, hout⟩ | ⟨-, m₁, hfind, rfl, rfl⟩
  · refine ⟨hslot, rfl, by simp, ?_⟩
    cases hout with
    | inl hnone => simp [hnone.1]
    | inr hask => simp [hask.1]
  · obtain ⟨rfl, -, hpage⟩ := findposition_some hfind
    exact ⟨(findSlot_settles cfg m seti).1, hpage, by simp [memmap], by simp⟩

theorem cacheFault_recorded {p seti : Nat} {w : FaultWait} {out : Out}
    (h : m.cacheFault cfg p seti = .ok (m', w, out)) :
    w.page = p ∧ w.cachei < cfg.cachepages ∧ (m'.cache w.cachei).addr = cfg.pageAddr p ∧
      (m'.page p).cachei = w.cachei ∧ m'.prot p = .readWrite ∧
      ∀ x ∈ out, x.1 = (m.page p).homepid ∧ ∃ temp, x.2 = .getp (cfg.pageAddr p) temp := by
  obtain ⟨m₁, s, hslot, rfl, rfl⟩ := (cacheFault_eq_ok cfg m).mp h
  obtain ⟨hlt, hpage, hprot, hout⟩ := faultSlot_recorded hslot
  refine ⟨rfl, hlt, ?_, hpage, hprot, hout⟩
  rw [setCache_cache, upd_same]
  unfold faultEntry
  split <;> rfl

/-- The handler runs into `cache[-1]` exactly when it needs a slot and gets none. -/
theorem cacheFault_out_of_range {p seti : Nat} :
    m.cacheFault cfg p seti = .error (.undefined "cache[-1]") ↔
      cfg.cachepages ≤ (m.page p).cachei ∧ m.findposition cfg p seti = none := by
  have hbind : m.cacheFault cfg p seti = .error (.undefined "cache[-1]") ↔
      m.faultSlot cfg p seti = .error (.undefined "cache[-1]") := by
    unfold cacheFault
    cases m.faultSlot cfg p seti <;> simp [bind, Except.bind, pure, Except.pure]
  rw [hbind]
  unfold faultSlot
  simp only
  split
  · rename_i hslot
    refine iff_of_false ?_ (fun h => absurd h.1 (by omega))
    unfold memprotect jiaAssert
    split
    · simp only [bind, Except.bind, pure, Except.pure]
      split <;> simp
    · simp [bind, Except.bind]
  · rename_i hslot
    split
    · rename_i hnone
      exact iff_of_true rfl ⟨by omega, hnone⟩
    · rename_i hsome
      simp [hsome]

/-- In a serviceable state `findposition` fails only where nothing is lost. -/
theorem Serviceable.all_rw {p seti : Nat} (hcan : Serviceable cfg m p seti)
    (hnone : m.findposition cfg p seti = none) :
    (∀ c < cfg.cachepages, (m.cache c).state = .rw) ∧ (m.page p).cachei < cfg.cachepages := by
  rw [findposition_none] at hnone
  rcases (findSlot_settles cfg m seti).2 with hstate | ⟨-, hstate⟩ | ⟨hno, hs⟩
  · rw [hnone] at hstate
    cases hstate
  · rw [hnone] at hstate
    cases hstate
  · rw [hs] at hnone
    rcases hcan with ⟨c, hc, hfree⟩ | hro | hall
    · rcases hfree with hun | hinv
      · exact absurd hun (hno c hc).1
      · exact absurd hinv (hno c hc).2
    · rw [hro] at hnone
      cases hnone
    · exact hall

theorem Settles.rank_le {seti s : Nat} (hs : Settles cfg m seti s) (hlt : s < cfg.cachepages)
    (hrw : (m.cache s).state ≠ .rw) {c : Nat} (hc : c < cfg.cachepages) :
    (m.cache s).state.rank ≤ (m.cache c).state.rank := by
  cases hs with
  | unmap hstate =>
      rw [hstate]
      exact Nat.zero_le _
  | inv hno hstate =>
      have hother := hno c hc
      rw [hstate]
      cases hc' : (m.cache c).state with
      | unmap => exact absurd hc' hother
      | _ => decide
  | start hno _ =>
      have hself := hno s hlt
      have hother := hno c hc
      have hstate : (m.cache s).state = .ro := by
        cases hs' : (m.cache s).state with
        | unmap => exact absurd hs' hself.1
        | inv => exact absurd hs' hself.2
        | ro => rfl
        | rw => exact absurd hs' hrw
      rw [hstate]
      cases hc' : (m.cache c).state with
      | unmap => exact absurd hc' hother.1
      | inv => exact absurd hc' hother.2
      | _ => decide

/-- A fault is served exactly when the scan can take an UNMAP or INV slot, or the one
slot it looks at otherwise can be flushed, or no slot is needed. -/
theorem faultServed_iff (cfg : Config) (m : MemState) (p seti : Nat) :
    FaultServed cfg m p seti ↔ Serviceable cfg m p seti := by
  obtain ⟨hlt, hsettles⟩ := findSlot_settles cfg m seti
  have hseti : seti % cfg.cachepages < cfg.cachepages := Nat.mod_lt _ cfg.cachepages_pos
  constructor
  · intro hserved
    by_contra hnot
    unfold Serviceable at hnot
    push Not at hnot
    obtain ⟨hfree, hro, hslot⟩ := hnot
    have hstart : m.findSlot cfg seti = seti % cfg.cachepages := by
      rcases hsettles with hstate | ⟨-, hstate⟩ | ⟨-, hs⟩
      · exact absurd hstate (hfree _ hlt).1
      · exact absurd hstate (hfree _ hlt).2
      · exact hs
    have hnone : m.findposition cfg p seti = none := by
      rw [findposition_none, hstart]
      cases hstate : (m.cache (seti % cfg.cachepages)).state with
      | unmap => exact absurd hstate (hfree _ hseti).1
      | inv => exact absurd hstate (hfree _ hseti).2
      | ro => exact absurd hstate hro
      | rw => rfl
    exact hserved.inRange (cacheFault_out_of_range.mpr ⟨hslot (hserved.givesUp hnone), hnone⟩)
  · intro hcan
    refine ⟨?_, ?_, ?_, cacheFault_recorded⟩
    · intro s m' hsome
      obtain ⟨rfl, hrw, -⟩ := findposition_some hsome
      exact ⟨hlt, fun c hc => hsettles.rank_le hlt hrw hc⟩
    · exact fun hnone => (hcan.all_rw hnone).1
    · intro hout
      obtain ⟨hslot, hnone⟩ := cacheFault_out_of_range.mp hout
      exact absurd (hcan.all_rw hnone).2 (not_lt.mpr hslot)

/-- Host 0 has written page 0 and read pages 1 to 3; its cache is full. -/
def oneWritten : MemState :=
  { initmem .fivePages 0 with
    page := fun p =>
      { (initmem .fivePages 0).page p with cachei := if p < 4 then p else Config.fivePages.cachepages }
    cache := fun c =>
      if c = 0 then ⟨.rw, Config.fivePages.pageAddr 0, some zeroPage, true⟩
      else ⟨.ro, Config.fivePages.pageAddr c, none, false⟩
    prot := fun p => if p = 0 then .readWrite else if p < 4 then .read else .unmapped }

/-- Host 0 reads page 4 and the scan starts at slot 0: `findposition` gives up although
three slots are RO. -/
theorem oneWritten_not_served : ¬ FaultServed .fivePages oneWritten 4 0 := by
  intro hserved
  have hnone : oneWritten.findposition .fivePages 4 0 = none := findposition_none.mpr (by decide)
  exact absurd (hserved.givesUp hnone 1 (by decide)) (by decide)

end MemState

end Jiajia
