import Jiajia.Global
import Jiajia.DivTask
import Jiajia.Lib.Weights
import Jiajia.Lib.Transition

/-!
# New powers

`jia_loadcheck` reports the time a host has computed to host 0.  When all hosts have
reported, `jia_newload` divides the powers by the times, if the times lie far enough
apart, and the new powers go to all hosts.  Numbers are exact.
-/

namespace Jiajia.Load

open Transition Weights

/-! ## The servers -/

def Delta : ℚ := 1 / 20

/-- What `load.c` keeps on a host; `time` is the column of `loadstat`. -/
structure LoadHost where
  load : LoadState
  time : Nat → ℚ
  caltime : ℚ
  loadwait : Bool
  loadcnt : Nat

def powers (l : LoadState) : Nat → ℚ := fun i => (l.loadstat i).power

variable (cfg : Config)

def setting : Setting := ⟨cfg.hostc, true⟩

def setPowers (l : LoadState) (power : Nat → ℚ) : LoadState :=
  { l with
    loadstat := fun i =>
      if i < cfg.hostc then { l.loadstat i with power := power i } else l.loadstat i }

/-- `jia_newload()` -/
def jiaNewload (h : LoadHost) : Result LoadHost := do
  let hosts := Finset.range cfg.hostc
  let ex := (∑ i ∈ hosts, h.time i) / cfg.hostc
  let ex2 := (∑ i ∈ hosts, h.time i * h.time i) / cfg.hostc
  let sigma := ex2 - ex * ex
  defined (ex * ex ≠ 0) "division by zero"
  if sigma / (ex * ex) < Delta * Delta then return h
  else do
    defined (∀ i < cfg.hostc, h.time i ≠ 0) "division by zero"
    let power := fun i => powers h.load i / h.time i
    let Ptotal := ∑ i ∈ hosts, power i
    defined (Ptotal ≠ 0) "division by zero"
    return { h with load := setPowers cfg h.load fun i => power i / Ptotal }

/-- The hosts, the LOADREQs on their way from each host to host 0, and the LOADGRANTs on
their way to each host. -/
structure LoadSystem where
  host : Nat → LoadHost
  up : Nat → List ℚ
  down : Nat → List (Nat → ℚ)

inductive LoadEvent
  /-- Host `i` calls `jia_loadcheck`; `time` adds up `endtime - starttime` since its last call. -/
  | check (i : Nat) (time : ℚ)
  /-- Host 0 handles LOADREQ from host `i`. -/
  | serve (i : Nat)
  /-- Host `i` handles LOADGRANT. -/
  | grant (i : Nat)

/-- `loadserver(req)` up to `jia_newload`. -/
def countLoad (h : LoadHost) (i : Nat) (time : ℚ) : LoadHost :=
  { h with time := upd h.time i time, loadcnt := h.loadcnt + 1 }

/-- `loadserver(req)` for a LOADREQ of host `i`. -/
def loadserver (s : LoadSystem) (i : Nat) (time : ℚ) (rest : List ℚ) : Result LoadSystem := do
  let h := countLoad (s.host 0) i time
  if h.loadcnt = cfg.hostc then do
    let h ← jiaNewload cfg { h with loadcnt := 0 }
    return {
      host := upd s.host 0 h
      up := upd s.up i rest
      down := fun j => if j < cfg.hostc then s.down j ++ [powers h.load] else s.down j }
  else return { s with host := upd s.host 0 h, up := upd s.up i rest }

/-- `loadgrantserver(grant)`, and the end of the `jia_loadcheck` that waits for it. -/
def granted (h : LoadHost) (data : Nat → ℚ) : LoadHost :=
  { h with load := loadgrantserver (setting cfg) h.load data, loadwait := false, caltime := 0 }

/-- `jia_loadcheck()` up to its wait. -/
def loadcheck (h : LoadHost) (time : ℚ) : LoadHost :=
  { h with caltime := h.caltime + time, loadwait := true }

def loadStep (s : LoadSystem) : LoadEvent → Result LoadSystem
  | .check i time => do
      await (i < cfg.hostc ∧ (s.host i).loadwait = false)
      let h := loadcheck (s.host i) time
      return { s with host := upd s.host i h, up := upd s.up i (s.up i ++ [h.caltime]) }
  | .serve i =>
      match s.up i with
      | [] => .error .blocked
      | time :: rest => loadserver cfg s i time rest
  | .grant i =>
      match s.down i with
      | [] => .error .blocked
      | data :: rest =>
          .ok { s with host := upd s.host i (granted cfg (s.host i) data), down := upd s.down i rest }

/-- All hosts after the first `jia_divtask`: equal powers. -/
def loadStart : LoadSystem where
  host _ :=
    { load := firstLoad (setting cfg) ⟨fun _ => ⟨0, 0, 0⟩, true⟩
      time := fun _ => 0, caltime := 0, loadwait := false, loadcnt := 0 }
  up _ := []
  down _ := []

/-- Times are not negative. -/
def Timely : LoadEvent → Prop
  | .check _ time => 0 ≤ time
  | _ => True

def loadSystem : System LoadSystem LoadEvent where
  start := loadStart cfg
  next s e s' := Timely e ∧ loadStep cfg s e = .ok s'

/-! ## `jia_newload` -/

section NewLoad

variable {cfg} {h h' : LoadHost}

/-- The powers a host knows are normalised. -/
abbrev PowersNormal (cfg : Config) (power : Nat → ℚ) : Prop :=
  Normal (Finset.range cfg.hostc) power

theorem hosts_nonempty : (Finset.range cfg.hostc).Nonempty :=
  Finset.nonempty_range_iff.mpr cfg.hostc_pos.ne'

theorem powers_setPowers (l : LoadState) (power : Nat → ℚ) {i : Nat} (hi : i < cfg.hostc) :
    powers (setPowers cfg l power) i = power i := by
  simp [powers, setPowers, hi]

theorem jiaNewload_ok (hn : jiaNewload cfg h = .ok h') :
    (∀ i < cfg.hostc, h.time i ≠ 0) ∧ h' = { h with
      load := setPowers cfg h.load fun i =>
        (powers h.load i / h.time i) / ∑ j ∈ Finset.range cfg.hostc, powers h.load j / h.time j } ∨
    h' = h := by
  simp only [jiaNewload, bind_eq_ok, defined_eq_ok] at hn
  obtain ⟨-, -, hn⟩ := hn
  split at hn
  · exact Or.inr (Except.ok.inj hn).symm
  · simp only [bind_eq_ok, defined_eq_ok] at hn
    obtain ⟨-, htime, -, -, hn⟩ := hn
    exact Or.inl ⟨htime, (Except.ok.inj hn).symm⟩

theorem jiaNewload_normal (hp : PowersNormal cfg (powers h.load))
    (ht : ∀ i < cfg.hostc, 0 ≤ h.time i) (hn : jiaNewload cfg h = .ok h') :
    PowersNormal cfg (powers h'.load) := by
  rcases jiaNewload_ok hn with ⟨htime, rfl⟩ | rfl
  · have hpos : ∀ i ∈ Finset.range cfg.hostc, 0 < powers h.load i / h.time i := by
      intro i hi
      have hlt := Finset.mem_range.mp hi
      exact div_pos (hp.pos i hi) (lt_of_le_of_ne (ht i hlt) (htime i hlt).symm)
    refine (Normal.rescale hosts_nonempty hpos).2.congr ?_
    intro i hi
    exact powers_setPowers _ _ (Finset.mem_range.mp hi)
  · exact hp

/-- With a time of zero the times lie too far apart to be left alone. -/
theorem spread_ge_delta {time : Nat → ℚ} (hzero : ∃ i < cfg.hostc, time i = 0)
    (hsum : 0 < ∑ i ∈ Finset.range cfg.hostc, time i) :
    ¬ spread (Finset.range cfg.hostc) time < Delta * Delta := by
  obtain ⟨i, hi, hzero⟩ := hzero
  have hge := spread_of_zero (Finset.mem_range.mpr hi) hzero hsum
  have hpos : (1 : ℚ) ≤ cfg.hostc := by exact_mod_cast cfg.hostc_pos
  have hle : (cfg.hostc : ℚ) ≤ 16 := by exact_mod_cast cfg.hostc_le
  rw [Finset.card_range] at hge
  intro hlt
  have hsmall : spread (Finset.range cfg.hostc) time * (cfg.hostc - 1) ≤
      Delta * Delta * (cfg.hostc - 1) :=
    mul_le_mul_of_nonneg_right hlt.le (by linarith)
  unfold Delta at hsmall
  linarith

/-- `jia_newload` ends exactly when every time is positive. -/
theorem jiaNewload_cases (hp : PowersNormal cfg (powers h.load))
    (ht : ∀ i < cfg.hostc, 0 ≤ h.time i) :
    ((∀ i < cfg.hostc, 0 < h.time i) ∧ ∃ h', jiaNewload cfg h = .ok h') ∨
    ((∃ i < cfg.hostc, h.time i = 0) ∧
      jiaNewload cfg h = .error (.undefined "division by zero")) := by
  have hmem : ∀ i ∈ Finset.range cfg.hostc, 0 ≤ h.time i :=
    fun i hi => ht i (Finset.mem_range.mp hi)
  by_cases hall : ∀ i < cfg.hostc, 0 < h.time i
  · left
    refine ⟨hall, ?_⟩
    have hsum : 0 < ∑ i ∈ Finset.range cfg.hostc, h.time i :=
      Finset.sum_pos (fun i hi => hall i (Finset.mem_range.mp hi)) hosts_nonempty
    have hex := mean_pos hosts_nonempty hsum
    rw [mean, Finset.card_range] at hex
    have htotal := (Normal.rescale hosts_nonempty fun i hi =>
      div_pos (hp.pos i hi) (hall i (Finset.mem_range.mp hi))).1
    have hne : ∀ i < cfg.hostc, h.time i ≠ 0 := fun i hi => (hall i hi).ne'
    simp only [jiaNewload, defined, if_pos (mul_pos hex hex).ne', if_pos hne, if_pos htotal.ne']
    split
    · exact ⟨_, rfl⟩
    · exact ⟨_, rfl⟩
  · right
    simp only [not_forall, not_lt] at hall
    obtain ⟨i, hi, hle⟩ := hall
    have hzero : ∃ i < cfg.hostc, h.time i = 0 := ⟨i, hi, le_antisymm hle (ht i hi)⟩
    refine ⟨hzero, ?_⟩
    rcases (Finset.sum_nonneg hmem).eq_or_lt with hsum | hsum
    · -- nobody has computed: the mean is zero
      simp only [jiaNewload, ← hsum, zero_div, mul_zero, defined]
      rfl
    · have hex := mean_pos hosts_nonempty hsum
      have hspread := spread_ge_delta hzero hsum
      rw [mean, Finset.card_range] at hex
      rw [spread, mean, mean, Finset.card_range] at hspread
      have hne : ¬ ∀ i < cfg.hostc, h.time i ≠ 0 := by
        intro hne
        obtain ⟨j, hj, hj0⟩ := hzero
        exact hne j hj hj0
      simp only [jiaNewload, defined, if_pos (mul_pos hex hex).ne']
      exact (if_neg hspread).trans (by rw [if_neg hne]; rfl)

theorem jiaNewload_frame (hn : jiaNewload cfg h = .ok h') :
    h'.time = h.time ∧ h'.caltime = h.caltime ∧ h'.loadwait = h.loadwait ∧
      h'.loadcnt = h.loadcnt := by
  rcases jiaNewload_ok hn with ⟨-, rfl⟩ | rfl
  · exact ⟨rfl, rfl, rfl, rfl⟩
  · exact ⟨rfl, rfl, rfl, rfl⟩

end NewLoad

/-! ## The phases of a host -/

namespace LoadSystem

/-- Host 0 has counted the host in this round. -/
def counted (s : LoadSystem) (i : Nat) : Bool :=
  (s.host i).loadwait && (s.up i).isEmpty && (s.down i).isEmpty

/-- What a host shows of its `jia_loadcheck`. -/
inductive Phase (cfg : Config) (s : LoadSystem) (i : Nat) : Prop
  | idle (hwait : (s.host i).loadwait = false) (hup : s.up i = []) (hdown : s.down i = [])
  | asked (hwait : (s.host i).loadwait = true) (hup : s.up i = [(s.host i).caltime])
      (hdown : s.down i = []) (hi : i < cfg.hostc)
  | counted (hwait : (s.host i).loadwait = true) (hup : s.up i = []) (hdown : s.down i = [])
      (htime : (s.host 0).time i = (s.host i).caltime) (hi : i < cfg.hostc)
  | granted {power : Nat → ℚ} (hwait : (s.host i).loadwait = true) (hup : s.up i = [])
      (hdown : s.down i = [power]) (hpower : PowersNormal cfg power) (hi : i < cfg.hostc)

/-- Every host is in a phase and knows normalised powers; host 0 has counted the hosts whose
time it has and that it has not answered. -/
structure Ok (cfg : Config) (s : LoadSystem) : Prop where
  normal : ∀ i < cfg.hostc, PowersNormal cfg (powers (s.host i).load)
  phase : ∀ i, Phase cfg s i
  count : (s.host 0).loadcnt = ((Finset.range cfg.hostc).filter fun i => s.counted i = true).card
  nonneg : ∀ i, 0 ≤ (s.host i).caltime

/-- The hosts that are waiting have computed. -/
def Busy (s : LoadSystem) : Prop := ∀ i, (s.host i).loadwait = true → 0 < (s.host i).caltime

end LoadSystem

section Run

variable {cfg} {s s' : LoadSystem}

open LoadSystem

theorem LoadSystem.Phase.frame {i : Nat} (h : Phase cfg s i)
    (hwait : (s'.host i).loadwait = (s.host i).loadwait)
    (hcal : (s'.host i).caltime = (s.host i).caltime) (hup : s'.up i = s.up i)
    (hdown : s'.down i = s.down i) (htime : (s'.host 0).time i = (s.host 0).time i) :
    Phase cfg s' i := by
  cases h with
  | idle hw hu hd => exact .idle (hwait.trans hw) (hup.trans hu) (hdown.trans hd)
  | asked hw hu hd hi =>
      exact .asked (hwait.trans hw) ((hup.trans hu).trans (by rw [hcal])) (hdown.trans hd) hi
  | counted hw hu hd ht hi =>
      exact .counted (hwait.trans hw) (hup.trans hu) (hdown.trans hd)
        ((htime.trans ht).trans hcal.symm) hi
  | granted hw hu hd hp hi => exact .granted (hwait.trans hw) (hup.trans hu) (hdown.trans hd) hp hi

theorem counted_congr {i : Nat} (hwait : (s'.host i).loadwait = (s.host i).loadwait)
    (hup : s'.up i = s.up i) (hdown : s'.down i = s.down i) : s'.counted i = s.counted i := by
  rw [counted, counted, hwait, hup, hdown]

theorem powers_start (i : Nat) : PowersNormal cfg (powers ((loadStart cfg).host i).load) := by
  have huniform := Normal.uniform (K := ℚ) (@hosts_nonempty cfg)
  refine huniform.congr ?_
  intro j hj
  have hlt := Finset.mem_range.mp hj
  simp [powers, loadStart, firstLoad, setting, hlt, Finset.card_range]

theorem ok_start : Ok cfg (loadStart cfg) where
  normal i _ := powers_start i
  phase _ := .idle rfl rfl rfl
  count := by simp [loadStart, LoadSystem.counted]
  nonneg _ := le_refl _

theorem card_counted_congr (h : ∀ i, s'.counted i = s.counted i) :
    ((Finset.range cfg.hostc).filter fun i => s'.counted i = true).card =
      ((Finset.range cfg.hostc).filter fun i => s.counted i = true).card := by
  simp only [h]

theorem upd_field {α : Type} (f : LoadHost → α) (hosts : Nat → LoadHost) {i : Nat} {h : LoadHost}
    (heq : f h = f (hosts i)) (j : Nat) : f (upd hosts i h j) = f (hosts j) := by
  by_cases hj : j = i
  · subst hj
    rw [upd_same, heq]
  · rw [upd_of_ne _ _ hj]

namespace LoadSystem.Ok

theorem check {i : Nat} {time : ℚ} (h : Ok cfg s) (hi : i < cfg.hostc)
    (hwait : (s.host i).loadwait = false) (ht : 0 ≤ time) :
    Ok cfg { s with
      host := upd s.host i (loadcheck (s.host i) time)
      up := upd s.up i (s.up i ++ [(loadcheck (s.host i) time).caltime]) } := by
  obtain ⟨hup, hdown⟩ : s.up i = [] ∧ s.down i = [] := by
    cases h.phase i with
    | idle _ hup hdown => exact ⟨hup, hdown⟩
    | asked hw | counted hw | granted hw => rw [hwait] at hw; cases hw
  have hload := @upd_field _ LoadHost.load s.host i (loadcheck (s.host i) time) rfl
  have htime := @upd_field _ LoadHost.time s.host i (loadcheck (s.host i) time) rfl
  have hcnt := @upd_field _ LoadHost.loadcnt s.host i (loadcheck (s.host i) time) rfl
  refine ⟨?_, ?_, ?_, ?_⟩
  · intro j hj
    exact (hload j).symm ▸ h.normal j hj
  · intro j
    by_cases hji : j = i
    · subst hji
      refine .asked ?_ ?_ hdown hi
      · simp [loadcheck]
      · simp [hup]
    · refine (h.phase j).frame ?_ ?_ ?_ rfl ?_
      · simp [hji]
      · simp [hji]
      · simp [hji]
      · exact congrFun (htime 0) j
  · refine (hcnt 0).trans (h.count.trans (card_counted_congr ?_).symm)
    intro j
    by_cases hji : j = i
    · subst hji
      simp [LoadSystem.counted, hwait]
    · exact counted_congr (by simp [hji]) (by simp [hji]) rfl
  · intro j
    by_cases hji : j = i
    · subst hji
      simpa [loadcheck] using add_nonneg (h.nonneg j) ht
    · simpa [hji] using h.nonneg j

theorem asked {i : Nat} {time : ℚ} {rest : List ℚ} (h : Ok cfg s) (hup : s.up i = time :: rest) :
    i < cfg.hostc ∧ (s.host i).loadwait = true ∧ time = (s.host i).caltime ∧ rest = [] ∧
      s.down i = [] ∧ s.counted i = false := by
  cases h.phase i with
  | asked hwait hone hdown hi =>
      rw [hup] at hone
      obtain ⟨rfl, rfl⟩ := List.cons.inj hone
      exact ⟨hi, hwait, rfl, rfl, hdown, by simp [LoadSystem.counted, hup]⟩
  | idle _ hnone | counted _ hnone | granted _ hnone => rw [hup] at hnone; cases hnone

/-- The last host of a round finds all others counted. -/
theorem all_counted {i : Nat} (h : Ok cfg s) (hi : i < cfg.hostc) (hself : s.counted i = false)
    (hlast : (s.host 0).loadcnt + 1 = cfg.hostc) :
    ∀ j < cfg.hostc, j ≠ i → s.counted j = true := by
  have hsub : ((Finset.range cfg.hostc).filter fun j => s.counted j = true) ⊆
      (Finset.range cfg.hostc).erase i := by
    intro j hj
    rw [Finset.mem_filter] at hj
    rw [Finset.mem_erase]
    refine ⟨?_, hj.1⟩
    rintro rfl
    rw [hself] at hj
    cases hj.2
  have hcard : ((Finset.range cfg.hostc).erase i).card ≤
      ((Finset.range cfg.hostc).filter fun j => s.counted j = true).card := by
    rw [Finset.card_erase_of_mem (Finset.mem_range.mpr hi), Finset.card_range, ← h.count]
    omega
  have heq := Finset.eq_of_subset_of_card_le hsub hcard
  intro j hj hne
  have hmem : j ∈ (Finset.range cfg.hostc).erase i :=
    Finset.mem_erase.mpr ⟨hne, Finset.mem_range.mpr hj⟩
  rw [← heq, Finset.mem_filter] at hmem
  exact hmem.2

/-- The times host 0 has when the round is complete are those the hosts have reported. -/
theorem time_eq {i : Nat} {time : ℚ} {rest : List ℚ} (h : Ok cfg s) (hup : s.up i = time :: rest)
    (hlast : (s.host 0).loadcnt + 1 = cfg.hostc) :
    ∀ j < cfg.hostc, (countLoad (s.host 0) i time).time j = (s.host j).caltime := by
  obtain ⟨hi, -, htime, -, -, hself⟩ := h.asked hup
  intro j hj
  by_cases hji : j = i
  · subst hji
    simp [countLoad, htime]
  · have hcounted := h.all_counted hi hself hlast j hj hji
    simp only [countLoad, upd_of_ne _ _ hji]
    cases h.phase j with
    | counted _ _ _ ht => exact ht
    | idle hw => simp [LoadSystem.counted, hw] at hcounted
    | asked _ hu => simp [LoadSystem.counted, hu] at hcounted
    | granted _ _ hd => simp [LoadSystem.counted, hd] at hcounted

theorem count_more {i : Nat} {time : ℚ} {rest : List ℚ} (h : Ok cfg s)
    (hup : s.up i = time :: rest) :
    Ok cfg { s with
      host := upd s.host 0 (countLoad (s.host 0) i time), up := upd s.up i rest } := by
  obtain ⟨hi, hwait, rfl, rfl, hdown, hself⟩ := h.asked hup
  have hload := @upd_field _ LoadHost.load s.host 0 (countLoad (s.host 0) i (s.host i).caltime) rfl
  have hw := @upd_field _ LoadHost.loadwait s.host 0 (countLoad (s.host 0) i (s.host i).caltime) rfl
  have hc := @upd_field _ LoadHost.caltime s.host 0 (countLoad (s.host 0) i (s.host i).caltime) rfl
  refine ⟨?_, ?_, ?_, ?_⟩
  · intro j hj
    exact (hload j).symm ▸ h.normal j hj
  · intro j
    by_cases hji : j = i
    · subst hji
      refine .counted ((hw j).trans hwait) (by simp) hdown ?_ hi
      rw [hc]
      simp [countLoad]
    · refine (h.phase j).frame (hw j) (hc j) (by simp [hji]) rfl ?_
      simp [countLoad, hji]
  · have hinsert : ((Finset.range cfg.hostc).filter fun j => LoadSystem.counted { s with
        host := upd s.host 0 (countLoad (s.host 0) i (s.host i).caltime)
        up := upd s.up i [] } j = true) =
        insert i ((Finset.range cfg.hostc).filter fun j => s.counted j = true) := by
      ext j
      rw [Finset.mem_insert, Finset.mem_filter, Finset.mem_filter]
      by_cases hji : j = i
      · subst hji
        simp [LoadSystem.counted, hw, hwait, hdown, hi]
      · simp [LoadSystem.counted, hw, hji]
    rw [hinsert, Finset.card_insert_of_notMem, ← h.count]
    · simp [countLoad]
    · simp [hself]
  · intro j
    exact (hc j).symm ▸ h.nonneg j

theorem answer {i : Nat} {time : ℚ} {rest : List ℚ} {h' : LoadHost} (h : Ok cfg s)
    (hup : s.up i = time :: rest) (hlast : (s.host 0).loadcnt + 1 = cfg.hostc)
    (hn : jiaNewload cfg { countLoad (s.host 0) i time with loadcnt := 0 } = .ok h') :
    Ok cfg {
      host := upd s.host 0 h'
      up := upd s.up i rest
      down := fun j => if j < cfg.hostc then s.down j ++ [powers h'.load] else s.down j } := by
  have htimes := h.time_eq hup hlast
  obtain ⟨hi, hwait, rfl, rfl, hdown, hself⟩ := h.asked hup
  have hnormal : PowersNormal cfg (powers h'.load) := by
    refine jiaNewload_normal ?_ ?_ hn
    · exact h.normal 0 cfg.hostc_pos
    · intro j hj
      exact (htimes j hj).symm ▸ h.nonneg j
  obtain ⟨-, hcal, hw', hcnt⟩ := jiaNewload_frame hn
  have hwaits := upd_field LoadHost.loadwait s.host hw'
  have hcals := upd_field LoadHost.caltime s.host hcal
  have hround : ∀ j < cfg.hostc, s.down j = [] ∧ (s.host j).loadwait = true ∧
      upd s.up i [] j = [] := by
    intro j hj
    by_cases hji : j = i
    · subst hji
      exact ⟨hdown, hwait, by simp⟩
    · have hcounted := h.all_counted hi hself hlast j hj hji
      simp only [LoadSystem.counted, Bool.and_eq_true, List.isEmpty_iff] at hcounted
      exact ⟨hcounted.2, hcounted.1.1, by simp [hji, hcounted.1.2]⟩
  refine ⟨?_, ?_, ?_, ?_⟩
  · intro j hj
    by_cases hj0 : j = 0
    · subst hj0
      simpa using hnormal
    · simpa [hj0] using h.normal j hj
  · intro j
    by_cases hj : j < cfg.hostc
    · obtain ⟨hd, hw, hu⟩ := hround j hj
      exact .granted ((hwaits j).trans hw) hu (by simp [hj, hd]) hnormal hj
    · have hne : j ≠ i := by
        rintro rfl
        exact hj hi
      cases h.phase j with
      | idle hw hu hd =>
          exact .idle ((hwaits j).trans hw) (by simp [hne, hu]) (by simp [hj, hd])
      | asked _ _ _ hlt | counted _ _ _ _ hlt | granted _ _ _ _ hlt => exact absurd hlt hj
  · have hnone : ((Finset.range cfg.hostc).filter fun j => LoadSystem.counted {
        host := upd s.host 0 h'
        up := upd s.up i []
        down := fun j => if j < cfg.hostc then s.down j ++ [powers h'.load] else s.down j }
          j = true) = ∅ := by
      rw [Finset.filter_eq_empty_iff]
      intro j hj
      simp [LoadSystem.counted, Finset.mem_range.mp hj]
    rw [hnone, Finset.card_empty]
    simpa using hcnt
  · intro j
    exact (hcals j).symm ▸ h.nonneg j

theorem granting {i : Nat} {power : Nat → ℚ} {rest : List (Nat → ℚ)} (h : Ok cfg s)
    (hdown : s.down i = power :: rest) :
    rest = [] ∧ s.up i = [] ∧ PowersNormal cfg power ∧ s.counted i = false := by
  cases h.phase i with
  | granted _ hup hone hpower =>
      rw [hdown] at hone
      obtain ⟨rfl, rfl⟩ := List.cons.inj hone
      exact ⟨rfl, hup, hpower, by simp [LoadSystem.counted, hdown]⟩
  | idle _ _ hnone | asked _ _ hnone | counted _ _ hnone => rw [hdown] at hnone; cases hnone

theorem grant {i : Nat} {power : Nat → ℚ} {rest : List (Nat → ℚ)} (h : Ok cfg s)
    (hdown : s.down i = power :: rest) :
    Ok cfg { s with
      host := upd s.host i (granted cfg (s.host i) power), down := upd s.down i rest } := by
  obtain ⟨rfl, hup, hpower, hself⟩ := h.granting hdown
  have htime := @upd_field _ LoadHost.time s.host i (granted cfg (s.host i) power) rfl
  have hcnt := @upd_field _ LoadHost.loadcnt s.host i (granted cfg (s.host i) power) rfl
  refine ⟨?_, ?_, ?_, ?_⟩
  · intro j hj
    by_cases hji : j = i
    · subst hji
      refine hpower.congr ?_
      intro k hk
      simp [granted, powers, loadgrantserver, setting, Finset.mem_range.mp hk]
    · simpa [hji] using h.normal j hj
  · intro j
    by_cases hji : j = i
    · subst hji
      exact .idle (by simp [granted]) hup (by simp)
    · refine (h.phase j).frame ?_ ?_ rfl ?_ ?_
      · simp [hji]
      · simp [hji]
      · simp [hji]
      · exact congrFun (htime 0) j
  · refine (hcnt 0).trans (h.count.trans (card_counted_congr ?_).symm)
    intro j
    by_cases hji : j = i
    · subst hji
      rw [hself]
      simp [LoadSystem.counted, granted]
    · exact counted_congr (by simp [hji]) rfl (by simp [hji])
  · intro j
    by_cases hji : j = i
    · subst hji
      simp [granted]
    · simpa [hji] using h.nonneg j

end LoadSystem.Ok

/-- A LOADREQ divides by zero when it completes a round in which some host has computed for
no time. -/
theorem LoadSystem.Ok.serve_cases (h : Ok cfg s) {i : Nat} {time : ℚ} {rest : List ℚ}
    (hup : s.up i = time :: rest) :
    (∃ s', loadStep cfg s (.serve i) = .ok s' ∧ Ok cfg s' ∧
      ¬((s.host 0).loadcnt + 1 = cfg.hostc ∧ ∃ j < cfg.hostc, (s.host j).caltime = 0)) ∨
    (loadStep cfg s (.serve i) = .error (.undefined "division by zero") ∧
      (s.host 0).loadcnt + 1 = cfg.hostc ∧ ∃ j < cfg.hostc, (s.host j).caltime = 0) := by
  have hserve : loadStep cfg s (.serve i) = loadserver cfg s i time rest := by
    simp only [loadStep, hup]
  by_cases hlast : (s.host 0).loadcnt + 1 = cfg.hostc
  · have htimes := h.time_eq hup hlast
    have hlast' : (countLoad (s.host 0) i time).loadcnt = cfg.hostc := hlast
    have hcases := @jiaNewload_cases cfg { countLoad (s.host 0) i time with loadcnt := 0 }
      (h.normal 0 cfg.hostc_pos) fun j hj => (htimes j hj).symm ▸ h.nonneg j
    rcases hcases with ⟨hpos, h', hn⟩ | ⟨⟨j, hj, hzero⟩, hn⟩
    · left
      refine ⟨_, ?_, h.answer hup hlast hn, ?_⟩
      · rw [hserve, loadserver, if_pos hlast', hn]
        rfl
      · rintro ⟨-, j, hj, hzero⟩
        have hlt := hpos j hj
        rw [show _ = _ from htimes j hj, hzero] at hlt
        exact lt_irrefl _ hlt
    · right
      refine ⟨?_, hlast, j, hj, (htimes j hj).symm.trans hzero⟩
      rw [hserve, loadserver, if_pos hlast', hn]
      rfl
  · left
    have hlast' : ¬ (countLoad (s.host 0) i time).loadcnt = cfg.hostc := hlast
    refine ⟨_, ?_, h.count_more hup, fun hc => hlast hc.1⟩
    rw [hserve, loadserver, if_neg hlast']
    rfl

theorem LoadSystem.Ok.step (h : Ok cfg s) {e : LoadEvent} (ht : Timely e)
    (hstep : loadStep cfg s e = .ok s') : Ok cfg s' := by
  cases e with
  | check i time =>
      simp only [loadStep, bind_eq_ok, await_eq_ok] at hstep
      obtain ⟨-, ⟨hi, hwait⟩, hstep⟩ := hstep
      exact Except.ok.inj hstep ▸ h.check hi hwait ht
  | serve i =>
      cases hup : s.up i with
      | nil =>
          simp only [loadStep, hup] at hstep
          cases hstep
      | cons time rest =>
          rcases h.serve_cases hup with ⟨s₁, hs₁, hok, -⟩ | ⟨hundef, -⟩
          · rw [hs₁] at hstep
            exact Except.ok.inj hstep ▸ hok
          · rw [hundef] at hstep
            cases hstep
  | grant i =>
      cases hdown : s.down i with
      | nil =>
          simp only [loadStep, hdown] at hstep
          cases hstep
      | cons power rest =>
          simp only [loadStep, hdown] at hstep
          exact Except.ok.inj hstep ▸ h.grant hdown

theorem reach_loadOk (hs : (loadSystem cfg).Reach s) : Ok cfg s := by
  refine hs.invariant ok_start ?_
  intro s e s' _ hok hstep
  exact hok.step hstep.1 hstep.2

theorem LoadSystem.Ok.divides_iff (h : Ok cfg s) (i : Nat) :
    loadStep cfg s (.serve i) = .error (.undefined "division by zero") ↔
      s.up i ≠ [] ∧ (s.host 0).loadcnt + 1 = cfg.hostc ∧
        ∃ j < cfg.hostc, (s.host j).caltime = 0 := by
  cases hup : s.up i with
  | nil => simp [loadStep, hup]
  | cons time rest =>
      rcases h.serve_cases hup with ⟨s', hs', -, hno⟩ | ⟨hundef, hyes⟩
      · simp [hs', hno]
      · simp [hundef, hyes]

/-! ## Rounds in which every host has computed -/

def Positive (_ : LoadSystem) : LoadEvent → Prop
  | .check _ time => 0 < time
  | _ => True

theorem loadserver_frame {i : Nat} {time : ℚ} {rest : List ℚ}
    (h : loadserver cfg s i time rest = .ok s') (j : Nat) :
    (s'.host j).loadwait = (s.host j).loadwait ∧ (s'.host j).caltime = (s.host j).caltime := by
  simp only [loadserver] at h
  split at h
  · simp only [bind_eq_ok] at h
    obtain ⟨h', hn, h⟩ := h
    obtain ⟨-, hcal, hwait, -⟩ := jiaNewload_frame hn
    rw [← Except.ok.inj h]
    exact ⟨upd_field LoadHost.loadwait s.host hwait j, upd_field LoadHost.caltime s.host hcal j⟩
  · rw [← Except.ok.inj h]
    constructor
    · exact @upd_field _ LoadHost.loadwait s.host 0 (countLoad (s.host 0) i time) rfl j
    · exact @upd_field _ LoadHost.caltime s.host 0 (countLoad (s.host 0) i time) rfl j

theorem LoadSystem.Busy.step (hb : Busy s) (h : Ok cfg s) {e : LoadEvent} (hpos : Positive s e)
    (hstep : loadStep cfg s e = .ok s') : Busy s' := by
  intro j hwait
  cases e with
  | check i time =>
      simp only [loadStep, bind_eq_ok, await_eq_ok] at hstep
      obtain ⟨-, -, hstep⟩ := hstep
      obtain rfl := Except.ok.inj hstep
      by_cases hji : j = i
      · subst hji
        simpa [loadcheck] using add_pos_of_nonneg_of_pos (h.nonneg j) hpos
      · simp only [upd_of_ne _ _ hji] at hwait ⊢
        exact hb j hwait
  | serve i =>
      cases hup : s.up i with
      | nil =>
          simp only [loadStep, hup] at hstep
          cases hstep
      | cons time rest =>
          simp only [loadStep, hup] at hstep
          obtain ⟨hw, hc⟩ := loadserver_frame hstep j
          rw [hc]
          exact hb j (hw.symm.trans hwait)
  | grant i =>
      cases hdown : s.down i with
      | nil =>
          simp only [loadStep, hdown] at hstep
          cases hstep
      | cons power rest =>
          simp only [loadStep, hdown] at hstep
          obtain rfl := Except.ok.inj hstep
          by_cases hji : j = i
          · subst hji
            simp [granted] at hwait
          · simp only [upd_of_ne _ _ hji] at hwait ⊢
            exact hb j hwait

theorem reach_busy (hs : ((loadSystem cfg).restrict Positive).Reach s) : Busy s := by
  refine hs.invariant ?_ ?_
  · intro i hwait
    simp [System.restrict, loadSystem, loadStart] at hwait
  · intro s e s' hreach hb hstep
    exact hb.step (reach_loadOk hreach.unrestrict) hstep.1 hstep.2.2

/-- No step divides by zero while the hosts that wait have computed. -/
theorem LoadSystem.Ok.divides_never (h : Ok cfg s) (hb : Busy s) (e : LoadEvent) :
    loadStep cfg s e ≠ .error (.undefined "division by zero") := by
  cases e with
  | check i time =>
      simp only [loadStep, await]
      split
      · simp [bind, Except.bind, pure, Except.pure]
      · simp [bind, Except.bind]
  | serve i =>
      rw [Ne, h.divides_iff]
      rintro ⟨hup, hlast, j, hj, hzero⟩
      obtain ⟨time, rest, hup⟩ := List.exists_cons_of_ne_nil hup
      obtain ⟨hi, hwait, -, -, -, hself⟩ := h.asked hup
      refine (hb j ?_).ne' hzero
      by_cases hji : j = i
      · exact hji ▸ hwait
      · have hcounted := h.all_counted hi hself hlast j hj hji
        simp only [LoadSystem.counted, Bool.and_eq_true] at hcounted
        exact hcounted.1.1
  | grant i => cases hdown : s.down i <;> simp [loadStep, hdown]

end Run

/-- The powers every host knows always sum to one, and host 0 divides by zero exactly when a
round completes in which a host reports no time; it never does while the times are positive. -/
theorem powers_normalised_iff :
    (∀ s, (loadSystem cfg).Reach s →
      (∀ i < cfg.hostc, PowersNormal cfg (powers (s.host i).load)) ∧
      ∀ i, loadStep cfg s (.serve i) = .error (.undefined "division by zero") ↔
        s.up i ≠ [] ∧ (s.host 0).loadcnt + 1 = cfg.hostc ∧
          ∃ j < cfg.hostc, (s.host j).caltime = 0) ∧
    ∀ s, ((loadSystem cfg).restrict Positive).Reach s →
      (∀ i < cfg.hostc, PowersNormal cfg (powers (s.host i).load)) ∧
      ∀ e, loadStep cfg s e ≠ .error (.undefined "division by zero") := by
  refine ⟨?_, ?_⟩
  · intro s hs
    have hok := reach_loadOk hs
    exact ⟨hok.normal, hok.divides_iff⟩
  · intro s hs
    have hok := reach_loadOk hs.unrestrict
    exact ⟨hok.normal, hok.divides_never (reach_busy hs)⟩

/-- Host 1 has not computed since its last `jia_loadcheck`. -/
theorem idle_host_divides_by_zero :
    ¬ ∀ s, (loadSystem .noPages).Reach s →
      ∀ e, loadStep .noPages s e ≠ .error (.undefined "division by zero") := by
  intro hall
  have h₁ : (loadSystem .noPages).Reach _ := .step (e := .check 0 1) .start ⟨zero_le_one, rfl⟩
  have h₂ : (loadSystem .noPages).Reach _ := .step (e := .check 1 0) h₁ ⟨le_refl _, rfl⟩
  have h₃ : (loadSystem .noPages).Reach _ := .step (e := .serve 0) h₂ ⟨trivial, rfl⟩
  refine hall _ h₃ (.serve 1) (((reach_loadOk h₃).divides_iff 1).mpr ⟨?_, rfl, 1, ?_, ?_⟩)
  · simp
  · decide
  · simp [loadSystem, loadStart, loadcheck, countLoad]

end Jiajia.Load
