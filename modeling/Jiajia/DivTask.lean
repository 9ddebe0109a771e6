import Jiajia.Lib.Ranges
import Mathlib.Data.Rat.Floor

/-!
# Dividing a task

`jia_divtask` gives each host a range of the iterations of a loop: equal parts, or parts by
the powers of the hosts, with exact numbers for `float`.
-/

namespace Jiajia.Load

/-- A number as an `int`: towards zero. -/
def truncate (q : ℚ) : Int := if 0 ≤ q then ⌊q⌋ else ⌈q⌉

/-- `jiaload_t`; `finish` is its `end`. -/
structure JiaLoad where
  power : ℚ
  begin : Int
  finish : Int
deriving DecidableEq

/-- What `load.c` keeps on a host. -/
structure LoadState where
  loadstat : Nat → JiaLoad
  firsttime : Bool

/-- What a host reads of the settings. -/
structure Setting where
  hostc : Nat
  loadBal : Bool

variable (cfg : Setting)

/-- `loadgrantserver(grant)` -/
def loadgrantserver (l : LoadState) (data : Nat → ℚ) : LoadState :=
  { l with
    loadstat := fun i => if i < cfg.hostc then { l.loadstat i with power := data i } else l.loadstat i }

/-- The first call: all hosts have the same power. -/
def firstLoad (l : LoadState) : LoadState :=
  if l.firsttime then
    { loadstat := fun i =>
        if i < cfg.hostc then { l.loadstat i with power := 1 / cfg.hostc } else l.loadstat i
      firsttime := false }
  else l

/-- One turn of the loop over the hosts. -/
def divTurn (iternum loadend : Int) (s : Nat → JiaLoad) (i : Nat) : Nat → JiaLoad :=
  let last := truncate ((s i).begin + (s i).power * iternum)
  let last := if last > loadend then loadend else last
  let s := Function.update s i { s i with finish := last }
  Function.update s (i + 1) { s (i + 1) with begin := last + 1 }

/-- The ranges by the powers. -/
def divide (l : LoadState) (loadstart loadend : Int) : Nat → JiaLoad :=
  let s := Function.update l.loadstat 0 { l.loadstat 0 with begin := loadstart }
  let s := (List.range (cfg.hostc - 1)).foldl (divTurn (loadend - loadstart + 1) loadend) s
  Function.update s (cfg.hostc - 1) { s (cfg.hostc - 1) with finish := loadend }

/-- `jia_divtask(begin, end)` on host `pid`, with the range it leaves. -/
def jiaDivtask (pid : Nat) (l : LoadState) (first last : Int) : LoadState × Int × Int :=
  if cfg.hostc = 1 then (l, first, last)
  else if cfg.loadBal then
    let l := firstLoad cfg l
    let s := divide cfg l first last
    ({ l with loadstat := s }, (s pid).begin, (s pid).finish)
  else
    let part := (last - first + 1).tdiv cfg.hostc
    let first' := first + part * pid
    (l, first', if pid = cfg.hostc - 1 then last else first' + part - 1)

/-! ## The ranges by the powers -/

section Cut

variable {power : Nat → ℚ} {first last : Int}

theorem floor_le_truncate (q : ℚ) : ⌊q⌋ ≤ truncate q := by
  unfold truncate
  split
  · exact le_refl _
  · exact Int.floor_le_ceil q

theorem le_truncate {a : Int} {q : ℚ} (hq : 0 ≤ q) : a ≤ truncate (a + q) := by
  apply le_trans _ (floor_le_truncate _)
  apply Int.le_floor.mpr
  linarith

/-- Where the range of host `i` starts. -/
def cut (power : Nat → ℚ) (first last : Int) : Nat → Int
  | 0 => first
  | i + 1 =>
      min (truncate (cut power first last i + power i * (last - first + 1 : Int))) last + 1

theorem cut_le (hle : first ≤ last + 1) (i : Nat) : cut power first last i ≤ last + 1 := by
  cases i with
  | zero => exact hle
  | succ i =>
      unfold cut
      omega

theorem cut_le_succ (hle : first ≤ last + 1) {i : Nat} (hpower : 0 ≤ power i) :
    cut power first last i ≤ cut power first last (i + 1) := by
  have hlast := @cut_le power first last hle i
  have hiter : (0 : ℚ) ≤ ((last - first + 1 : Int) : ℚ) := by
    apply Int.cast_nonneg
    omega
  have htrunc := @le_truncate (cut power first last i) _ (mul_nonneg hpower hiter)
  show _ ≤ min _ last + 1
  omega

theorem cut_congr {power' : Nat → ℚ} {k : Nat} (h : ∀ i < k, power i = power' i) :
    cut power first last k = cut power' first last k := by
  induction k with
  | zero => rfl
  | succ k ih =>
      unfold cut
      rw [ih fun i hi => h i (by omega), h k (by omega)]

end Cut

section Loop

variable {first last : Int} {s : Nat → JiaLoad}

/-- After `k` turns the first `k` hosts have their ranges, and the next one its start. -/
theorem foldl_divTurn (hfirst : (s 0).begin = first) (k : Nat) :
    (∀ i, ((List.range k).foldl (divTurn (last - first + 1) last) s i).power = (s i).power) ∧
    (∀ i ≤ k, ((List.range k).foldl (divTurn (last - first + 1) last) s i).begin =
      cut (fun i => (s i).power) first last i) ∧
    ∀ i < k, ((List.range k).foldl (divTurn (last - first + 1) last) s i).finish + 1 =
      cut (fun i => (s i).power) first last (i + 1) := by
  induction k with
  | zero =>
      refine ⟨fun _ => rfl, ?_, fun i hi => absurd hi (Nat.not_lt_zero i)⟩
      intro i hi
      obtain rfl := Nat.le_zero.mp hi
      exact hfirst
  | succ k ih =>
      obtain ⟨hpower, hbegin, hfinish⟩ := ih
      rw [List.range_succ, List.foldl_append, List.foldl_cons, List.foldl_nil]
      generalize (List.range k).foldl (divTurn (last - first + 1) last) s = t at *
      have hcut : min (truncate ((t k).begin + (t k).power * (last - first + 1 : Int))) last + 1 =
          cut (fun i => (s i).power) first last (k + 1) := by
        rw [hbegin k (le_refl k), hpower k]
        rfl
      have hmin : ∀ x : Int, (if x > last then last else x) = min x last := by
        intro x
        split <;> omega
      refine ⟨?_, ?_, ?_⟩
      · intro i
        rw [← hpower i]
        unfold divTurn
        by_cases hk : i = k
        · subst hk
          simp
        · by_cases hk' : i = k + 1
          · subst hk'
            simp
          · simp [hk, hk']
      · intro i hi
        unfold divTurn
        by_cases hk' : i = k + 1
        · subst hk'
          simp only [Function.update_self, hmin]
          exact hcut
        · rw [Function.update_of_ne hk', ← hbegin i (by omega)]
          by_cases hk : i = k
          · subst hk
            simp
          · simp [hk]
      · intro i hi
        unfold divTurn
        rw [Function.update_of_ne (by omega)]
        by_cases hk : i = k
        · subst hk
          simp only [Function.update_self, hmin]
          exact hcut
        · rw [Function.update_of_ne hk]
          exact hfinish i (by omega)

variable {cfg : Setting} {l : LoadState}

/-- The loop starts with the powers the host knows. -/
theorem power_start (i : Nat) :
    (Function.update l.loadstat 0 { l.loadstat 0 with begin := first } i).power =
      (l.loadstat i).power := by
  by_cases hi : i = 0
  · simp [hi]
  · simp [hi]

theorem divide_begin {i : Nat} (hi : i < cfg.hostc) :
    (divide cfg l first last i).begin = cut (fun i => (l.loadstat i).power) first last i := by
  have hloop := (@foldl_divTurn first last
    (Function.update l.loadstat 0 { l.loadstat 0 with begin := first }) (by simp)
    (cfg.hostc - 1)).2.1 i (by omega)
  simp only [power_start] at hloop
  unfold divide
  by_cases hlast : i = cfg.hostc - 1
  · rw [← hlast] at hloop ⊢
    simpa using hloop
  · rw [Function.update_of_ne hlast]
    exact hloop

theorem divide_finish {i : Nat} (hi : i + 1 < cfg.hostc) :
    (divide cfg l first last i).finish + 1 =
      cut (fun i => (l.loadstat i).power) first last (i + 1) := by
  have hloop := (@foldl_divTurn first last
    (Function.update l.loadstat 0 { l.loadstat 0 with begin := first }) (by simp)
    (cfg.hostc - 1)).2.2 i (by omega)
  simp only [power_start] at hloop
  unfold divide
  rw [Function.update_of_ne (by omega)]
  exact hloop

theorem divide_last : (divide cfg l first last (cfg.hostc - 1)).finish = last := by
  unfold divide
  simp

end Loop

/-! ## The division -/

/-- All hosts know the same powers. -/
structure KnownEqually (cfg : Setting) (l : Nat → LoadState) (power : Nat → ℚ) : Prop where
  firsttime : ∀ pid < cfg.hostc, (l pid).firsttime = (l 0).firsttime
  power : ∀ pid < cfg.hostc, ∀ i < cfg.hostc, ((l pid).loadstat i).power = power i

/-- The hosts' ranges are the range from `first` to `last`, cut into pieces. -/
structure Divided (hostc : Nat) (first last : Int) (range : Nat → Int × Int) : Prop where
  starts : (range 0).1 = first
  ends : (range (hostc - 1)).2 = last
  succ : ∀ pid, pid + 1 < hostc → (range (pid + 1)).1 = (range pid).2 + 1
  disjoint : ∀ i < hostc, ∀ j < hostc, i ≠ j →
    Disjoint (Set.Icc (range i).1 (range i).2) (Set.Icc (range j).1 (range j).2)
  cover : ∀ x, (∃ pid < hostc, x ∈ Set.Icc (range pid).1 (range pid).2) ↔ x ∈ Set.Icc first last

/-- What makes consecutive ranges a division. -/
theorem Divided.of_consecutive {hostc : Nat} {first last : Int} {range : Nat → Int × Int}
    (hhost : 0 < hostc)
    (h : Ranges.Consecutive hostc (fun i => (range i).1) (fun i => (range i).2))
    (hfirst : (range 0).1 = first) (hlast : (range (hostc - 1)).2 = last) :
    Divided hostc first last range where
  starts := hfirst
  ends := hlast
  succ := h.succ
  disjoint _ hi _ hj hne := h.disjoint hi hj hne
  cover x := by
    rw [← hfirst, ← hlast]
    exact h.mem_iff hhost x

section Divtask

variable {cfg : Setting} {first last : Int} {l : Nat → LoadState} {power : Nat → ℚ}

/-- A LOADGRANT tells all hosts the same powers. -/
theorem knownEqually_loadgrantserver (h : KnownEqually cfg l power) (data : Nat → ℚ) :
    KnownEqually cfg (fun pid => loadgrantserver cfg (l pid) data) data where
  firsttime := h.firsttime
  power pid _ i hi := by simp [loadgrantserver, hi]

/-- After the first call the hosts still know the same powers, and they are not negative. -/
theorem knownEqually_firstLoad (h : KnownEqually cfg l power)
    (hpower : ∀ i < cfg.hostc, 0 ≤ power i) :
    ∃ power', KnownEqually cfg (fun pid => firstLoad cfg (l pid)) power' ∧
      ∀ i < cfg.hostc, 0 ≤ power' i := by
  by_cases hfirst : (l 0).firsttime = true
  · refine ⟨fun _ => 1 / cfg.hostc, ⟨?_, ?_⟩, ?_⟩
    · intro pid hpid
      simp [firstLoad, h.firsttime pid hpid, hfirst]
    · intro pid hpid i hi
      simp [firstLoad, h.firsttime pid hpid, hfirst, hi]
    · intro i hi
      positivity
  · have hsame : ∀ pid < cfg.hostc, firstLoad cfg (l pid) = l pid := by
      intro pid hpid
      unfold firstLoad
      rw [h.firsttime pid hpid, if_neg hfirst]
    refine ⟨power, ⟨?_, ?_⟩, hpower⟩
    · intro pid hpid
      show (firstLoad cfg (l pid)).firsttime = (firstLoad cfg (l 0)).firsttime
      rw [hsame pid hpid, hsame 0 (by omega)]
      exact h.firsttime pid hpid
    · intro pid hpid i hi
      show ((firstLoad cfg (l pid)).loadstat i).power = power i
      rw [hsame pid hpid]
      exact h.power pid hpid i hi

/-- The ranges by the powers, each as its own host computes it. -/
theorem divide_divided (hhost : 0 < cfg.hostc) (hle : first ≤ last + 1)
    (h : KnownEqually cfg l power) (hpower : ∀ i < cfg.hostc, 0 ≤ power i) :
    Divided cfg.hostc first last fun pid =>
      ((divide cfg (l pid) first last pid).begin, (divide cfg (l pid) first last pid).finish) := by
  have hbegin : ∀ pid < cfg.hostc,
      (divide cfg (l pid) first last pid).begin = cut power first last pid := by
    intro pid hpid
    rw [divide_begin hpid]
    exact cut_congr fun i hi => h.power pid hpid i (by omega)
  have hfinish : ∀ pid, pid + 1 < cfg.hostc →
      (divide cfg (l pid) first last pid).finish + 1 = cut power first last (pid + 1) := by
    intro pid hpid
    rw [divide_finish hpid]
    exact cut_congr fun i hi => h.power pid (by omega) i (by omega)
  apply Divided.of_consecutive hhost
  · constructor
    · intro pid hpid
      show (divide cfg (l pid) first last pid).begin ≤
        (divide cfg (l pid) first last pid).finish + 1
      rw [hbegin pid hpid]
      by_cases hlast : pid = cfg.hostc - 1
      · rw [hlast, divide_last]
        exact cut_le hle _
      · rw [hfinish pid (by omega)]
        exact cut_le_succ hle (hpower pid hpid)
    · intro pid hpid
      show (divide cfg (l (pid + 1)) first last (pid + 1)).begin =
        (divide cfg (l pid) first last pid).finish + 1
      rw [hbegin (pid + 1) hpid, hfinish pid hpid]
  · exact hbegin 0 hhost
  · exact divide_last

/-- Equal parts, the rest for the last host. -/
theorem parts_divided (hhost : 0 < cfg.hostc) (hle : first ≤ last + 1) :
    Divided cfg.hostc first last fun pid =>
      (first + (last - first + 1).tdiv cfg.hostc * pid,
        if pid = cfg.hostc - 1 then last
        else first + (last - first + 1).tdiv cfg.hostc * pid +
          (last - first + 1).tdiv cfg.hostc - 1) := by
  have hpart : 0 ≤ (last - first + 1).tdiv cfg.hostc := Int.tdiv_nonneg (by omega) (by omega)
  have hwhole : (last - first + 1).tdiv cfg.hostc * cfg.hostc ≤ last - first + 1 := by
    rw [Int.tdiv_eq_ediv_of_nonneg (by omega)]
    exact Int.ediv_mul_le _ (by omega)
  generalize (last - first + 1).tdiv cfg.hostc = part at *
  apply Divided.of_consecutive hhost
  · constructor
    · intro pid hpid
      by_cases hlast : pid = cfg.hostc - 1
      · have hcast : (pid : Int) + 1 = cfg.hostc := by omega
        have hsum : part * pid + part ≤ last - first + 1 := by
          calc
            part * pid + part = part * (pid + 1) := by ring
            _ = part * cfg.hostc := by rw [hcast]
            _ ≤ last - first + 1 := hwhole
        simp only [hlast, if_true] at *
        omega
      · simp only [if_neg hlast]
        omega
    · intro pid hpid
      have hlast : pid ≠ cfg.hostc - 1 := by omega
      simp only [if_neg hlast]
      push_cast
      ring
  · simp
  · simp

/-- The ranges that `jia_divtask` gives the hosts follow each other, have no iteration in
common and are together the range it was called with, by equal parts and by the powers. -/
theorem jiaDivtask_divided (hhost : 0 < cfg.hostc) (hle : first ≤ last + 1)
    (hload : cfg.loadBal = true →
      ∃ power, KnownEqually cfg l power ∧ ∀ i < cfg.hostc, 0 ≤ power i) :
    Divided cfg.hostc first last fun pid => (jiaDivtask cfg pid (l pid) first last).2 := by
  by_cases hone : cfg.hostc = 1
  · simp only [jiaDivtask, if_pos hone]
    apply Divided.of_consecutive hhost
    · constructor
      · exact fun _ _ => hle
      · intro i hi
        omega
    · rfl
    · rfl
  · by_cases hbal : cfg.loadBal = true
    · obtain ⟨power, hknown, hpower⟩ := hload hbal
      obtain ⟨power', hknown', hpower'⟩ := knownEqually_firstLoad hknown hpower
      simp only [jiaDivtask, if_neg hone, hbal, if_true]
      exact divide_divided hhost hle hknown' hpower'
    · simp only [jiaDivtask, if_neg hone, hbal]
      exact parts_divided hhost hle

end Divtask

/-- Three hosts of different powers, before the second division. -/
def threePowers : LoadState :=
  ⟨fun i => ⟨if i = 0 then 1 / 2 else if i = 1 then 0 else 2 / 3, 0, 0⟩, false⟩

example : (List.range 3).map (fun pid => (jiaDivtask ⟨3, true⟩ pid threePowers (-5) 4).2) =
    [(-5, 0), (1, 1), (2, 4)] := by decide +kernel

theorem jiaDivtask_divided_threePowers :
    Divided 3 (-5) 4 fun pid => (jiaDivtask ⟨3, true⟩ pid threePowers (-5) 4).2 := by
  have hpower : ∀ i < 3, 0 ≤ (threePowers.loadstat i).power := by decide +kernel
  have hknown : KnownEqually ⟨3, true⟩ (fun _ => threePowers)
      fun i => (threePowers.loadstat i).power := ⟨fun _ _ => rfl, fun _ _ _ _ => rfl⟩
  exact @jiaDivtask_divided ⟨3, true⟩ (-5) 4 (fun _ => threePowers) (by decide) (by decide)
    fun _ => ⟨_, hknown, hpower⟩

end Jiajia.Load
