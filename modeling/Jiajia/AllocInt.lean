import Jiajia.Alloc
import Jiajia.Lib.Transition
import Mathlib.Algebra.BigOperators.Ring.Finset

/-!
# Allocation with any arguments

`jia_alloc3` and `jia_alloc4` once more, for arguments that need not be sizes: an
`int` can be 0 or negative, and what is computed from it need not be an `int`.
-/

namespace Jiajia.AllocInt

open Alloc (Setting Homesize addOrigin)

/-- The values of an `int`. -/
def IsInt (x : Int) : Prop := -2 ^ 31 ≤ x ∧ x < 2 ^ 31

instance (x : Int) : Decidable (IsInt x) := inferInstanceAs (Decidable (_ ∧ _))

/-- The result of an operation on `int`s; overflow has no defined behaviour. -/
def int (x : Int) : Result Int := do
  defined (IsInt x) "int overflow"
  return x

/-- `unsigned long` plus `int` -/
def addLong (a : BitVec 64) (i : Int) : BitVec 64 := a + BitVec.ofInt 64 i

/-- `globaladdr`, the `homesize` of every host, `homei` and `homepid` of `page[]`, `addr`
of `home[]`, and the mappings. -/
structure Tables where
  globaladdr : BitVec 64
  homesize : Nat → Int
  homei : Nat → Nat
  homepid : Nat → Nat
  homeAddr : Nat → BitVec 64
  prot : Nat → Prot

/-- The tables after `initmem`. -/
def initTables : Tables where
  globaladdr := 0
  homesize _ := 0
  homei _ := Homepages
  homepid _ := Maxhosts
  homeAddr _ := 0
  prot _ := .unmapped

/-- The value of `ALIGN2PAGE(size)`; a negative size is rounded up. -/
def aligned (size : Int) : Int :=
  if size.tmod Pagesize = 0 then size else (size.tdiv Pagesize + 1) * Pagesize

/-- `ALIGN2PAGE(size)` -/
def align2page (size : Int) : Result Int := int (aligned size)

variable (cfg : Setting) (pid : Nat)

/-! ## One block -/

/-- `pagei` for the page `i` bytes into a block; the quotient is stored in an `int`. -/
def pageIndex (s : Tables) (i : Nat) : Int :=
  (BitVec.ofNat 32 ((addLong s.globaladdr i).toNat / Pagesize)).toInt

/-- `homei` for the page `i` bytes into a block. -/
def homeIndex (s : Tables) (homepid i : Nat) : Int := (s.homesize homepid + i).tdiv Pagesize

/-- `k` turns of the loop over the home entries of a block, from `i` on. -/
def homeLoop (homepid : Nat) : Nat → Nat → Tables → Result Tables
  | 0, _, s => .ok s
  | k + 1, i, s => do
      let pagei := pageIndex s i
      let homei := homeIndex s homepid i
      defined (0 ≤ homei ∧ homei < Homepages) "home[] out of range"
      defined (0 ≤ pagei ∧ pagei < Maxmempages) "page[] out of range"
      homeLoop homepid k (i + Pagesize) { s with
        homeAddr := upd s.homeAddr homei.toNat (addLong (BitVec.ofNat 64 cfg.gstart + s.globaladdr) i)
        homei := upd s.homei pagei.toNat homei.toNat }

/-- `k` turns of the loop over the pages of a block, from `i` on. -/
def pageLoop (homepid : Nat) : Nat → Nat → Tables → Result Tables
  | 0, _, s => .ok s
  | k + 1, i, s => do
      let pagei := pageIndex s i
      defined (0 ≤ pagei ∧ pagei < Maxmempages) "page[] out of range"
      pageLoop homepid k (i + Pagesize) { s with homepid := upd s.homepid pagei.toNat homepid }

/-- The mappings after a `memmap` at `globaladdr`. -/
def mapBlock (mapsize : Int) (s : Tables) : Tables :=
  { s with
    prot := fun p =>
      if s.globaladdr.toNat ≤ p * Pagesize ∧
          (p * Pagesize : Int) < s.globaladdr.toNat + mapsize then
        if cfg.hostc = 1 then .readWrite else .read
      else s.prot p }

/-- `memmap` at `globaladdr`.  `mmap` fails for length 0, and for a negative length, which as
a `size_t` is longer than the address space. -/
def memmap (mapsize : Int) (s : Tables) : Result Tables := do
  jiaAssert (0 < mapsize) "mmap failed!"
  return mapBlock cfg mapsize s

/-- The turns of `for (i = 0; i < mapsize; i += Pagesize)` for a multiple of `Pagesize`. -/
def turns (mapsize : Int) : Nat := (mapsize / Pagesize).toNat

/-- What only the owner of a block does. -/
def ownBlock (homepid : Nat) (mapsize : Int) (s : Tables) : Result Tables :=
  if pid = homepid then do
    let size ← int (s.homesize homepid + mapsize)
    jiaAssert (size < Homesize) "Too many home pages"
    let s ← memmap cfg mapsize s
    homeLoop cfg homepid (turns mapsize) 0 s
  else .ok s

/-- One turn of the outer loop on host `pid`. -/
def allocBlock (homepid : Nat) (mapsize : Int) (s : Tables) : Result Tables := do
  let s ← ownBlock cfg pid homepid mapsize s
  let s ← pageLoop homepid (turns mapsize) 0 s
  let size ← int (s.homesize homepid + mapsize)
  return { s with
    homesize := upd s.homesize homepid size
    globaladdr := addLong s.globaladdr mapsize }

/-! ## The calls -/

/-- At most `fuel` turns of the outer loop; it is blocked when they do not suffice.
`mapsizes` gives the block sizes and `n` their number. -/
def allocLoop (mapsizes : Nat → Result Int) (n : Nat) :
    Nat → Int → Nat → Nat → Tables → Result Tables
  | 0, allocsize, _, _, s => if 0 < allocsize then .error .blocked else .ok s
  | fuel + 1, allocsize, homepid, blocki, s =>
      if 0 < allocsize then do
        let mapsize ← mapsizes blocki
        let s ← allocBlock cfg pid homepid mapsize s
        let allocsize ← int (allocsize - mapsize)
        let homepid := (homepid + 1) % cfg.hostc
        let blocki := if homepid = 0 then (blocki + 1) % n else blocki
        allocLoop mapsizes n fuel allocsize homepid blocki s
      else .ok s

/-- What `jia_alloc3` and `jia_alloc4` share. -/
def allocate (fuel : Nat) (totalsize : Int) (mapsizes : Result (Nat → Result Int))
    (n starthost : Nat) (s : Tables) : Result (Tables × Nat) := do
  jiaAssert ((addLong s.globaladdr totalsize).toNat ≤ Maxmemsize) "Insufficient shared space!"
  let originaddr := (s.globaladdr.truncate 32).toInt
  let allocsize ← align2page totalsize
  let mapsizes ← mapsizes
  let s ← allocLoop cfg pid mapsizes n fuel allocsize starthost 0 s
  return (s, addOrigin cfg.gstart originaddr)

/-- `mapsize` of `jia_alloc3`, found once before the loop. -/
def oneSize (blocksize : Int) : Result (Nat → Result Int) := do
  let mapsize ← align2page blocksize
  return fun _ => .ok mapsize

/-- `mapsize` of `jia_alloc4`, found in each turn. -/
def arraySize (blocks : List Int) (blocki : Nat) : Result Int := do
  defined (blocki < blocks.length) "blocks[] out of range"
  align2page (blocks.getD blocki 0)

def jiaAlloc3 (fuel : Nat) (totalsize blocksize : Int) (starthost : Nat) (s : Tables) :
    Result (Tables × Nat) :=
  allocate cfg pid fuel totalsize (oneSize blocksize) 1 starthost s

def jiaAlloc4 (fuel : Nat) (totalsize : Int) (blocks : List Int) (starthost : Nat) (s : Tables) :
    Result (Tables × Nat) :=
  allocate cfg pid fuel totalsize (.ok (arraySize blocks)) blocks.length starthost s

/-- A call of `jia_alloc3` or `jia_alloc4`. -/
inductive Call
  | alloc3 (totalsize blocksize : Int) (starthost : Nat)
  | alloc4 (totalsize : Int) (blocks : List Int) (starthost : Nat)
deriving DecidableEq, Repr

namespace Call

def totalsize : Call → Int
  | alloc3 t _ _ => t
  | alloc4 t _ _ => t

/-- The sizes the call goes through, a round over the hosts with each. -/
def blocks : Call → List Int
  | alloc3 _ b _ => [b]
  | alloc4 _ bs _ => bs

def starthost : Call → Nat
  | alloc3 _ _ h => h
  | alloc4 _ _ h => h

def exec (fuel : Nat) (c : Call) (s : Tables) : Result (Tables × Nat) :=
  match c with
  | alloc3 t b h => jiaAlloc3 cfg pid fuel t b h s
  | alloc4 t bs h => jiaAlloc4 cfg pid fuel t bs h s

end Call

/-- The owner's assert in `jia_alloc_array`. -/
def arrayRoom (homepid : Nat) (mapsize : Int) (s : Tables) : Result Unit :=
  if pid = homepid then do
    let size ← int (s.homesize homepid + mapsize)
    jiaAssert (size < Homesize) "Too many home pages"
  else .ok ()

/-- One turn of the outer loop of `jia_alloc_array`, which maps every block. -/
def arrayBlock (homepid : Nat) (mapsize : Int) (s : Tables) : Result Tables := do
  arrayRoom pid homepid mapsize s
  let s ← memmap cfg mapsize s
  let s ← pageLoop homepid (turns mapsize) 0 s
  let size ← int (s.homesize homepid + mapsize)
  return { s with
    homesize := upd s.homesize homepid size
    globaladdr := addLong s.globaladdr mapsize }

/-- The outer loop of `jia_alloc_array`.  The loop over the pages counts with `i` too, and
leaves it at `mapsize`. -/
def arrayLoop (array : List Int) : Nat → Int → Nat → Nat → Tables → Result Tables
  | 0, allocsize, _, _, s => if 0 < allocsize then .error .blocked else .ok s
  | fuel + 1, allocsize, homepid, i, s =>
      if 0 < allocsize then do
        let mapsize ← align2page (array.getD i 0)
        let s ← arrayBlock cfg pid homepid mapsize s
        let allocsize ← int (allocsize - mapsize)
        arrayLoop array fuel allocsize ((homepid + 1) % cfg.hostc)
          ((mapsize.toNat + 1) % array.length) s
      else .ok s

def jiaAllocArray (fuel : Nat) (totalsize : Int) (array : List Int) (s : Tables) :
    Result (Tables × Nat) := do
  jiaAssert ((addLong s.globaladdr totalsize).toNat ≤ Maxmemsize) "Insufficient shared space!"
  jiaAssert (0 < array.length ∧ array.length ≤ cfg.hostc)
    "Error parameter n provided on jia_alloc_array call"
  let originaddr := (s.globaladdr.truncate 32).toInt
  let allocsize ← align2page totalsize
  let s ← arrayLoop cfg pid array fuel allocsize 0 0 s
  return (s, addOrigin cfg.gstart originaddr)

/-! ## Sizes and numbers -/

theorem int_eq_ok {x y : Int} : int x = .ok y ↔ IsInt x ∧ y = x := by
  simp only [int, bind_eq_ok, defined_eq_ok, pure, Except.pure, Except.ok.injEq]
  constructor
  · rintro ⟨-, hx, rfl⟩
    exact ⟨hx, rfl⟩
  · rintro ⟨hx, rfl⟩
    exact ⟨(), hx, rfl⟩

theorem int_overflow {x : Int} (h : ¬ IsInt x) : int x = .error (.undefined "int overflow") := by
  rw [int, defined, if_neg h]
  rfl

theorem aligned_dvd (x : Int) : (Pagesize : Int) ∣ aligned x := by
  unfold aligned
  split
  · rename_i hmod
    exact Int.dvd_of_tmod_eq_zero hmod
  · exact Dvd.intro_left _ rfl

theorem le_aligned {x : Int} (h : 0 < x) : x ≤ aligned x := by
  unfold aligned
  split
  · exact le_refl x
  · rw [Int.tdiv_eq_ediv_of_nonneg h.le]
    simp only [Pagesize]
    omega

theorem toNat_ofInt {x : Int} (h : 0 ≤ x) (hlt : x < 2 ^ 64) : (BitVec.ofInt 64 x).toNat = x.toNat := by
  have hmod : x % (2 ^ 64 : Nat) = x := Int.emod_eq_of_lt h (by omega)
  rw [BitVec.toNat_ofInt, hmod]

theorem addLong_ofInt (x i : Int) : addLong (BitVec.ofInt 64 x) i = BitVec.ofInt 64 (x + i) := by
  rw [addLong, BitVec.ofInt_add]

variable {cfg : Setting} {pid : Nat} {s s' : Tables}

theorem pageIndex_eq {x : Int} (hg : s.globaladdr = BitVec.ofInt 64 x) {i : Nat}
    (h0 : 0 ≤ x + i) (hlt : x + i < 2 ^ 42) : pageIndex s i = (x + i) / Pagesize := by
  have hbig : x + i < 2 ^ 64 := by omega
  have hsmall : (x + i).toNat / Pagesize < 2 ^ 30 := by
    simp only [Pagesize]
    omega
  rw [pageIndex, hg, addLong_ofInt, toNat_ofInt h0 hbig]
  generalize hn : (x + i).toNat / Pagesize = n at hsmall ⊢
  rw [BitVec.toInt_ofNat', Int.bmod_eq_of_le (by omega) (by omega)]
  simp only [Pagesize] at hn ⊢
  omega

theorem pageIndex_neg {x : Int} (hg : s.globaladdr = BitVec.ofInt 64 x) (h0 : x < 0)
    (hlow : -2 ^ 36 ≤ x) : pageIndex s 0 < 0 := by
  have hmod : x % 2 ^ 64 = x + 2 ^ 64 := by omega
  have hnat : (BitVec.ofInt 64 x).toNat = (x + 2 ^ 64).toNat := by
    rw [BitVec.toNat_ofInt]
    exact congrArg Int.toNat hmod
  rw [pageIndex, hg, addLong_ofInt, Nat.cast_zero, Int.add_zero, hnat, BitVec.toInt_ofNat',
    Int.bmod_def]
  simp only [Pagesize]
  split <;> omega

/-! ## The loops over the pages of a block -/

/-- Page `j` of a block that starts with page `g`. -/
theorem pageIndex_block {g : Nat} (hg : s.globaladdr = BitVec.ofInt 64 (Pagesize * g : Nat))
    {j : Nat} (hlt : g + j ≤ Maxmempages) : pageIndex s (Pagesize * j) = (g + j : Nat) := by
  rw [pageIndex_eq hg (by omega)]
  · simp only [Pagesize]
    omega
  · simp only [Pagesize, Maxmempages, Maxmemsize] at *
    omega

theorem pageLoop_spec {o g k j : Nat} (hg : s.globaladdr = BitVec.ofInt 64 (Pagesize * g : Nat))
    (hlt : g + j + k ≤ Maxmempages) : pageLoop o k (Pagesize * j) s = .ok { s with
      homepid := fun p => if g + j ≤ p ∧ p < g + j + k then o else s.homepid p } := by
  induction k generalizing s j with
  | zero =>
      have hnone : (fun p => if g + j ≤ p ∧ p < g + j + 0 then o else s.homepid p) = s.homepid := by
        funext p
        rw [if_neg (by omega)]
      rw [pageLoop, hnone]
  | succ k ih =>
      have hidx := pageIndex_block hg (by omega : g + j ≤ Maxmempages)
      have hin : (0 : Int) ≤ (g + j : Nat) ∧ ((g + j : Nat) : Int) < Maxmempages := by omega
      have hnext : Pagesize * j + Pagesize = Pagesize * (j + 1) := rfl
      rw [pageLoop, hidx, defined, if_pos hin, hnext]
      show pageLoop o k (Pagesize * (j + 1)) _ = _
      rw [ih (by exact hg) (by omega)]
      congr 2
      funext p
      simp only [Int.toNat_natCast, upd_apply]
      by_cases hp : p = g + j
      · rw [if_neg (by omega), if_pos hp, if_pos (by omega)]
      · rw [if_neg hp]
        have hiff : (g + (j + 1) ≤ p ∧ p < g + (j + 1) + k) ↔ (g + j ≤ p ∧ p < g + j + (k + 1)) := by
          omega
        simp only [hiff]

theorem homeLoop_spec {o g b k j : Nat}
    (hg : s.globaladdr = BitVec.ofInt 64 (Pagesize * g : Nat))
    (hb : s.homesize o = (Pagesize * b : Nat)) (hlt : g + j + k ≤ Maxmempages)
    (hroom : b + j + k ≤ Homepages) : homeLoop cfg o k (Pagesize * j) s = .ok { s with
      homei := fun p => if g + j ≤ p ∧ p < g + j + k then b + (p - g) else s.homei p
      homeAddr := fun i => if b + j ≤ i ∧ i < b + j + k then
        BitVec.ofNat 64 (cfg.gstart + Pagesize * (g + (i - b))) else s.homeAddr i } := by
  induction k generalizing s j with
  | zero =>
      have hpages : (fun p => if g + j ≤ p ∧ p < g + j + 0 then b + (p - g) else s.homei p) =
          s.homei := by
        funext p
        rw [if_neg (by omega)]
      have hentries : (fun i => if b + j ≤ i ∧ i < b + j + 0 then
          BitVec.ofNat 64 (cfg.gstart + Pagesize * (g + (i - b))) else s.homeAddr i) =
          s.homeAddr := by
        funext i
        rw [if_neg (by omega)]
      rw [homeLoop, hpages, hentries]
  | succ k ih =>
      have hidx := pageIndex_block hg (by omega : g + j ≤ Maxmempages)
      have hin : (0 : Int) ≤ (g + j : Nat) ∧ ((g + j : Nat) : Int) < Maxmempages := by omega
      have hhome : homeIndex s o (Pagesize * j) = (b + j : Nat) := by
        rw [homeIndex, hb, Int.tdiv_eq_ediv_of_nonneg (by omega)]
        simp only [Pagesize]
        omega
      have hhomein : (0 : Int) ≤ (b + j : Nat) ∧ ((b + j : Nat) : Int) < Homepages := by omega
      have hnext : Pagesize * j + Pagesize = Pagesize * (j + 1) := rfl
      have haddr : addLong (BitVec.ofNat 64 cfg.gstart + s.globaladdr) (Pagesize * j : Nat) =
          BitVec.ofNat 64 (cfg.gstart + Pagesize * (g + j)) := by
        rw [hg, addLong, BitVec.ofInt_natCast, BitVec.ofInt_natCast, ← BitVec.ofNat_add,
          ← BitVec.ofNat_add, Nat.add_assoc, ← Nat.mul_add]
      rw [homeLoop, hidx, hhome, defined, if_pos hhomein, defined, if_pos hin, hnext]
      show homeLoop cfg o k (Pagesize * (j + 1)) _ = _
      rw [ih (by exact hg) (by exact hb) (by omega) (by omega)]
      congr 2
      · funext p
        simp only [Int.toNat_natCast, upd_apply]
        by_cases hp : p = g + j
        · rw [if_neg (by omega), if_pos hp, if_pos (by omega)]
          omega
        · rw [if_neg hp]
          have hiff : (g + (j + 1) ≤ p ∧ p < g + (j + 1) + k) ↔
              (g + j ≤ p ∧ p < g + j + (k + 1)) := by omega
          simp only [hiff]
      · funext i
        simp only [Int.toNat_natCast, upd_apply]
        by_cases hi : i = b + j
        · have hij : i - b = j := by omega
          rw [if_neg (by omega), if_pos hi, if_pos (by omega), hij]
          exact haddr
        · rw [if_neg hi]
          have hiff : (b + (j + 1) ≤ i ∧ i < b + (j + 1) + k) ↔
              (b + j ≤ i ∧ i < b + j + (k + 1)) := by omega
          simp only [hiff]

/-- A page before `page[]` stops the loop. -/
theorem pageLoop_neg {o k : Nat} (hidx : pageIndex s 0 < 0) :
    pageLoop o (k + 1) 0 s = .error (.undefined "page[] out of range") := by
  have hout : ¬ (0 ≤ pageIndex s 0 ∧ pageIndex s 0 < Maxmempages) := by omega
  rw [pageLoop, defined, if_neg hout]
  rfl

theorem homeLoop_neg {o k : Nat} (hidx : pageIndex s 0 < 0) :
    ∃ what, homeLoop cfg o (k + 1) 0 s = .error (.undefined what) := by
  have hout : ¬ (0 ≤ pageIndex s 0 ∧ pageIndex s 0 < Maxmempages) := by omega
  by_cases hhome : 0 ≤ homeIndex s o 0 ∧ homeIndex s o 0 < Homepages
  · refine ⟨"page[] out of range", ?_⟩
    rw [homeLoop, defined, if_pos hhome, defined, if_neg hout]
    rfl
  · refine ⟨"home[] out of range", ?_⟩
    rw [homeLoop, defined, if_neg hhome]
    rfl

/-- The loop over the pages ends, or leaves `page[]`. -/
theorem pageLoop_cases {o k i : Nat} :
    (∃ what, pageLoop o k i s = .error (.undefined what)) ∨
      ∃ s', pageLoop o k i s = .ok s' ∧ s'.homesize = s.homesize ∧
        s'.globaladdr = s.globaladdr := by
  induction k generalizing s i with
  | zero => exact .inr ⟨s, rfl, rfl, rfl⟩
  | succ k ih =>
      rw [pageLoop, defined]
      split
      · exact ih
      · exact .inl ⟨_, rfl⟩

/-! ## States -/

/-- The home bytes of all hosts. -/
def total (hostc : Nat) (s : Tables) : Int := ∑ h ∈ Finset.range hostc, s.homesize h

/-- All blocks so far count in `globaladdr` and in `homesize`, in whole pages, and the host's
own ones are within its home table. -/
structure StateOk (cfg : Setting) (pid : Nat) (s : Tables) : Prop where
  int : ∀ h, IsInt (s.homesize h)
  dvd : ∀ h, (Pagesize : Int) ∣ s.homesize h
  own : 0 ≤ s.homesize pid ∧ s.homesize pid < Homesize
  globaladdr : s.globaladdr = BitVec.ofInt 64 (total cfg.hostc s)

theorem stateOk_init : StateOk cfg pid initTables where
  int _ := by
    show IsInt 0
    decide
  dvd _ := ⟨0, rfl⟩
  own := by
    show (0 : Int) ≤ 0 ∧ (0 : Int) < Homesize
    decide
  globaladdr := by
    simp [initTables, total]

theorem sum_upd {hostc h : Nat} (hh : h < hostc) (f : Nat → Int) (v : Int) :
    ∑ j ∈ Finset.range hostc, upd f h v j = ∑ j ∈ Finset.range hostc, f j + (v - f h) := by
  have hsplit : ∀ j, upd f h v j = f j + if j = h then v - f h else 0 := by
    intro j
    rw [upd_apply]
    split
    · rename_i hj
      rw [hj]
      omega
    · omega
  simp only [hsplit]
  rw [Finset.sum_add_distrib, Finset.sum_ite_eq', if_pos (Finset.mem_range.mpr hh)]

theorem sum_bounds {hostc : Nat} (hc : hostc ≤ Maxhosts) {f : Nat → Int} (hf : ∀ h, IsInt (f h)) :
    -2 ^ 35 ≤ ∑ h ∈ Finset.range hostc, f h ∧ ∑ h ∈ Finset.range hostc, f h < 2 ^ 35 := by
  have hlow : (Finset.range hostc).card • (-2 ^ 31 : Int) ≤ ∑ h ∈ Finset.range hostc, f h :=
    Finset.card_nsmul_le_sum _ _ _ fun h _ => (hf h).1
  have hhigh : ∑ h ∈ Finset.range hostc, f h ≤ (Finset.range hostc).card • (2 ^ 31 - 1 : Int) :=
    Finset.sum_le_card_nsmul _ _ _ fun h _ => Int.le_sub_one_of_lt (hf h).2
  rw [Finset.card_range, nsmul_eq_mul] at hlow hhigh
  simp only [Maxhosts] at hc
  omega

theorem StateOk.bounds (hok : StateOk cfg pid s) :
    -2 ^ 35 ≤ total cfg.hostc s ∧ total cfg.hostc s < 2 ^ 35 :=
  sum_bounds cfg.hostc_le hok.int

theorem StateOk.dvd_total (hok : StateOk cfg pid s) : (Pagesize : Int) ∣ total cfg.hostc s :=
  Finset.dvd_sum fun h _ => hok.dvd h

theorem StateOk.toInt (hok : StateOk cfg pid s) : s.globaladdr.toInt = total cfg.hostc s := by
  have hb := hok.bounds
  rw [hok.globaladdr, BitVec.toInt_ofInt, Int.bmod_eq_of_le (by omega) (by omega)]

/-! ## One turn -/

/-- A block of size `z` for host `h` is taken. -/
structure BlockFine (cfg : Setting) (pid h : Nat) (z : Int) (s : Tables) : Prop where
  filled : IsInt (s.homesize h + z)
  page : 0 < z → 0 ≤ total cfg.hostc s
  own : h = pid → 0 < z ∧ s.homesize h + z < Homesize

/-- A block of size `z` for host `h` is refused. -/
structure BlockStops (pid h : Nat) (z : Int) (s : Tables) : Prop where
  own : h = pid
  filled : IsInt (s.homesize h + z)
  refused : z ≤ 0 ∨ Homesize ≤ s.homesize h + z

/-- Page `p` is in the block. -/
def InBlock (hostc : Nat) (z : Int) (s : Tables) (p : Nat) : Prop :=
  total hostc s ≤ Pagesize * p ∧ Pagesize * p < total hostc s + z

instance (hostc : Nat) (z : Int) (p : Nat) : Decidable (InBlock hostc z s p) :=
  inferInstanceAs (Decidable (_ ∧ _))

/-- What a turn does to the tables. -/
structure Filled (cfg : Setting) (pid h : Nat) (z : Int) (s s' : Tables) : Prop where
  homepid : ∀ p, s'.homepid p = if InBlock cfg.hostc z s p then h else s.homepid p
  own : h = pid → ∀ p, InBlock cfg.hostc z s p →
    (Pagesize * s'.homei p : Int) = s.homesize pid + (Pagesize * p - total cfg.hostc s) ∧
      s'.homeAddr (s'.homei p) = BitVec.ofNat 64 (cfg.gstart + Pagesize * p)
  homei : ∀ p, ¬ (h = pid ∧ InBlock cfg.hostc z s p) → s'.homei p = s.homei p
  homeAddr : ∀ i : Nat, (Pagesize * i : Int) < s.homesize pid → s'.homeAddr i = s.homeAddr i

/-- What a turn does. -/
structure BlockDone (cfg : Setting) (pid h : Nat) (z : Int) (s s' : Tables) : Prop
    extends Filled cfg pid h z s s' where
  ok : StateOk cfg pid s'
  homesize : s'.homesize = upd s.homesize h (s.homesize h + z)
  total : total cfg.hostc s' = total cfg.hostc s + z

/-- A block counts in both places. -/
theorem StateOk.add (hok : StateOk cfg pid s) {h : Nat} {z : Int} (hh : h < cfg.hostc)
    (hz : (Pagesize : Int) ∣ z) (hfilled : IsInt (s.homesize h + z))
    (hown : h = pid → 0 < z ∧ s.homesize h + z < Homesize) {s₂ : Tables}
    (hsize : s₂.homesize = s.homesize) (hglobal : s₂.globaladdr = s.globaladdr) :
    StateOk cfg pid { s₂ with
      homesize := upd s₂.homesize h (s.homesize h + z)
      globaladdr := addLong s₂.globaladdr z } ∧
    total cfg.hostc { s₂ with
      homesize := upd s₂.homesize h (s.homesize h + z)
      globaladdr := addLong s₂.globaladdr z } = total cfg.hostc s + z := by
  have htotal : total cfg.hostc { s₂ with
      homesize := upd s₂.homesize h (s.homesize h + z)
      globaladdr := addLong s₂.globaladdr z } = total cfg.hostc s + z := by
    unfold total
    simp only [hsize]
    rw [sum_upd hh]
    omega
  refine ⟨⟨?_, ?_, ?_, ?_⟩, htotal⟩
  · intro j
    simp only [hsize, upd_apply]
    split
    · exact hfilled
    · exact hok.int j
  · intro j
    simp only [hsize, upd_apply]
    split
    · exact Int.dvd_add (hok.dvd h) hz
    · exact hok.dvd j
  · simp only [hsize, upd_apply]
    split
    · rename_i hpid
      have hbefore := hok.own
      have hroom := hown hpid.symm
      rw [hpid] at hbefore
      omega
    · exact hok.own
  · rw [htotal]
    show addLong s₂.globaladdr z = _
    rw [hglobal, hok.globaladdr, addLong_ofInt]

/-- The tables are filled before the sizes are added up. -/
theorem blockDone_of_filled (hok : StateOk cfg pid s) {h : Nat} {z : Int} (hh : h < cfg.hostc)
    (hz : (Pagesize : Int) ∣ z) (hf : BlockFine cfg pid h z s) {s₂ : Tables}
    (hfilled : Filled cfg pid h z s s₂) (hsize : s₂.homesize = s.homesize)
    (hglobal : s₂.globaladdr = s.globaladdr) :
    BlockDone cfg pid h z s { s₂ with
      homesize := upd s₂.homesize h (s.homesize h + z)
      globaladdr := addLong s₂.globaladdr z } := by
  obtain ⟨hok', htotal⟩ := hok.add hh hz hf.filled hf.own hsize hglobal
  refine ⟨⟨hfilled.homepid, hfilled.own, hfilled.homei, hfilled.homeAddr⟩, hok', ?_, htotal⟩
  rw [hsize]

theorem turns_nonpos {z : Int} (hz : z ≤ 0) : turns z = 0 := by
  simp only [turns, Pagesize]
  omega

theorem turns_mul (k : Nat) : turns (Pagesize * k : Nat) = k := by
  simp only [turns, Pagesize]
  omega

/-- The part of the owner. -/
theorem ownBlock_filled {g b k : Nat} (hg : s.globaladdr = BitVec.ofInt 64 (Pagesize * g : Nat))
    (hb : s.homesize pid = (Pagesize * b : Nat)) (hpos : 0 < k) (hlt : g + k ≤ Maxmempages)
    (hroom : b + k < Homepages) : ∃ s₁, ownBlock cfg pid pid (Pagesize * k : Nat) s = .ok s₁ ∧
      s₁.globaladdr = s.globaladdr ∧ s₁.homesize = s.homesize ∧ s₁.homepid = s.homepid ∧
      (∀ p, s₁.homei p = if g ≤ p ∧ p < g + k then b + (p - g) else s.homei p) ∧
      ∀ i, s₁.homeAddr i = if b ≤ i ∧ i < b + k then
        BitVec.ofNat 64 (cfg.gstart + Pagesize * (g + (i - b))) else s.homeAddr i := by
  have hint : IsInt (s.homesize pid + (Pagesize * k : Nat)) := by
    rw [hb]
    unfold IsInt
    simp only [Pagesize, Homepages] at *
    omega
  have hassert : s.homesize pid + (Pagesize * k : Nat) < Homesize := by
    rw [hb]
    simp only [Homesize, Pagesize, Homepages] at *
    omega
  have hpos' : (0 : Int) < (Pagesize * k : Nat) := by
    simp only [Pagesize]
    omega
  have hown : ownBlock cfg pid pid (Pagesize * k : Nat) s =
      homeLoop cfg pid k 0 (mapBlock cfg (Pagesize * k : Nat) s) := by
    rw [ownBlock, if_pos rfl, int_eq_ok.mpr ⟨hint, rfl⟩, turns_mul]
    simp only [bind, Except.bind, jiaAssert, if_pos hassert, memmap, if_pos hpos', pure, Except.pure]
  have hloop := @homeLoop_spec cfg (mapBlock cfg (Pagesize * k : Nat) s) pid g b k 0 hg hb
    (by omega) (by omega)
  rw [hown]
  exact ⟨_, hloop, rfl, rfl, rfl, fun _ => rfl, fun _ => rfl⟩

theorem ownBlock_other {h : Nat} {z : Int} (hpid : h ≠ pid) :
    ownBlock cfg pid h z s = .ok s := if_neg (Ne.symm hpid)

theorem allocBlock_fine (hok : StateOk cfg pid s) {h : Nat} {z : Int} (hh : h < cfg.hostc)
    (hz : (Pagesize : Int) ∣ z) (hf : BlockFine cfg pid h z s) :
    ∃ s', allocBlock cfg pid h z s = .ok s' ∧ BlockDone cfg pid h z s s' := by
  have hsize := int_eq_ok.mpr ⟨hf.filled, rfl⟩
  by_cases hpos : 0 < z
  · -- the block in pages
    obtain ⟨g', hg'⟩ := hok.dvd_total
    obtain ⟨k', hk'⟩ := hz
    obtain ⟨b', hb'⟩ := hok.dvd pid
    have h0 := hf.page hpos
    have hown := hok.own
    have hnew : total cfg.hostc s + z < 2 ^ 35 := by
      have hsum := sum_upd hh s.homesize (s.homesize h + z)
      have hbound := @sum_bounds cfg.hostc cfg.hostc_le (upd s.homesize h (s.homesize h + z))
        fun j => by
          rw [upd_apply]
          split
          · exact hf.filled
          · exact hok.int j
      unfold total
      omega
    obtain ⟨g, rfl⟩ : ∃ g : Nat, g' = g := ⟨g'.toNat, by simp only [Pagesize] at *; omega⟩
    obtain ⟨k, rfl⟩ : ∃ k : Nat, k' = k := ⟨k'.toNat, by simp only [Pagesize] at *; omega⟩
    obtain ⟨b, rfl⟩ : ∃ b : Nat, b' = b := ⟨b'.toNat, by simp only [Pagesize] at *; omega⟩
    have hz : z = (Pagesize * k : Nat) := by rw [hk', Nat.cast_mul]
    have hg : s.globaladdr = BitVec.ofInt 64 (Pagesize * g : Nat) := by
      rw [hok.globaladdr, hg', Nat.cast_mul]
    have hb : s.homesize pid = (Pagesize * b : Nat) := by rw [hb', Nat.cast_mul]
    have hkpos : 0 < k := by
      simp only [Pagesize] at hz
      omega
    have hlt : g + k ≤ Maxmempages := by
      simp only [Maxmempages, Maxmemsize, Pagesize] at *
      omega
    have hblock : ∀ p, InBlock cfg.hostc z s p ↔ g ≤ p ∧ p < g + k := by
      intro p
      unfold InBlock
      rw [hg', hz]
      simp only [Pagesize]
      omega
    -- the part of the owner, if it is this host
    have hpart : ∃ s₁, ownBlock cfg pid h z s = .ok s₁ ∧
        s₁.globaladdr = s.globaladdr ∧ s₁.homesize = s.homesize ∧ s₁.homepid = s.homepid ∧
        (∀ p, s₁.homei p = if h = pid ∧ g ≤ p ∧ p < g + k then b + (p - g) else s.homei p) ∧
        ∀ i, s₁.homeAddr i = if h = pid ∧ b ≤ i ∧ i < b + k then
          BitVec.ofNat 64 (cfg.gstart + Pagesize * (g + (i - b))) else s.homeAddr i := by
      by_cases hpid : h = pid
      · have hroom : b + k < Homepages := by
          have hlt := (hf.own hpid).2
          rw [hpid, hb, hz] at hlt
          simp only [Homesize, Pagesize, Homepages] at *
          omega
        obtain ⟨s₁, hdone, hrest⟩ := @ownBlock_filled cfg pid s g b k hg hb hkpos hlt hroom
        refine ⟨s₁, ?_, ?_⟩
        · rw [hpid, hz]
          exact hdone
        · simpa only [hpid, true_and] using hrest
      · refine ⟨s, ownBlock_other hpid, rfl, rfl, rfl, ?_, ?_⟩
        · intro p
          rw [if_neg fun hcon => hpid hcon.1]
        · intro i
          rw [if_neg fun hcon => hpid hcon.1]
    obtain ⟨s₁, hpart, hglobal, hsizes, hpids, hhomei, haddr⟩ := hpart
    have hloop := @pageLoop_spec s₁ h g k 0 (hglobal.trans hg) (by omega)
    have hfilled : Filled cfg pid h z s { s₁ with
        homepid := fun p => if g + 0 ≤ p ∧ p < g + 0 + k then h else s₁.homepid p } := by
      constructor
      · intro p
        simp only [hblock, hpids, Nat.add_zero]
      · intro hpid p hin
        rw [hblock] at hin
        have hidx : s₁.homei p = b + (p - g) := by rw [hhomei, if_pos ⟨hpid, hin⟩]
        simp only [hidx]
        constructor
        · rw [hb, hg']
          simp only [Pagesize]
          omega
        · rw [haddr, if_pos ⟨hpid, by omega⟩]
          congr 3
          omega
      · intro p hout
        rw [hblock] at hout
        simp only [hhomei, if_neg hout]
      · intro i hi
        rw [hb] at hi
        have hout : ¬ (h = pid ∧ b ≤ i ∧ i < b + k) := by
          simp only [Pagesize] at hi
          omega
        simp only [haddr, if_neg hout]
    refine ⟨_, ?_, blockDone_of_filled hok hh (hk' ▸ Dvd.intro _ rfl) hf hfilled hsizes hglobal⟩
    have hturns : turns z = k := by rw [hz, turns_mul]
    have hsize₁ : int (s₁.homesize h + z) = .ok (s.homesize h + z) := by rw [hsizes, hsize]
    simp only [allocBlock, bind_eq_ok, hturns]
    exact ⟨s₁, hpart, _, hloop, _, hsize₁, rfl⟩
  · -- no pages, and not for this host
    have hpid : h ≠ pid := fun heq => hpos (hf.own heq).1
    have hnone : ∀ p, ¬ InBlock cfg.hostc z s p := by
      intro p hin
      unfold InBlock at hin
      omega
    have hfilled : Filled cfg pid h z s s := by
      constructor
      · intro p
        rw [if_neg (hnone p)]
      · exact fun heq => absurd heq hpid
      · exact fun p _ => rfl
      · exact fun i _ => rfl
    refine ⟨_, ?_, blockDone_of_filled hok hh hz hf hfilled rfl rfl⟩
    simp only [allocBlock, bind_eq_ok, turns_nonpos (not_lt.mp hpos)]
    exact ⟨s, ownBlock_other hpid, s, rfl, _, hsize, rfl⟩

theorem allocBlock_stops {h : Nat} {z : Int} (hs : BlockStops pid h z s) :
    ∃ msg, allocBlock cfg pid h z s = .error (.assert msg) := by
  obtain rfl := hs.own
  have hsize := int_eq_ok.mpr ⟨hs.filled, rfl⟩
  by_cases hroom : s.homesize h + z < Homesize
  · have hz : ¬ 0 < z := by
      have hrefused := hs.refused
      omega
    refine ⟨"mmap failed!", ?_⟩
    rw [allocBlock, ownBlock, if_pos rfl, hsize]
    simp only [bind, Except.bind, jiaAssert, if_pos hroom, memmap, if_neg hz]
  · refine ⟨"Too many home pages", ?_⟩
    rw [allocBlock, ownBlock, if_pos rfl, hsize]
    simp only [bind, Except.bind, jiaAssert, if_neg hroom]

theorem allocBlock_undefined (hok : StateOk cfg pid s) {h : Nat} {z : Int}
    (hz : (Pagesize : Int) ∣ z) (hf : ¬ BlockFine cfg pid h z s) (hs : ¬ BlockStops pid h z s) :
    ∃ what, allocBlock cfg pid h z s = .error (.undefined what) := by
  have hneg : 0 < z → total cfg.hostc s < 0 → pageIndex s 0 < 0 ∧ ∃ k, turns z = k + 1 := by
    intro hpos htotal
    refine ⟨pageIndex_neg hok.globaladdr htotal ?_, ?_⟩
    · have hb := hok.bounds
      omega
    · obtain ⟨k, hk⟩ := hz
      refine ⟨(k - 1).toNat, ?_⟩
      simp only [turns, Pagesize] at *
      omega
  by_cases hint : IsInt (s.homesize h + z)
  · have hsize := int_eq_ok.mpr ⟨hint, rfl⟩
    by_cases hpid : h = pid
    · have hroom : 0 < z ∧ s.homesize h + z < Homesize := by
        by_contra hno
        exact hs ⟨hpid, hint, by omega⟩
      have htotal : total cfg.hostc s < 0 := by
        by_contra hno
        exact hf ⟨hint, fun _ => not_lt.mp hno, fun _ => hroom⟩
      obtain ⟨hidx, k, hk⟩ := hneg hroom.1 htotal
      obtain ⟨what, hwhat⟩ := @homeLoop_neg cfg (mapBlock cfg z s) h k hidx
      refine ⟨what, ?_⟩
      rw [allocBlock, ownBlock, if_pos hpid.symm, hsize]
      simp only [bind, Except.bind, jiaAssert, if_pos hroom.2, memmap, if_pos hroom.1, hk]
      simp only [pure, Except.pure, hwhat]
    · have hbad : 0 < z ∧ total cfg.hostc s < 0 := by
        by_contra hno
        exact hf ⟨hint, fun hpos => by omega, fun heq => absurd heq hpid⟩
      obtain ⟨hidx, k, hk⟩ := hneg hbad.1 hbad.2
      refine ⟨"page[] out of range", ?_⟩
      rw [allocBlock, ownBlock_other hpid, hk]
      simp only [bind, Except.bind, pageLoop_neg hidx]
  · by_cases hpid : h = pid
    · refine ⟨"int overflow", ?_⟩
      rw [allocBlock, ownBlock, if_pos hpid.symm, int_overflow hint]
      rfl
    · rw [allocBlock, ownBlock_other hpid]
      cases @pageLoop_cases s h (turns z) 0 with
      | inl hout =>
          obtain ⟨what, hwhat⟩ := hout
          refine ⟨what, ?_⟩
          simp only [bind, Except.bind, hwhat]
      | inr hdone =>
          obtain ⟨s', hdone, hsame, -⟩ := hdone
          refine ⟨"int overflow", ?_⟩
          have hsize : int (s'.homesize h + z) = .error (.undefined "int overflow") := by
            rw [hsame]
            exact int_overflow hint
          simp only [bind, Except.bind, hdone, hsize]

/-- A turn of `jia_alloc_array` that is made. -/
theorem StateOk.arrayBlock (hok : StateOk cfg pid s) {h : Nat} {z : Int} (hh : h < cfg.hostc)
    (hz : (Pagesize : Int) ∣ z) (hrun : arrayBlock cfg pid h z s = .ok s') :
    StateOk cfg pid s' := by
  simp only [AllocInt.arrayBlock, memmap, bind_eq_ok, jiaAssert_eq_ok, pure, Except.pure,
    Except.ok.injEq] at hrun
  obtain ⟨u, hroom, s₁, ⟨-, hpos, rfl⟩, s₂, hloop, size, hsize, rfl⟩ := hrun
  cases @pageLoop_cases (mapBlock cfg z s) h (turns z) 0 with
  | inl hout =>
      obtain ⟨what, hwhat⟩ := hout
      rw [hwhat] at hloop
      cases hloop
  | inr hdone =>
      obtain ⟨s₃, hdone, hsizes, hglobal⟩ := hdone
      rw [hdone] at hloop
      obtain rfl := Except.ok.inj hloop
      have hsame : s₃.homesize = s.homesize := hsizes
      obtain ⟨hint, rfl⟩ := int_eq_ok.mp hsize
      rw [hsame] at hint
      have hown : h = pid → 0 < z ∧ s.homesize h + z < Homesize := by
        intro hpid
        rw [arrayRoom, if_pos hpid.symm, bind_eq_ok] at hroom
        obtain ⟨n, hn, hroom⟩ := hroom
        obtain ⟨-, rfl⟩ := int_eq_ok.mp hn
        exact ⟨hpos, jiaAssert_eq_ok.mp hroom⟩
      have hok' := (hok.add hh hz hint hown hsame hglobal).1
      rw [hsame] at hok' ⊢
      exact hok'

theorem StateOk.arrayLoop {array : List Int} {fuel i h : Nat} {allocsize : Int}
    (hok : StateOk cfg pid s) (hh : h < cfg.hostc)
    (hrun : arrayLoop cfg pid array fuel allocsize h i s = .ok s') : StateOk cfg pid s' := by
  induction fuel generalizing s allocsize h i with
  | zero =>
      rw [AllocInt.arrayLoop] at hrun
      split at hrun
      · cases hrun
      · obtain rfl := Except.ok.inj hrun
        exact hok
  | succ fuel ih =>
      rw [AllocInt.arrayLoop] at hrun
      split at hrun
      · simp only [bind_eq_ok] at hrun
        obtain ⟨z, hz, s₁, hblock, left, -, hrun⟩ := hrun
        obtain ⟨-, rfl⟩ := int_eq_ok.mp hz
        exact ih (hok.arrayBlock hh (aligned_dvd _) hblock) (Nat.mod_lt _ cfg.hostc_pos) hrun
      · obtain rfl := Except.ok.inj hrun
        exact hok

theorem StateOk.jiaAllocArray {fuel a : Nat} {totalsize : Int} {array : List Int}
    (hok : StateOk cfg pid s) (hrun : jiaAllocArray cfg pid fuel totalsize array s = .ok (s', a)) :
    StateOk cfg pid s' := by
  simp only [AllocInt.jiaAllocArray, bind_eq_ok, pure, Except.pure, Except.ok.injEq,
    Prod.mk.injEq] at hrun
  obtain ⟨-, -, -, -, size, -, s₁, hloop, rfl, -⟩ := hrun
  exact hok.arrayLoop cfg.hostc_pos hloop

end Jiajia.AllocInt
