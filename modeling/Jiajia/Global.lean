import Mathlib.Data.List.Nodup
import Mathlib.Data.List.Count
import Mathlib.Data.List.Flatten
import Mathlib.Algebra.BigOperators.Intervals
import Mathlib.Tactic.Linarith
import Mathlib.Tactic.NormNum

/-!
# Constants, addresses and configuration

The compile-time constants of `global.h`, `mem.h`, `msg.h` and `syn.h`, the
ways a run can stop, and the settings that stay fixed while a program runs.
-/

namespace Jiajia

/-! ## Compile-time constants -/

abbrev Maxhosts : Nat := 16
abbrev Maxlocks : Nat := 64
abbrev Intbytes : Nat := 4
abbrev Pagesize : Nat := 4096
abbrev Maxmemsize : Nat := 0x800000000
abbrev Maxmempages : Nat := Maxmemsize / Pagesize
abbrev Homepages : Nat := 16384
abbrev Diffunit : Nat := 4
abbrev Maxsize : Nat := 40960
abbrev Msgheadsize : Nat := 32
abbrev Maxmsgsize : Nat := Maxsize - Msgheadsize
abbrev Maxwtnts : Nat := 511
abbrev Maxstacksize : Nat := 8
abbrev SWvalve : Nat := 1
abbrev Wvbits : Nat := 32

/-- Size of an address in a message, `sizeof(unsigned char *)`. -/
abbrev Addrbytes : Nat := 8

/-- The pseudo lock that stands for the barrier. -/
abbrev hidelock : Nat := Maxlocks

/-- Number of 4-byte units of a page. -/
abbrev Pageunits : Nat := Pagesize / Diffunit

/-- Number of 4-byte units of a write-vector block. -/
abbrev Blockunits : Nat := Pageunits / Wvbits

/-! ## Values -/

/-- A virtual address, `unsigned long`. -/
abbrev Addr := BitVec 64

/-- One 4-byte unit of shared memory. -/
abbrev Word := BitVec 32

/-- The contents of one page. -/
abbrev Page := Fin Pageunits → Word

def zeroPage : Page := fun _ => 0

/-- `(unsigned long)addr / Pagesize`, the key `savewtnt` looks an entry up by. -/
def pageNum (a : Addr) : Nat := a.toNat / Pagesize

/-- State of a slot of the page cache. -/
inductive PageState
  | unmap
  | inv
  | ro
  | rw
deriving DecidableEq, Repr

/-- Protection of a page in a host's address space. -/
inductive Prot
  | unmapped
  | none
  | read
  | readWrite
deriving DecidableEq, Repr

/-! ## How a run can stop -/

/-- Outcomes of a step other than a successor state. -/
inductive Stop
  /-- The step is not enabled: the thread spins or has nothing to do. -/
  | blocked
  /-- A `jia_assert` or `local_assert` fired. -/
  | assert (msg : String)
  /-- The C program has no defined behaviour here. -/
  | undefined (what : String)
deriving DecidableEq, Repr

abbrev Result := Except Stop

def jiaAssert (c : Prop) [Decidable c] (msg : String) : Result Unit :=
  if c then .ok () else .error (.assert msg)

/-- A step that needs `c` and spins otherwise. -/
def await (c : Prop) [Decidable c] : Result Unit :=
  if c then .ok () else .error .blocked

/-- A step that is only defined when `c` holds. -/
def defined (c : Prop) [Decidable c] (what : String) : Result Unit :=
  if c then .ok () else .error (.undefined what)

theorem bind_eq_ok {α β : Type} {x : Result α} {f : α → Result β} {b : β} :
    (x >>= f) = .ok b ↔ ∃ a, x = .ok a ∧ f a = .ok b := by
  cases x with
  | error e => simp [bind, Except.bind]
  | ok a => simp [bind, Except.bind]

@[simp] theorem jiaAssert_eq_ok {c : Prop} [Decidable c] {msg : String} {u : Unit} :
    jiaAssert c msg = .ok u ↔ c := by
  unfold jiaAssert
  split <;> simp_all

@[simp] theorem await_eq_ok {c : Prop} [Decidable c] {u : Unit} :
    await c = .ok u ↔ c := by
  unfold await
  split <;> simp_all

/-- A step that waits for `c` and then returns. -/
theorem await_return {α : Type} {c : Prop} [Decidable c] {a b : α} :
    (await c >>= fun _ => pure a) = .ok b ↔ c ∧ b = a := by
  simp only [bind_eq_ok, await_eq_ok, pure, Except.pure, Except.ok.injEq]
  constructor
  · rintro ⟨-, hc, rfl⟩
    exact ⟨hc, rfl⟩
  · rintro ⟨hc, rfl⟩
    exact ⟨(), hc, rfl⟩

@[simp] theorem defined_eq_ok {c : Prop} [Decidable c] {what : String} {u : Unit} :
    defined c what = .ok u ↔ c := by
  unfold defined
  split <;> simp_all

/-! ## Tables as functions -/

/-- Store `v` at index `i` of an array. -/
def upd {α : Type} (f : Nat → α) (i : Nat) (v : α) : Nat → α :=
  fun j => if j = i then v else f j

@[simp] theorem upd_same {α : Type} (f : Nat → α) (i : Nat) (v : α) : upd f i v i = v := by
  simp [upd]

@[simp] theorem upd_of_ne {α : Type} (f : Nat → α) {i j : Nat} (v : α) (h : j ≠ i) :
    upd f i v j = f j := by
  simp [upd, h]

@[simp] theorem upd_eq_self {α : Type} (f : Nat → α) (i : Nat) : upd f i (f i) = f := by
  funext j
  by_cases h : j = i
  · simp [h]
  · simp [h]

@[simp] theorem upd_upd {α : Type} (f : Nat → α) (i : Nat) (v w : α) :
    upd (upd f i v) i w = upd f i w := by
  funext j
  by_cases h : j = i
  · simp [h]
  · simp [h]

theorem upd_comm {α : Type} (f : Nat → α) {i j : Nat} (v w : α) (h : i ≠ j) :
    upd (upd f i v) j w = upd (upd f j w) i v := by
  funext k
  by_cases hi : k = i
  · subst hi
    rw [upd_of_ne _ _ h, upd_same, upd_same]
  · rw [upd_of_ne _ _ hi]
    by_cases hj : k = j
    · subst hj
      rw [upd_same, upd_same]
    · rw [upd_of_ne _ _ hj, upd_of_ne _ _ hj, upd_of_ne _ _ hi]

theorem upd_apply {α : Type} (f : Nat → α) (i j : Nat) (v : α) :
    upd f i v j = if j = i then v else f j := rfl

/-! ## Settings -/

/-- Which host owns which page after allocation, and where the page stands in
its owner's home table.  `homei` and `pageAt` are inverse to each other. -/
structure Layout (hostc : Nat) where
  npages : Nat
  owner : Nat → Nat
  homei : Nat → Nat
  count : Nat → Nat
  pageAt : Nat → Nat → Nat
  npages_le : npages ≤ Maxmempages
  owner_lt : ∀ p < npages, owner p < hostc
  count_lt : ∀ h, count h < Homepages
  homei_lt : ∀ p < npages, homei p < count (owner p)
  pageAt_homei : ∀ p < npages, pageAt (owner p) (homei p) = p
  pageAt_spec : ∀ h i, i < count h →
    pageAt h i < npages ∧ owner (pageAt h i) = h ∧ homei (pageAt h i) = i

/-- The first `n` pages on host `a`, the next `k` on host `b`. -/
def Layout.twoBlocks (hostc a b n k : Nat) (ha : a < hostc) (hb : b < hostc) (hab : a ≠ b)
    (hn : n < Homepages ∧ k < Homepages) : Layout hostc where
  npages := n + k
  owner p := if p < n then a else b
  homei p := if p < n then p else p - n
  count h := if h = a then n else if h = b then k else 0
  pageAt h i := if h = a then i else n + i
  npages_le := by
    simp only [Homepages, Maxmempages, Maxmemsize, Pagesize] at *
    omega
  owner_lt p _ := by split <;> assumption
  count_lt h := by
    split
    · exact hn.1
    · split
      · exact hn.2
      · decide
  homei_lt p hp := by
    by_cases h : p < n
    · simp [h]
    · simp only [h, if_false, if_neg (Ne.symm hab), if_true]
      omega
  pageAt_homei p hp := by
    by_cases h : p < n
    · simp [h]
    · simp only [h, if_false, if_neg (Ne.symm hab)]
      omega
  pageAt_spec h i hi := by
    by_cases h₁ : h = a
    · subst h₁
      simp only [if_true] at hi
      simp only [if_true, hi, and_self, and_true]
      omega
    · by_cases h₂ : h = b
      · subst h₂
        simp only [h₁, if_false, if_true] at hi
        have hni : ¬ n + i < n := by omega
        simp only [h₁, if_false, hni, true_and]
        omega
      · simp [h₁, h₂] at hi

/-- What is fixed for a run: the hosts, the sizes, the placement of the shared
pages and the optimisation switches.  `pastCache` and `pastHome` are what a
read one entry past the end of `cache[]` and `home[]` happens to find. -/
structure Config where
  hostc : Nat
  cachepages : Nat
  gstart : Nat
  layout : Layout hostc
  hMig : Bool
  adWd : Bool
  wVec : Bool
  bCast : Bool
  prefetchFlag : Bool
  prefetchPages : Int
  maxCheckingPages : Int
  pastCache : PageState
  pastHome : BitVec 8
  hostc_pos : 0 < hostc
  hostc_le : hostc ≤ Maxhosts
  cachepages_pos : 0 < cachepages
  cachepages_lt : cachepages < 2 ^ 16
  gstart_pos : 0 < gstart
  gstart_dvd : Pagesize ∣ gstart
  gstart_le : gstart + Maxmemsize ≤ 2 ^ 64

namespace Config

variable (cfg : Config)

/-- Number of allocated pages, `globaladdr / Pagesize`. -/
abbrev npages : Nat := cfg.layout.npages

/-- Address of a shared page. -/
def pageAddr (p : Nat) : Addr := BitVec.ofNat 64 (cfg.gstart + p * Pagesize)

/-- Index of an address into `page[]`. -/
def pagei (a : Addr) : Nat := (a.toNat - cfg.gstart) / Pagesize

variable {cfg}

theorem pageAddr_toNat {p : Nat} (hp : p < cfg.npages) :
    (cfg.pageAddr p).toNat = cfg.gstart + p * Pagesize := by
  have hle : cfg.npages ≤ Maxmempages := cfg.layout.npages_le
  have hgs := cfg.gstart_le
  have hlt : cfg.gstart + p * Pagesize < 2 ^ 64 := by
    simp only [Maxmempages, Maxmemsize, Pagesize] at *
    omega
  simp only [pageAddr, BitVec.toNat_ofNat]
  exact Nat.mod_eq_of_lt hlt

@[simp] theorem pagei_pageAddr {p : Nat} (hp : p < cfg.npages) :
    cfg.pagei (cfg.pageAddr p) = p := by
  rw [pagei, pageAddr_toNat hp]
  simp

theorem pageAddr_ne_zero {p : Nat} (hp : p < cfg.npages) : cfg.pageAddr p ≠ 0 := by
  intro h
  have h0 := congrArg BitVec.toNat h
  rw [pageAddr_toNat hp] at h0
  have := cfg.gstart_pos
  simp at h0
  omega

theorem pageNum_pageAddr {p : Nat} (hp : p < cfg.npages) :
    pageNum (cfg.pageAddr p) = cfg.gstart / Pagesize + p := by
  rw [pageNum, pageAddr_toNat hp, Nat.add_mul_div_right _ _ (by norm_num)]

theorem pageAddr_inj {p q : Nat} (hp : p < cfg.npages) (hq : q < cfg.npages)
    (h : cfg.pageAddr p = cfg.pageAddr q) : p = q := by
  rw [← pagei_pageAddr hp, h, pagei_pageAddr hq]

theorem pageNum_pageAddr_inj {p q : Nat} (hp : p < cfg.npages) (hq : q < cfg.npages)
    (h : pageNum (cfg.pageAddr p) = pageNum (cfg.pageAddr q)) : p = q := by
  rw [pageNum_pageAddr hp, pageNum_pageAddr hq] at h
  omega

/-- Two hosts: the first `n` pages on host 0, the next `k` on host 1. -/
def twoHosts (cachepages n k : Nat) (hMig : Bool) (hc : 0 < cachepages ∧ cachepages < 2 ^ 16)
    (hn : n < Homepages ∧ k < Homepages) : Config where
  hostc := 2
  cachepages := cachepages
  gstart := 0x400000000000
  layout := Layout.twoBlocks 2 0 1 n k (by decide) (by decide) (by decide) hn
  hMig := hMig
  adWd := false
  wVec := false
  bCast := false
  prefetchFlag := false
  prefetchPages := 0
  maxCheckingPages := 0
  pastCache := .unmap
  pastHome := 0
  hostc_pos := by decide
  hostc_le := by decide
  cachepages_pos := hc.1
  cachepages_lt := hc.2
  gstart_pos := by decide
  gstart_dvd := by decide
  gstart_le := by decide

/-- Two hosts without shared pages. -/
def noPages : Config := twoHosts 4 0 0 false (by decide) (by decide)

/-- Two hosts; host 0 is the home of the only page. -/
def onePage : Config := twoHosts 4 1 0 false (by decide) (by decide)

/-- Four slots and five pages of host 1. -/
def fivePages : Config := twoHosts 4 0 5 false (by decide) (by decide)

/-- The first unit of a page. -/
def unit0 : Fin Pageunits := ⟨0, by decide⟩

/-- Three hosts that migrate homes and prefetch one page; host 2 is the home of the
two pages. -/
def prefetchPair : Config where
  hostc := 3
  cachepages := 4
  gstart := 0x400000000000
  layout := Layout.twoBlocks 3 2 0 2 0 (by decide) (by decide) (by decide) (by decide)
  hMig := true
  adWd := false
  wVec := false
  bCast := false
  prefetchFlag := true
  prefetchPages := 1
  maxCheckingPages := 1
  pastCache := .unmap
  pastHome := 0
  hostc_pos := by decide
  hostc_le := by decide
  cachepages_pos := by decide
  cachepages_lt := by decide
  gstart_pos := by decide
  gstart_dvd := by decide
  gstart_le := by decide

end Config

end Jiajia
