import Jiajia.Global
import Mathlib.Tactic.Ring
import Mathlib.Algebra.Order.BigOperators.Group.Finset
import Mathlib.Data.List.GetD

/-!
# Allocation of shared memory

The allocators of `memuser.c`.  Every host executes the same calls and fills
its own tables; only the owner of a block enters it into its home table.
-/

namespace Jiajia.Alloc

/-- Bytes of the home table of a host, `Homepages * Pagesize`. -/
abbrev Homesize : Nat := Homepages * Pagesize

/-- The values from here on do not fit an `int`. -/
abbrev Intlimit : Nat := 2 ^ 31

/-- What does not change: `hostc` and `global_start_addr`. -/
structure Setting where
  hostc : Nat
  gstart : Nat
  hostc_pos : 0 < hostc
  hostc_le : hostc ≤ Maxhosts
  gstart_pos : 0 < gstart
  gstart_le : gstart + Maxmemsize ≤ 2 ^ 64

/-- The tables of one host that allocation fills: `homei` and `homepid` of
`page[]`, `addr` of `home[]`, and the mappings.  `starthost` is the static
variable of `jia_alloc`. -/
structure AllocState where
  globaladdr : Nat
  homesize : Nat → Nat
  homei : Nat → Nat
  homepid : Nat → Nat
  homeAddr : Nat → Nat
  prot : Nat → Prot
  starthost : Int

/-- The tables after `initmem`. -/
def initAlloc : AllocState where
  globaladdr := 0
  homesize _ := 0
  homei _ := Homepages
  homepid _ := Maxhosts
  homeAddr _ := 0
  prot _ := .unmapped
  starthost := -1

/-- `ALIGN2PAGE(size)` -/
def align2page (size : Nat) : Nat :=
  if size % Pagesize = 0 then size else (size / Pagesize + 1) * Pagesize

variable (cfg : Setting) (pid : Nat)

/-! ## One block -/

/-- The first `k` turns of the loop over the home entries of a block. -/
def homeLoop (homepid : Nat) (s : AllocState) : Nat → AllocState
  | 0 => s
  | k + 1 =>
      let s' := homeLoop homepid s k
      let pagei := (s.globaladdr + k * Pagesize) / Pagesize
      let homei := (s.homesize homepid + k * Pagesize) / Pagesize
      { s' with
        homeAddr := upd s'.homeAddr homei (cfg.gstart + s.globaladdr + k * Pagesize)
        homei := upd s'.homei pagei homei }

/-- The first `k` turns of the loop over the pages of a block. -/
def pageLoop (homepid : Nat) (s : AllocState) : Nat → AllocState
  | 0 => s
  | k + 1 =>
      let s' := pageLoop homepid s k
      { s' with homepid := upd s'.homepid ((s.globaladdr + k * Pagesize) / Pagesize) homepid }

/-- `memmap` of a block. -/
def mapBlock (mapsize : Nat) (s : AllocState) : AllocState :=
  { s with
    prot := fun p =>
      if s.globaladdr / Pagesize ≤ p ∧ p < (s.globaladdr + mapsize) / Pagesize then
        if cfg.hostc = 1 then .readWrite else .read
      else s.prot p }

/-- What only the owner of a block does. -/
def ownBlock (homepid mapsize : Nat) (s : AllocState) : Result AllocState :=
  if pid = homepid then do
    jiaAssert (s.homesize homepid + mapsize < Homesize) "Too many home pages"
    return homeLoop cfg homepid (mapBlock cfg mapsize s) (mapsize / Pagesize)
  else .ok s

/-- One turn of the outer loop on host `pid`.  All hosts add `mapsize` to the
`int` that counts the owner's home bytes, the owner before its assert. -/
def allocBlock (homepid mapsize : Nat) (s : AllocState) : Result AllocState := do
  defined (s.homesize homepid + mapsize < Intlimit) "int overflow"
  let s ← ownBlock cfg pid homepid mapsize s
  let s := pageLoop homepid s (mapsize / Pagesize)
  return { s with
    homesize := upd s.homesize homepid (s.homesize homepid + mapsize)
    globaladdr := s.globaladdr + mapsize }

/-! ## The calls -/

/-- The outer loop; `blocks` gives the block sizes and `n` their number.  Each
turn takes a page or more, so `fuel` turns are enough for `fuel` bytes. -/
def allocLoop (blocks : Nat → Nat) (n : Nat) :
    Nat → Nat → Nat → Nat → AllocState → Result AllocState
  | 0, _, _, _, s => .ok s
  | fuel + 1, allocsize, homepid, blocki, s =>
      if 0 < allocsize then do
        let mapsize := align2page (blocks blocki)
        let s ← allocBlock cfg pid homepid mapsize s
        let homepid := (homepid + 1) % cfg.hostc
        let blocki := if homepid = 0 then (blocki + 1) % n else blocki
        allocLoop blocks n fuel (allocsize - mapsize) homepid blocki s
      else .ok s

/-- `unsigned long` plus `int` -/
def addOrigin (gstart : Nat) (originaddr : Int) : Nat :=
  (BitVec.ofInt 64 (gstart + originaddr)).toNat

/-- What `jia_alloc3` and `jia_alloc4` share. -/
def allocate (totalsize : Nat) (blocks : Nat → Nat) (n starthost : Nat) (s : AllocState) :
    Result (AllocState × Nat) := do
  jiaAssert (s.globaladdr + totalsize ≤ Maxmemsize) "Insufficient shared space!"
  let originaddr := (BitVec.ofNat 32 s.globaladdr).toInt
  let allocsize := align2page totalsize
  let s ← allocLoop cfg pid blocks n allocsize allocsize starthost 0 s
  return (s, addOrigin cfg.gstart originaddr)

def jiaAlloc3 (totalsize blocksize starthost : Nat) (s : AllocState) :
    Result (AllocState × Nat) :=
  allocate cfg pid totalsize (fun _ => blocksize) 1 starthost s

def jiaAlloc4 (totalsize : Nat) (blocks : List Nat) (starthost : Nat) (s : AllocState) :
    Result (AllocState × Nat) :=
  allocate cfg pid totalsize (fun blocki => blocks.getD blocki 0) blocks.length starthost s

def jiaAlloc (totalsize : Nat) (s : AllocState) : Result (AllocState × Nat) :=
  let starthost := (s.starthost + 1) % cfg.hostc
  jiaAlloc3 cfg pid totalsize totalsize starthost.toNat { s with starthost := starthost }

def jiaAlloc2 (size block : Nat) (s : AllocState) : Result (AllocState × Nat) :=
  jiaAlloc3 cfg pid size block 0 s

def jiaAlloc2p (totalsize starthost : Nat) (s : AllocState) : Result (AllocState × Nat) :=
  jiaAlloc3 cfg pid totalsize totalsize starthost s

/-- A call of an allocator. -/
inductive Call
  | alloc (totalsize : Nat)
  | alloc2 (size block : Nat)
  | alloc2p (totalsize starthost : Nat)
  | alloc3 (totalsize blocksize starthost : Nat)
  | alloc4 (totalsize : Nat) (blocks : List Nat) (starthost : Nat)
deriving DecidableEq, Repr

namespace Call

def totalsize : Call → Nat
  | alloc t => t
  | alloc2 t _ => t
  | alloc2p t _ => t
  | alloc3 t _ _ => t
  | alloc4 t _ _ => t

/-- A positive size whose page-aligned value is an `int`. -/
def SizeOk (size : Nat) : Prop := 0 < size ∧ align2page size < Intlimit

instance (size : Nat) : Decidable (SizeOk size) := inferInstanceAs (Decidable (_ ∧ _))

/-- The arguments a call may have. -/
def Ok (hostc : Nat) : Call → Prop
  | alloc t => SizeOk t
  | alloc2 t b => SizeOk t ∧ SizeOk b
  | alloc2p t h => SizeOk t ∧ h < hostc
  | alloc3 t b h => SizeOk t ∧ SizeOk b ∧ h < hostc
  | alloc4 t bs h => SizeOk t ∧ bs ≠ [] ∧ (∀ b ∈ bs, SizeOk b) ∧ h < hostc

instance (hostc : Nat) (c : Call) : Decidable (c.Ok hostc) := by
  cases c <;> unfold Ok <;> infer_instance

def exec (c : Call) (s : AllocState) : Result (AllocState × Nat) :=
  match c with
  | alloc t => jiaAlloc cfg pid t s
  | alloc2 t b => jiaAlloc2 cfg pid t b s
  | alloc2p t h => jiaAlloc2p cfg pid t h s
  | alloc3 t b h => jiaAlloc3 cfg pid t b h s
  | alloc4 t bs h => jiaAlloc4 cfg pid t bs h s

end Call

/-- Host `pid` executes the calls; the list holds the addresses they return. -/
def run : List Call → AllocState → Result (AllocState × List Nat)
  | [], s => .ok (s, [])
  | c :: cs, s => do
      let (s, a) ← c.exec cfg pid s
      let (s, as) ← run cs s
      return (s, a :: as)

/-! ## The loops over the pages of a block -/

section Loops

variable {cfg pid}

variable (cfg) in
theorem homeLoop_frame (o : Nat) (s : AllocState) (k : Nat) :
    (homeLoop cfg o s k).globaladdr = s.globaladdr ∧ (homeLoop cfg o s k).homesize = s.homesize ∧
      (homeLoop cfg o s k).homepid = s.homepid ∧
      (homeLoop cfg o s k).starthost = s.starthost := by
  induction k with
  | zero => exact ⟨rfl, rfl, rfl, rfl⟩
  | succ k ih => exact ih

theorem pageLoop_frame (o : Nat) (s : AllocState) (k : Nat) :
    (pageLoop o s k).globaladdr = s.globaladdr ∧ (pageLoop o s k).homesize = s.homesize ∧
      (pageLoop o s k).homei = s.homei ∧ (pageLoop o s k).homeAddr = s.homeAddr ∧
      (pageLoop o s k).starthost = s.starthost := by
  induction k with
  | zero => exact ⟨rfl, rfl, rfl, rfl, rfl⟩
  | succ k ih => exact ih

/-- Page `k` of a block that starts at a page boundary. -/
theorem page_index (g k : Nat) : (Pagesize * g + k * Pagesize) / Pagesize = g + k := by
  rw [Nat.mul_comm k, ← Nat.mul_add, Nat.mul_div_cancel_left _ (by norm_num)]

variable {s : AllocState} {o g h : Nat}

theorem homeLoop_homeAddr (hg : s.globaladdr = Pagesize * g) (hh : s.homesize o = Pagesize * h)
    (k j : Nat) : (homeLoop cfg o s k).homeAddr j =
      if h ≤ j ∧ j < h + k then cfg.gstart + Pagesize * (g + (j - h)) else s.homeAddr j := by
  induction k with
  | zero =>
      rw [if_neg (by omega)]
      rfl
  | succ k ih =>
      rw [homeLoop]
      simp only [hh, hg, page_index]
      by_cases hj : j = h + k
      · subst hj
        rw [upd_same, if_pos (by omega), Nat.add_sub_cancel_left]
        ring
      · rw [upd_of_ne _ _ hj, ih]
        by_cases hin : h ≤ j ∧ j < h + k
        · rw [if_pos hin, if_pos (by omega)]
        · rw [if_neg hin, if_neg (by omega)]

theorem homeLoop_homei (hg : s.globaladdr = Pagesize * g) (hh : s.homesize o = Pagesize * h)
    (k p : Nat) : (homeLoop cfg o s k).homei p =
      if g ≤ p ∧ p < g + k then h + (p - g) else s.homei p := by
  induction k with
  | zero =>
      rw [if_neg (by omega)]
      rfl
  | succ k ih =>
      rw [homeLoop]
      simp only [hh, hg, page_index]
      by_cases hp : p = g + k
      · subst hp
        rw [upd_same, if_pos (by omega), Nat.add_sub_cancel_left]
      · rw [upd_of_ne _ _ hp, ih]
        by_cases hin : g ≤ p ∧ p < g + k
        · rw [if_pos hin, if_pos (by omega)]
        · rw [if_neg hin, if_neg (by omega)]

theorem pageLoop_homepid (hg : s.globaladdr = Pagesize * g) (k p : Nat) :
    (pageLoop o s k).homepid p = if g ≤ p ∧ p < g + k then o else s.homepid p := by
  induction k with
  | zero =>
      rw [if_neg (by omega)]
      rfl
  | succ k ih =>
      rw [pageLoop]
      simp only [hg, page_index]
      by_cases hp : p = g + k
      · subst hp
        rw [upd_same, if_pos (by omega)]
      · rw [upd_of_ne _ _ hp, ih]
        by_cases hin : g ≤ p ∧ p < g + k
        · rw [if_pos hin, if_pos (by omega)]
        · rw [if_neg hin, if_neg (by omega)]

end Loops

/-! ## The tables of a host -/

/-- The tables of host `pid` when `owners` are the homes of the pages so far. -/
structure TableOk (cfg : Setting) (pid : Nat) (owners : List Nat) (s : AllocState) : Prop where
  globaladdr : s.globaladdr = Pagesize * owners.length
  homesize : ∀ h, s.homesize h = Pagesize * owners.count h
  homepid : ∀ p, s.homepid p = owners.getD p Maxhosts
  homei : ∀ p, owners[p]? = some pid → s.homei p = (owners.take p).count pid
  homeAddr : ∀ p, owners[p]? = some pid →
    s.homeAddr ((owners.take p).count pid) = cfg.gstart + Pagesize * p
  free : ∀ j, owners.count pid ≤ j → s.homeAddr j = 0

/-- A block takes whole pages, at least one. -/
structure BlockOk (hostc : Nat) (b : Nat × Nat) : Prop where
  owner_lt : b.1 < hostc
  dvd : Pagesize ∣ b.2
  pos : 0 < b.2
  lt : b.2 < Intlimit

section Tables

variable {cfg pid} {owners : List Nat} {s s' : AllocState} {o z : Nat}

theorem tableOk_init : TableOk cfg pid [] initAlloc where
  globaladdr := rfl
  homesize _ := rfl
  homepid _ := rfl
  homei p h := by simp at h
  homeAddr p h := by simp at h
  free _ _ := rfl

/-- The entries before the end of the list stay, those after it are the block's. -/
theorem getElem?_append_replicate {p n : Nat} :
    (owners ++ List.replicate n o)[p]? =
      if p < owners.length then owners[p]?
      else if p < owners.length + n then some o else none := by
  by_cases hp : p < owners.length
  · rw [if_pos hp, List.getElem?_append_left hp]
  · rw [if_neg hp, List.getElem?_append_right (by omega), List.getElem?_replicate]
    by_cases hn : p < owners.length + n
    · rw [if_pos hn, if_pos (by omega)]
    · rw [if_neg hn, if_neg (by omega)]

theorem count_append_replicate (h n : Nat) :
    (owners ++ List.replicate n o).count h = owners.count h + if o = h then n else 0 := by
  rw [List.count_append, List.count_replicate]
  by_cases hoh : o = h
  · simp [hoh]
  · simp [hoh]

theorem count_take_append {p n h : Nat} (hp : p < owners.length + n) :
    ((owners ++ List.replicate n o).take p).count h =
      if p < owners.length then (owners.take p).count h
      else owners.count h + if o = h then p - owners.length else 0 := by
  by_cases hlt : p < owners.length
  · rw [if_pos hlt, List.take_append_of_le_length hlt.le]
  · rw [if_neg hlt, List.take_append, List.take_of_length_le (by omega), List.take_replicate,
      Nat.min_eq_left (by omega)]
    exact count_append_replicate h _

theorem count_take_lt {p : Nat} (hp : owners[p]? = some pid) :
    (owners.take p).count pid < owners.count pid := by
  obtain ⟨hlt, hget⟩ := List.getElem?_eq_some_iff.mp hp
  have hsplit : owners = owners.take p ++ pid :: owners.drop (p + 1) := by
    rw [← hget, List.getElem_cons_drop, List.take_append_drop]
  have hcount := congrArg (List.count pid) hsplit
  rw [List.count_append, List.count_cons_self] at hcount
  omega

/-- The tables after a block. -/
theorem TableOk.block (hok : TableOk cfg pid owners s) {n : Nat} (hz : z = Pagesize * n)
    (h : allocBlock cfg pid o z s = .ok s') :
    TableOk cfg pid (owners ++ List.replicate n o) s' ∧ s'.starthost = s.starthost := by
  have hn : z / Pagesize = n := by
    rw [hz, Nat.mul_div_cancel_left _ (by norm_num)]
  simp only [allocBlock, hn, bind_eq_ok, defined_eq_ok, pure, Except.pure, Except.ok.injEq] at h
  obtain ⟨-, -, s₁, hown, rfl⟩ := h
  -- the owner's part, with the entries it adds
  have hs₁ : s₁.globaladdr = s.globaladdr ∧ s₁.homesize = s.homesize ∧ s₁.homepid = s.homepid ∧
      s₁.starthost = s.starthost ∧
      (∀ j, s₁.homeAddr j = if pid = o ∧ owners.count o ≤ j ∧ j < owners.count o + n then
        cfg.gstart + Pagesize * (owners.length + (j - owners.count o)) else s.homeAddr j) ∧
      ∀ p, s₁.homei p = if pid = o ∧ owners.length ≤ p ∧ p < owners.length + n then
        owners.count o + (p - owners.length) else s.homei p := by
    unfold ownBlock at hown
    by_cases hpid : pid = o
    · rw [if_pos hpid] at hown
      simp only [hn, bind_eq_ok, pure, Except.pure, Except.ok.injEq] at hown
      obtain ⟨-, -, rfl⟩ := hown
      obtain ⟨hframe₁, hframe₂, hframe₃, hframe₄⟩ := homeLoop_frame cfg o (mapBlock cfg z s) n
      have hg : (mapBlock cfg z s).globaladdr = Pagesize * owners.length := hok.globaladdr
      have hh : (mapBlock cfg z s).homesize o = Pagesize * owners.count o := hok.homesize o
      refine ⟨hframe₁, hframe₂, hframe₃, hframe₄, ?_, ?_⟩
      · intro j
        rw [homeLoop_homeAddr hg hh]
        simp only [hpid, true_and]
        rfl
      · intro p
        rw [homeLoop_homei hg hh]
        simp only [hpid, true_and]
        rfl
    · rw [if_neg hpid, Except.ok.injEq] at hown
      subst hown
      refine ⟨rfl, rfl, rfl, rfl, ?_, ?_⟩
      · intro j
        rw [if_neg fun hcond => hpid hcond.1]
      · intro p
        rw [if_neg fun hcond => hpid hcond.1]
  obtain ⟨hglobal, hsize, hpids, hstart, haddr, hindex⟩ := hs₁
  obtain ⟨-, hframe₂, hframe₃, hframe₄, hframe₅⟩ := pageLoop_frame o s₁ n
  refine ⟨⟨?_, ?_, ?_, ?_, ?_, ?_⟩, by dsimp only; rw [hframe₅, hstart]⟩
  · simp only [(pageLoop_frame o s₁ n).1, hglobal, hok.globaladdr, hz, List.length_append,
      List.length_replicate]
    ring
  · intro h
    simp only [hframe₂, hsize, count_append_replicate]
    by_cases hoh : o = h
    · subst hoh
      rw [upd_same, if_pos rfl, hok.homesize, hz]
      ring
    · rw [upd_of_ne _ _ (Ne.symm hoh), if_neg hoh, hok.homesize, Nat.add_zero]
  · intro p
    dsimp only
    rw [pageLoop_homepid (hglobal.trans hok.globaladdr), hpids, hok.homepid,
      List.getD_eq_getElem?_getD, List.getD_eq_getElem?_getD, getElem?_append_replicate]
    by_cases hp : p < owners.length
    · rw [if_pos hp, if_neg (by omega)]
    · rw [if_neg hp]
      by_cases hn' : p < owners.length + n
      · rw [if_pos hn', if_pos (by omega)]
        rfl
      · rw [if_neg hn', if_neg (by omega), List.getElem?_eq_none (by omega)]
  · intro p hp
    rw [getElem?_append_replicate] at hp
    dsimp only
    rw [hframe₃, hindex]
    by_cases hlt : p < owners.length
    · rw [if_pos hlt] at hp
      rw [if_neg (by omega), count_take_append (by omega), if_pos hlt]
      exact hok.homei p hp
    · rw [if_neg hlt] at hp
      split at hp
      · rename_i hp'
        obtain rfl : o = pid := Option.some.inj hp
        rw [if_pos ⟨rfl, by omega, hp'⟩, count_take_append hp', if_neg hlt, if_pos rfl]
      · cases hp
  · intro p hp
    rw [getElem?_append_replicate] at hp
    dsimp only
    rw [hframe₄, haddr]
    by_cases hlt : p < owners.length
    · rw [if_pos hlt] at hp
      have hcount := count_take_lt hp
      rw [count_take_append (by omega), if_pos hlt, if_neg]
      · exact hok.homeAddr p hp
      · rintro ⟨rfl, hle, -⟩
        omega
    · rw [if_neg hlt] at hp
      split at hp
      · rename_i hp'
        obtain rfl : o = pid := Option.some.inj hp
        rw [count_take_append hp', if_neg hlt, if_pos rfl, if_pos ⟨rfl, by omega, by omega⟩]
        congr 2
        omega
      · cases hp
  · intro j hj
    rw [count_append_replicate] at hj
    dsimp only
    rw [hframe₄, haddr, if_neg]
    · exact hok.free j (by omega)
    · rintro ⟨rfl, -, hlt⟩
      rw [if_pos rfl] at hj
      omega

end Tables

/-! ## The blocks a call takes -/

/-- Owner and size of the blocks of the outer loop. -/
def loopBlocks (hostc : Nat) (blocks : Nat → Nat) (n : Nat) :
    Nat → Nat → Nat → Nat → List (Nat × Nat)
  | 0, _, _, _ => []
  | fuel + 1, allocsize, homepid, blocki =>
      if 0 < allocsize then
        let mapsize := align2page (blocks blocki)
        let homepid' := (homepid + 1) % hostc
        (homepid, mapsize) :: loopBlocks hostc blocks n fuel (allocsize - mapsize) homepid'
          (if homepid' = 0 then (blocki + 1) % n else blocki)
      else []

/-- Where `jia_alloc` starts next, and the blocks of a call. -/
def Call.blocks (hostc : Nat) (starthost : Int) (c : Call) : List (Nat × Nat) × Int :=
  let loop (t : Nat) (bs : Nat → Nat) (n h : Nat) : List (Nat × Nat) :=
    loopBlocks hostc bs n (align2page t) (align2page t) h 0
  match c with
  | .alloc t =>
      let starthost := (starthost + 1) % hostc
      (loop t (fun _ => t) 1 starthost.toNat, starthost)
  | .alloc2 t b => (loop t (fun _ => b) 1 0, starthost)
  | .alloc2p t h => (loop t (fun _ => t) 1 h, starthost)
  | .alloc3 t b h => (loop t (fun _ => b) 1 h, starthost)
  | .alloc4 t bs h => (loop t (fun i => bs.getD i 0) bs.length h, starthost)

/-- How the allocation of a list of blocks ends. -/
inductive Outcome
  /-- All blocks fit; `owners` are the homes of the pages. -/
  | fits (owners : List Nat)
  /-- The home table of `owner` is full. -/
  | full (owner : Nat)
  /-- The sum that is compared with the size of the home table is no `int`. -/
  | overflow
deriving DecidableEq, Repr

def scanBlocks (owners : List Nat) : List (Nat × Nat) → Outcome
  | [] => .fits owners
  | (o, z) :: bs =>
      if Intlimit ≤ Pagesize * owners.count o + z then .overflow
      else if Homesize ≤ Pagesize * owners.count o + z then .full o
      else scanBlocks (owners ++ List.replicate (z / Pagesize) o) bs

def scanCalls (hostc : Nat) (owners : List Nat) (starthost : Int) : List Call → Outcome
  | [] => .fits owners
  | c :: cs =>
      match scanBlocks owners (c.blocks hostc starthost).1 with
      | .fits owners' => scanCalls hostc owners' (c.blocks hostc starthost).2 cs
      | r => r

/-- The first block that does not fit the home table of its owner, if there is
one, has a size that still fits an `int` together with the owner's home bytes. -/
def NoOverflow (hostc : Nat) (calls : List Call) : Prop :=
  scanCalls hostc [] (-1) calls ≠ .overflow

instance (hostc : Nat) (calls : List Call) : Decidable (NoOverflow hostc calls) :=
  inferInstanceAs (Decidable (_ ≠ _))

/-! ## What a host does with the blocks -/

def allocBlocks : List (Nat × Nat) → AllocState → Result AllocState
  | [], s => .ok s
  | (o, z) :: bs, s => do
      let s ← allocBlock cfg pid o z s
      allocBlocks bs s

section Outcomes

variable {cfg pid} {owners owners' : List Nat} {s : AllocState} {o : Nat}
  {bs : List (Nat × Nat)}

theorem allocLoop_eq (blocks : Nat → Nat) (n fuel allocsize homepid blocki : Nat)
    (s : AllocState) : allocLoop cfg pid blocks n fuel allocsize homepid blocki s =
      allocBlocks cfg pid (loopBlocks cfg.hostc blocks n fuel allocsize homepid blocki) s := by
  induction fuel generalizing allocsize homepid blocki s with
  | zero => rfl
  | succ fuel ih =>
      rw [allocLoop, loopBlocks]
      by_cases hpos : 0 < allocsize
      · rw [if_pos hpos, if_pos hpos]
        simp only [ih]
        rfl
      · rw [if_neg hpos, if_neg hpos]
        rfl

theorem dvd_align2page (size : Nat) : Pagesize ∣ align2page size := by
  unfold align2page
  split
  · exact Nat.dvd_of_mod_eq_zero (by assumption)
  · exact Nat.dvd_mul_left _ _

theorem le_align2page (size : Nat) : size ≤ align2page size := by
  unfold align2page
  split
  · exact Nat.le_refl _
  · have hdiv := Nat.div_add_mod size Pagesize
    have hmod := Nat.mod_lt size (show 0 < Pagesize by norm_num)
    rw [Nat.add_mul, Nat.one_mul, Nat.mul_comm]
    omega

theorem loopBlocks_ok {hostc n : Nat} {blocks : Nat → Nat} (hpos : 0 < hostc)
    (hblocks : ∀ i < n, Call.SizeOk (blocks i)) (hn : 0 < n)
    {fuel allocsize homepid blocki : Nat} (hhome : homepid < hostc) (hi : blocki < n) :
    ∀ b ∈ loopBlocks hostc blocks n fuel allocsize homepid blocki, BlockOk hostc b := by
  induction fuel generalizing allocsize homepid blocki with
  | zero =>
      intro b hb
      cases hb
  | succ fuel ih =>
      intro b hb
      rw [loopBlocks] at hb
      split at hb
      · rcases List.mem_cons.mp hb with rfl | hb
        · have hsize := hblocks blocki hi
          exact ⟨hhome, dvd_align2page _, hsize.1.trans_le (le_align2page _), hsize.2⟩
        · refine ih (Nat.mod_lt _ hpos) ?_ b hb
          split
          · exact Nat.mod_lt _ hn
          · exact hi
      · cases hb

/-- The loop goes on until it has all it needs. -/
theorem le_sum_loopBlocks {hostc n : Nat} {blocks : Nat → Nat}
    (hblocks : ∀ i < n, Call.SizeOk (blocks i)) (hn : 0 < n)
    {fuel allocsize homepid blocki : Nat} (hfuel : allocsize ≤ fuel) (hi : blocki < n) :
    allocsize ≤ ((loopBlocks hostc blocks n fuel allocsize homepid blocki).map Prod.snd).sum := by
  induction fuel generalizing allocsize homepid blocki with
  | zero => omega
  | succ fuel ih =>
      rw [loopBlocks]
      split
      · have hsize := (hblocks blocki hi).1.trans_le (le_align2page _)
        have hnext : (if (homepid + 1) % hostc = 0 then (blocki + 1) % n else blocki) < n := by
          split
          · exact Nat.mod_lt _ hn
          · exact hi
        have hfuel' : allocsize - align2page (blocks blocki) ≤ fuel := by omega
        have hrest : allocsize - align2page (blocks blocki) ≤
            ((loopBlocks hostc blocks n fuel (allocsize - align2page (blocks blocki))
              ((homepid + 1) % hostc)
              (if (homepid + 1) % hostc = 0 then (blocki + 1) % n else blocki)).map
                Prod.snd).sum := ih hfuel' hnext
        rw [List.map_cons, List.sum_cons]
        dsimp only
        omega
      · omega

/-- One block, by what the host's tables say. -/
theorem allocBlock_cases (hok : TableOk cfg pid owners s) {z : Nat} (hdvd : Pagesize ∣ z) :
    (Intlimit ≤ Pagesize * owners.count o + z ∧
      allocBlock cfg pid o z s = .error (.undefined "int overflow")) ∨
    (Pagesize * owners.count o + z < Intlimit ∧ pid = o ∧
      Homesize ≤ Pagesize * owners.count o + z ∧
      allocBlock cfg pid o z s = .error (.assert "Too many home pages")) ∨
    (Pagesize * owners.count o + z < Intlimit ∧
      (pid = o → Pagesize * owners.count o + z < Homesize) ∧
      ∃ s', allocBlock cfg pid o z s = .ok s' ∧
        TableOk cfg pid (owners ++ List.replicate (z / Pagesize) o) s' ∧
        s'.starthost = s.starthost) := by
  have hz : z = Pagesize * (z / Pagesize) := (Nat.mul_div_cancel' hdvd).symm
  by_cases hover : Pagesize * owners.count o + z < Intlimit
  · by_cases hfull : pid = o ∧ Homesize ≤ Pagesize * owners.count o + z
    · obtain ⟨rfl, hfull⟩ := hfull
      refine Or.inr (Or.inl ⟨hover, rfl, hfull, ?_⟩)
      have hnot : ¬ Pagesize * owners.count pid + z < Homesize := by omega
      simp only [allocBlock, hok.homesize, defined, hover, if_true, bind, Except.bind, ownBlock,
        jiaAssert, hnot, if_false]
    · refine Or.inr (Or.inr ⟨hover, fun hpid => by omega, ?_⟩)
      have hrun : ∃ s', allocBlock cfg pid o z s = .ok s' := by
        by_cases hpid : pid = o
        · subst hpid
          have hroom : Pagesize * owners.count pid + z < Homesize := by omega
          simp only [allocBlock, hok.homesize, defined, hover, if_true, bind, Except.bind, ownBlock,
            jiaAssert, hroom, pure, Except.pure, Except.ok.injEq, exists_eq']
        · simp only [allocBlock, hok.homesize, defined, hover, if_true, bind, Except.bind, ownBlock,
            hpid, if_false, pure, Except.pure, Except.ok.injEq, exists_eq']
      obtain ⟨s', hs'⟩ := hrun
      exact ⟨s', hs', hok.block hz hs'⟩
  · refine Or.inl ⟨by omega, ?_⟩
    simp only [allocBlock, hok.homesize, defined, hover, if_false, bind, Except.bind]

theorem allocBlocks_fits (hbs : ∀ b ∈ bs, BlockOk cfg.hostc b)
    (hscan : scanBlocks owners bs = .fits owners') (hok : TableOk cfg pid owners s) :
    ∃ s', allocBlocks cfg pid bs s = .ok s' ∧ TableOk cfg pid owners' s' ∧
      s'.starthost = s.starthost := by
  induction bs generalizing owners s with
  | nil =>
      obtain rfl : owners = owners' := Outcome.fits.inj hscan
      exact ⟨s, rfl, hok, rfl⟩
  | cons b bs ih =>
      obtain ⟨o, z⟩ := b
      rw [scanBlocks] at hscan
      split at hscan
      · cases hscan
      · split at hscan
        · cases hscan
        · rename_i hover hfull
          have hb := hbs (o, z) List.mem_cons_self
          rcases allocBlock_cases (o := o) hok hb.dvd with ⟨hlt, -⟩ | ⟨-, -, hle, -⟩ |
            ⟨-, -, s₁, hs₁, hok₁, hstart⟩
          · exact absurd hlt hover
          · exact absurd hle hfull
          · obtain ⟨s', hs', hok', hstart'⟩ :=
              ih (fun b hb => hbs b (List.mem_cons_of_mem _ hb)) hscan hok₁
            refine ⟨s', ?_, hok', hstart'.trans hstart⟩
            rw [allocBlocks, hs₁]
            exact hs'

theorem allocBlocks_full (hbs : ∀ b ∈ bs, BlockOk cfg.hostc b)
    (hscan : scanBlocks owners bs = .full o) (hok : TableOk cfg o owners s) :
    o < cfg.hostc ∧ allocBlocks cfg o bs s = .error (.assert "Too many home pages") := by
  induction bs generalizing owners s with
  | nil => cases hscan
  | cons b bs ih =>
      obtain ⟨o', z⟩ := b
      have hb := hbs (o', z) List.mem_cons_self
      rw [scanBlocks] at hscan
      split at hscan
      · cases hscan
      · rename_i hover
        split at hscan
        · rename_i hfull
          obtain rfl : o' = o := Outcome.full.inj hscan
          rcases allocBlock_cases (o := o') hok hb.dvd with ⟨hlt, -⟩ | ⟨-, -, -, hs₁⟩ | ⟨-, hlt, -⟩
          · exact absurd hlt hover
          · refine ⟨hb.owner_lt, ?_⟩
            rw [allocBlocks, hs₁]
            rfl
          · exact absurd hfull (Nat.not_le.mpr (hlt rfl))
        · rename_i hfull
          rcases allocBlock_cases (o := o') hok hb.dvd with ⟨hlt, -⟩ | ⟨-, -, hle, -⟩ |
            ⟨-, -, s₁, hs₁, hok₁, -⟩
          · exact absurd hlt hover
          · exact absurd hle hfull
          · obtain ⟨hlt, hs'⟩ := ih (fun b hb => hbs b (List.mem_cons_of_mem _ hb)) hscan hok₁
            refine ⟨hlt, ?_⟩
            rw [allocBlocks, hs₁]
            exact hs'

theorem allocBlocks_overflow (hbs : ∀ b ∈ bs, BlockOk cfg.hostc b)
    (hscan : scanBlocks owners bs = .overflow) (hok : TableOk cfg pid owners s) :
    allocBlocks cfg pid bs s = .error (.undefined "int overflow") := by
  induction bs generalizing owners s with
  | nil => cases hscan
  | cons b bs ih =>
      obtain ⟨o, z⟩ := b
      have hb := hbs (o, z) List.mem_cons_self
      rw [scanBlocks] at hscan
      split at hscan
      · rename_i hover
        rcases allocBlock_cases (o := o) hok hb.dvd with ⟨-, hs₁⟩ | ⟨hlt, -⟩ | ⟨hlt, -⟩
        · rw [allocBlocks, hs₁]
          rfl
        · exact absurd hover (Nat.not_le.mpr hlt)
        · exact absurd hover (Nat.not_le.mpr hlt)
      · rename_i hover
        split at hscan
        · cases hscan
        · rename_i hfull
          rcases allocBlock_cases (o := o) hok hb.dvd with ⟨hlt, -⟩ | ⟨-, -, hle, -⟩ |
            ⟨-, -, s₁, hs₁, hok₁, -⟩
          · exact absurd hlt hover
          · exact absurd hle hfull
          · rw [allocBlocks, hs₁]
            exact ih (fun b hb => hbs b (List.mem_cons_of_mem _ hb)) hscan hok₁

end Outcomes

/-! ## Room for the pages -/

/-- The pages fit the home tables of the hosts. -/
structure Room (hostc : Nat) (owners : List Nat) : Prop where
  lt : ∀ h, Pagesize * owners.count h < Homesize
  mem : ∀ h ∈ owners, h < hostc

theorem length_eq_sum_count {k : Nat} {l : List Nat} (h : ∀ x ∈ l, x < k) :
    l.length = ∑ i ∈ Finset.range k, l.count i := by
  induction l with
  | nil => simp
  | cons x l ih =>
      have hx : x < k := h x List.mem_cons_self
      simp only [List.count_cons, Finset.sum_add_distrib, List.length_cons, beq_iff_eq]
      rw [← ih fun y hy => h y (List.mem_cons_of_mem _ hy)]
      simp [hx]

section Room

variable {hostc : Nat} {owners owners' : List Nat} {bs : List (Nat × Nat)}

theorem Room.length_le (hroom : Room hostc owners) (hhost : hostc ≤ Maxhosts) :
    Pagesize * owners.length ≤ 2 ^ 30 := by
  have hcount : ∀ i ∈ Finset.range hostc, owners.count i ≤ Homepages := by
    intro i _
    have := hroom.lt i
    simp only [Homesize, Homepages, Pagesize] at this ⊢
    omega
  have hsum := Finset.sum_le_card_nsmul _ _ _ hcount
  rw [← length_eq_sum_count hroom.mem, Finset.card_range, nsmul_eq_mul, Nat.cast_id] at hsum
  simp only [Homepages, Maxhosts, Pagesize] at *
  omega

theorem room_nil (hostc : Nat) : Room hostc [] where
  lt h := by simp
  mem h hh := by cases hh

theorem scanBlocks_room (hbs : ∀ b ∈ bs, BlockOk hostc b) (hroom : Room hostc owners)
    (hscan : scanBlocks owners bs = .fits owners') :
    Room hostc owners' ∧
      Pagesize * owners'.length = Pagesize * owners.length + (bs.map Prod.snd).sum := by
  induction bs generalizing owners with
  | nil =>
      obtain rfl : owners = owners' := Outcome.fits.inj hscan
      exact ⟨hroom, rfl⟩
  | cons b bs ih =>
      obtain ⟨o, z⟩ := b
      have hb := hbs (o, z) List.mem_cons_self
      have hz : Pagesize * (z / Pagesize) = z := Nat.mul_div_cancel' hb.dvd
      rw [scanBlocks] at hscan
      split at hscan
      · cases hscan
      · split at hscan
        · cases hscan
        · rename_i hfull
          have hroom' : Room hostc (owners ++ List.replicate (z / Pagesize) o) := by
            refine ⟨?_, ?_⟩
            · intro h
              rw [count_append_replicate]
              split
              · rename_i hoh
                subst hoh
                rw [Nat.mul_add, hz]
                omega
              · exact hroom.lt h
            · intro h hh
              rcases List.mem_append.mp hh with hh | hh
              · exact hroom.mem h hh
              · rw [List.eq_of_mem_replicate hh]
                exact hb.owner_lt
          obtain ⟨hr, hlen⟩ := ih (fun b hb => hbs b (List.mem_cons_of_mem _ hb)) hroom' hscan
          refine ⟨hr, ?_⟩
          rw [hlen, List.length_append, List.length_replicate, List.map_cons, List.sum_cons,
            Nat.mul_add, hz, Nat.add_assoc]

end Room

/-! ## One call -/

section Calls

variable {cfg pid} {owners owners' : List Nat} {s s' : AllocState} {st : Int} {c : Call}

/-- A value `starthost` of `jia_alloc` can have. -/
def StartOk (hostc : Nat) (st : Int) : Prop := -1 ≤ st ∧ st < hostc

instance (hostc : Nat) (st : Int) : Decidable (StartOk hostc st) :=
  inferInstanceAs (Decidable (_ ∧ _))

theorem TableOk.start (hok : TableOk cfg pid owners s) (st : Int) :
    TableOk cfg pid owners { s with starthost := st } :=
  ⟨hok.globaladdr, hok.homesize, hok.homepid, hok.homei, hok.homeAddr, hok.free⟩

theorem startOk_succ :
    StartOk cfg.hostc ((st + 1) % cfg.hostc) ∧ ((st + 1) % cfg.hostc).toNat < cfg.hostc := by
  have hpos := cfg.hostc_pos
  have hnonneg : 0 ≤ (st + 1) % (cfg.hostc : Int) := Int.emod_nonneg _ (by omega)
  have hlt : (st + 1) % (cfg.hostc : Int) < cfg.hostc := Int.emod_lt_of_pos _ (by omega)
  exact ⟨⟨by omega, hlt⟩, by omega⟩

theorem blocks_ok (hc : c.Ok cfg.hostc) (hst : StartOk cfg.hostc st) :
    (∀ b ∈ (c.blocks cfg.hostc st).1, BlockOk cfg.hostc b) ∧
      StartOk cfg.hostc (c.blocks cfg.hostc st).2 ∧
      c.totalsize ≤ ((c.blocks cfg.hostc st).1.map Prod.snd).sum ∧
      c.totalsize < Intlimit := by
  have hpos := cfg.hostc_pos
  -- the loop with blocks that are all fine
  have hloop : ∀ (t : Nat) (bs : Nat → Nat) (n h : Nat), Call.SizeOk t → 0 < n →
      (∀ i < n, Call.SizeOk (bs i)) → h < cfg.hostc →
      (∀ b ∈ loopBlocks cfg.hostc bs n (align2page t) (align2page t) h 0, BlockOk cfg.hostc b) ∧
      t ≤ ((loopBlocks cfg.hostc bs n (align2page t) (align2page t) h 0).map Prod.snd).sum ∧
      t < Intlimit := by
    intro t bs n h ht hn hbs hh
    have hle := le_align2page t
    refine ⟨loopBlocks_ok hpos hbs hn hh hn, ?_, hle.trans_lt ht.2⟩
    exact hle.trans (le_sum_loopBlocks hbs hn (Nat.le_refl _) hn)
  cases c with
  | alloc t =>
      have hsucc : StartOk cfg.hostc ((st + 1) % cfg.hostc) ∧ _ := startOk_succ
      obtain ⟨hst', hlt⟩ := hsucc
      obtain ⟨hbs, hsum, ht⟩ := hloop t (fun _ => t) 1 _ hc Nat.one_pos (fun _ _ => hc) hlt
      exact ⟨hbs, hst', hsum, ht⟩
  | alloc2 t b =>
      obtain ⟨hbs, hsum, ht⟩ := hloop t (fun _ => b) 1 0 hc.1 Nat.one_pos (fun _ _ => hc.2) hpos
      exact ⟨hbs, hst, hsum, ht⟩
  | alloc2p t h =>
      obtain ⟨hbs, hsum, ht⟩ := hloop t (fun _ => t) 1 h hc.1 Nat.one_pos (fun _ _ => hc.1) hc.2
      exact ⟨hbs, hst, hsum, ht⟩
  | alloc3 t b h =>
      obtain ⟨hbs, hsum, ht⟩ := hloop t (fun _ => b) 1 h hc.1 Nat.one_pos (fun _ _ => hc.2.1)
        hc.2.2
      exact ⟨hbs, hst, hsum, ht⟩
  | alloc4 t bs h =>
      obtain ⟨ht, hne, hbs, hh⟩ := hc
      have hsizes : ∀ i < bs.length, Call.SizeOk (bs.getD i 0) := by
        intro i hi
        rw [List.getD_eq_getElem _ _ hi]
        exact hbs _ (List.getElem_mem hi)
      obtain ⟨hbs', hsum, ht'⟩ := hloop t (fun i => bs.getD i 0) bs.length h ht
        (List.length_pos_of_ne_nil hne) hsizes hh
      exact ⟨hbs', hst, hsum, ht'⟩

/-- The `int` that keeps `globaladdr` for the result holds it. -/
theorem addOrigin_eq {g : Nat} (hg : g ≤ 2 ^ 30) :
    addOrigin cfg.gstart (BitVec.ofNat 32 g).toInt = cfg.gstart + g := by
  have hle := cfg.gstart_le
  have hint : (BitVec.ofNat 32 g).toInt = g := by
    rw [BitVec.toInt_eq_toNat_of_lt]
    · rw [BitVec.toNat_ofNat, Nat.mod_eq_of_lt (by omega)]
    · rw [BitVec.toNat_ofNat, Nat.mod_eq_of_lt (by omega)]
      omega
  rw [addOrigin, hint, ← Nat.cast_add, BitVec.ofInt_natCast, BitVec.toNat_ofNat]
  apply Nat.mod_eq_of_lt
  simp only [Maxmemsize] at hle
  omega

/-- A call takes its blocks and returns the old end of the shared space. -/
theorem exec_eq (hc : c.Ok cfg.hostc) (hst : StartOk cfg.hostc s.starthost)
    (hok : TableOk cfg pid owners s) (hroom : Room cfg.hostc owners) :
    c.exec cfg pid s =
      (allocBlocks cfg pid (c.blocks cfg.hostc s.starthost).1
        { s with starthost := (c.blocks cfg.hostc s.starthost).2 }).map
        fun s' => (s', cfg.gstart + Pagesize * owners.length) := by
  have hlen := hroom.length_le cfg.hostc_le
  obtain ⟨-, -, -, htotal⟩ := blocks_ok hc hst
  have hspace : Pagesize * owners.length + c.totalsize ≤ Maxmemsize := by
    simp only [Maxmemsize, Intlimit] at htotal ⊢
    omega
  have hall : ∀ (bs : Nat → Nat) (n h : Nat) (st : Int),
      allocate cfg pid c.totalsize bs n h { s with starthost := st } =
        (allocBlocks cfg pid (loopBlocks cfg.hostc bs n (align2page c.totalsize)
          (align2page c.totalsize) h 0) { s with starthost := st }).map
          fun s' => (s', cfg.gstart + Pagesize * owners.length) := by
    intro bs n h st
    simp only [allocate, hok.globaladdr, jiaAssert, hspace, if_true, bind, Except.bind,
      allocLoop_eq, addOrigin_eq hlen]
    cases allocBlocks cfg pid (loopBlocks cfg.hostc bs n (align2page c.totalsize)
      (align2page c.totalsize) h 0) { s with starthost := st } with
    | ok s' => rfl
    | error e => rfl
  cases c with
  | alloc t => exact hall _ _ _ _
  | alloc2 t b => exact hall _ _ _ _
  | alloc2p t h => exact hall _ _ _ _
  | alloc3 t b h => exact hall _ _ _ _
  | alloc4 t bs h => exact hall _ _ _ _

end Calls

/-! ## All calls on all hosts -/

/-- The ranges lie between `lo` and `hi`, each behind the one before. -/
structure Ranges (lo hi : Nat) (calls : List Call) (addrs : List Nat) : Prop where
  length : addrs.length = calls.length
  within : ∀ x ∈ addrs.zip calls, lo ≤ x.1 ∧ x.1 + x.2.totalsize ≤ hi
  disjoint : (addrs.zip calls).Pairwise fun x y => x.1 + x.2.totalsize ≤ y.1

section Run

variable {owners owners' : List Nat} {st : Int} {calls : List Call}

theorem run_fits (hcalls : ∀ c ∈ calls, c.Ok cfg.hostc) (hst : StartOk cfg.hostc st)
    (hroom : Room cfg.hostc owners) (hscan : scanCalls cfg.hostc owners st calls = .fits owners') :
    ∃ addrs, Ranges (cfg.gstart + Pagesize * owners.length)
        (cfg.gstart + Pagesize * owners'.length) calls addrs ∧
      owners.length ≤ owners'.length ∧ Room cfg.hostc owners' ∧
      ∀ pid s, TableOk cfg pid owners s → s.starthost = st →
        ∃ s', run cfg pid calls s = .ok (s', addrs) ∧ TableOk cfg pid owners' s' := by
  induction calls generalizing owners st with
  | nil =>
      obtain rfl : owners = owners' := Outcome.fits.inj hscan
      refine ⟨[], ⟨rfl, ?_, ?_⟩, Nat.le_refl _, hroom, ?_⟩
      · intro x hx
        cases hx
      · exact List.Pairwise.nil
      · intro pid s hok _
        exact ⟨s, rfl, hok⟩
  | cons c calls ih =>
      have hc := hcalls c List.mem_cons_self
      obtain ⟨hbs, hst', hsum, -⟩ := blocks_ok hc hst
      rw [scanCalls] at hscan
      split at hscan
      · rename_i owners₁ hblocks
        obtain ⟨hroom₁, hlen₁⟩ := scanBlocks_room hbs hroom hblocks
        obtain ⟨addrs, hranges, hle, hroom', hrun⟩ :=
          ih (fun c hc => hcalls c (List.mem_cons_of_mem _ hc)) hst' hroom₁ hscan
        have hpage : 0 < Pagesize := by norm_num
        have hle₁ : owners.length ≤ owners₁.length := by
          apply Nat.le_of_mul_le_mul_left _ hpage
          omega
        have hmono := Nat.mul_le_mul_left Pagesize hle
        refine ⟨(cfg.gstart + Pagesize * owners.length) :: addrs, ⟨?_, ?_, ?_⟩, hle₁.trans hle,
          hroom', ?_⟩
        · simp [hranges.length]
        · intro x hx
          rw [List.zip_cons_cons] at hx
          rcases List.mem_cons.mp hx with rfl | hx
          · dsimp only
            omega
          · have hin := hranges.within x hx
            omega
        · rw [List.zip_cons_cons, List.pairwise_cons]
          refine ⟨?_, hranges.disjoint⟩
          intro x hx
          have hin := hranges.within x hx
          dsimp only
          omega
        · intro pid s hok hs
          subst hs
          obtain ⟨s₁, hs₁, hok₁, hstart⟩ := allocBlocks_fits hbs hblocks (hok.start _)
          obtain ⟨s', hs', hok'⟩ := hrun pid s₁ hok₁ hstart
          refine ⟨s', ?_, hok'⟩
          rw [run, exec_eq hc hst hok hroom, hs₁]
          simp only [Except.map, bind, Except.bind, hs', pure, Except.pure]
      · rename_i hne
        exact absurd hscan (hne _)

theorem run_full {o : Nat} {s : AllocState} (hcalls : ∀ c ∈ calls, c.Ok cfg.hostc)
    (hroom : Room cfg.hostc owners) (hst : StartOk cfg.hostc s.starthost)
    (hscan : scanCalls cfg.hostc owners s.starthost calls = .full o)
    (hok : TableOk cfg o owners s) :
    o < cfg.hostc ∧ run cfg o calls s = .error (.assert "Too many home pages") := by
  induction calls generalizing owners s with
  | nil => cases hscan
  | cons c calls ih =>
      have hc := hcalls c List.mem_cons_self
      obtain ⟨hbs, hst', -, -⟩ := blocks_ok hc hst
      rw [run, exec_eq hc hst hok hroom]
      rw [scanCalls] at hscan
      split at hscan
      · rename_i owners₁ hblocks
        have hok₀ := hok.start (c.blocks cfg.hostc s.starthost).2
        obtain ⟨s₁, hs₁, hok₁, hstart⟩ := allocBlocks_fits hbs hblocks hok₀
        dsimp only at hstart
        rw [← hstart] at hst' hscan
        obtain ⟨hlt, hrun⟩ := ih (fun c hc => hcalls c (List.mem_cons_of_mem _ hc))
          (scanBlocks_room hbs hroom hblocks).1 hst' hscan hok₁
        refine ⟨hlt, ?_⟩
        rw [hs₁]
        simp only [Except.map, bind, Except.bind, hrun]
      · obtain ⟨hlt, hs₁⟩ := allocBlocks_full hbs hscan (hok.start _)
        refine ⟨hlt, ?_⟩
        rw [hs₁]
        rfl

theorem run_overflow {pid : Nat} {s : AllocState} (hcalls : ∀ c ∈ calls, c.Ok cfg.hostc)
    (hroom : Room cfg.hostc owners) (hst : StartOk cfg.hostc s.starthost)
    (hscan : scanCalls cfg.hostc owners s.starthost calls = .overflow)
    (hok : TableOk cfg pid owners s) :
    run cfg pid calls s = .error (.undefined "int overflow") := by
  induction calls generalizing owners s with
  | nil => cases hscan
  | cons c calls ih =>
      have hc := hcalls c List.mem_cons_self
      obtain ⟨hbs, hst', -, -⟩ := blocks_ok hc hst
      rw [run, exec_eq hc hst hok hroom]
      rw [scanCalls] at hscan
      split at hscan
      · rename_i owners₁ hblocks
        have hok₀ := hok.start (c.blocks cfg.hostc s.starthost).2
        obtain ⟨s₁, hs₁, hok₁, hstart⟩ := allocBlocks_fits hbs hblocks hok₀
        dsimp only at hstart
        rw [← hstart] at hst' hscan
        have hrun := ih (fun c hc => hcalls c (List.mem_cons_of_mem _ hc))
          (scanBlocks_room hbs hroom hblocks).1 hst' hscan hok₁
        rw [hs₁]
        simp only [Except.map, bind, Except.bind, hrun]
      · have hok₀ := hok.start (c.blocks cfg.hostc s.starthost).2
        have hs₁ := allocBlocks_overflow hbs hscan hok₀
        rw [hs₁]
        rfl

end Run

/-! ## Agreement -/

/-- What the hosts agree on after the calls, with the tables `st` and the
addresses they all return. -/
structure Agreement (calls : List Call) (st : Nat → AllocState) (addrs : List Nat) : Prop where
  run : ∀ pid < cfg.hostc, run cfg pid calls initAlloc = .ok (st pid, addrs)
  same : ∀ pid < cfg.hostc,
    (st pid).globaladdr = (st 0).globaladdr ∧ (st pid).homepid = (st 0).homepid
  /-- The ranges are disjoint and cover what was asked for. -/
  ranges : Ranges cfg.gstart (cfg.gstart + (st 0).globaladdr) calls addrs
  /-- `originaddr` holds every `globaladdr` there was. -/
  origin : (st 0).globaladdr < Intlimit
  /-- Exactly the home of a page has an entry for it. -/
  unique : ∀ p, p * Pagesize < (st 0).globaladdr → ∀ pid < cfg.hostc,
    (∃ i < Homepages, (st pid).homeAddr i = cfg.gstart + p * Pagesize) ↔ (st 0).homepid p = pid
  /-- `page[].homei` and `home[].addr` are inverse to each other. -/
  page : ∀ p, p * Pagesize < (st 0).globaladdr → ∀ pid < cfg.hostc, (st 0).homepid p = pid →
    (st pid).homei p < (st pid).homesize pid / Pagesize ∧
      (st pid).homeAddr ((st pid).homei p) = cfg.gstart + p * Pagesize
  home : ∀ pid < cfg.hostc, ∀ i < (st pid).homesize pid / Pagesize,
    ∃ p, p * Pagesize < (st 0).globaladdr ∧ (st 0).homepid p = pid ∧ (st pid).homei p = i ∧
      (st pid).homeAddr i = cfg.gstart + p * Pagesize
  free : ∀ pid < cfg.hostc, ∀ i, (st pid).homesize pid / Pagesize ≤ i → (st pid).homeAddr i = 0

/-- The claim about a sequence of calls: unless an assert fires on some host, all
hosts end and agree. -/
def Agrees (calls : List Call) : Prop :=
  (∀ pid < cfg.hostc, ∀ msg, run cfg pid calls initAlloc ≠ .error (.assert msg)) →
    ∃ st addrs, Agreement cfg calls st addrs

section Agreement

variable {cfg} {owners : List Nat} {calls : List Call} {st : Nat → AllocState} {addrs : List Nat}

/-- The place of the `i`-th page of a host in the list of owners. -/
theorem exists_count_take {l : List Nat} {h i : Nat} (hi : i < l.count h) :
    ∃ p, l[p]? = some h ∧ (l.take p).count h = i := by
  induction l generalizing i with
  | nil => simp at hi
  | cons x l ih =>
      by_cases hx : x = h
      · subst hx
        cases i with
        | zero => exact ⟨0, rfl, rfl⟩
        | succ i =>
            rw [List.count_cons_self] at hi
            have hi' : i < l.count x := by omega
            obtain ⟨p, hp, hcount⟩ := ih hi'
            exact ⟨p + 1, hp, by rw [List.take_succ_cons, List.count_cons_self, hcount]⟩
      · rw [List.count_cons_of_ne hx] at hi
        obtain ⟨p, hp, hcount⟩ := ih hi
        exact ⟨p + 1, hp, by rw [List.take_succ_cons, List.count_cons_of_ne hx, hcount]⟩

/-- Tables that are all made of one list of owners agree. -/
theorem agreement_of_tables (hroom : Room cfg.hostc owners)
    (hrun : ∀ pid < cfg.hostc, run cfg pid calls initAlloc = .ok (st pid, addrs))
    (hok : ∀ pid < cfg.hostc, TableOk cfg pid owners (st pid))
    (hranges : Ranges cfg.gstart (cfg.gstart + Pagesize * owners.length) calls addrs) :
    Agreement cfg calls st addrs := by
  have h0 := hok 0 cfg.hostc_pos
  have hpage : ∀ p, p * Pagesize < (st 0).globaladdr ↔ p < owners.length := by
    intro p
    rw [h0.globaladdr, Nat.mul_comm]
    exact Nat.mul_lt_mul_left (by norm_num)
  have hpid : ∀ p pid, p < owners.length → ((st 0).homepid p = pid ↔ owners[p]? = some pid) := by
    intro p pid hp
    rw [h0.homepid, List.getD_eq_getElem _ _ hp, List.getElem?_eq_getElem hp, Option.some.injEq]
  have hsize : ∀ pid < cfg.hostc, (st pid).homesize pid / Pagesize = owners.count pid := by
    intro pid hlt
    rw [(hok pid hlt).homesize, Nat.mul_div_cancel_left _ (by norm_num)]
  refine ⟨hrun, ?_, ?_, ?_, ?_, ?_, ?_, ?_⟩
  · intro pid hlt
    refine ⟨(hok pid hlt).globaladdr.trans h0.globaladdr.symm, ?_⟩
    funext p
    rw [(hok pid hlt).homepid, h0.homepid]
  · rwa [h0.globaladdr]
  · have hlen := hroom.length_le cfg.hostc_le
    rw [h0.globaladdr]
    simp only [Intlimit]
    omega
  · intro p hp pid hlt
    rw [hpage] at hp
    rw [hpid p pid hp]
    constructor
    · rintro ⟨i, -, hi⟩
      by_cases hfree : owners.count pid ≤ i
      · rw [(hok pid hlt).free i hfree] at hi
        have hpos := cfg.gstart_pos
        omega
      · obtain ⟨q, hq, hcount⟩ := exists_count_take (Nat.lt_of_not_le hfree)
        have haddr := (hok pid hlt).homeAddr q hq
        rw [hcount, hi] at haddr
        have hpq : p = q := by
          simp only [Pagesize] at haddr
          omega
        rw [hpq]
        exact hq
    · intro howner
      have hcount := count_take_lt howner
      refine ⟨(owners.take p).count pid, ?_, ?_⟩
      · have hlt' := hroom.lt pid
        simp only [Homesize, Homepages, Pagesize] at hlt' ⊢
        omega
      · rw [(hok pid hlt).homeAddr p howner, Nat.mul_comm]
  · intro p hp pid hlt howner
    rw [hpage] at hp
    rw [hpid p pid hp] at howner
    rw [hsize pid hlt, (hok pid hlt).homei p howner, (hok pid hlt).homeAddr p howner,
      Nat.mul_comm]
    exact ⟨count_take_lt howner, rfl⟩
  · intro pid hlt i hi
    rw [hsize pid hlt] at hi
    obtain ⟨p, howner, hcount⟩ := exists_count_take hi
    have hp : p < owners.length := (List.getElem?_eq_some_iff.mp howner).1
    refine ⟨p, (hpage p).mpr hp, (hpid p pid hp).mpr howner, ?_, ?_⟩
    · rw [(hok pid hlt).homei p howner, hcount]
    · rw [← hcount, (hok pid hlt).homeAddr p howner, Nat.mul_comm]
  · intro pid hlt i hi
    rw [hsize pid hlt] at hi
    exact (hok pid hlt).free i hi

/-- Allocation agrees on all hosts unless the size of a block, added to the home
bytes of its owner, is no `int`. -/
theorem alloc_agrees_iff (cfg : Setting) {calls : List Call}
    (hcalls : ∀ c ∈ calls, c.Ok cfg.hostc) : Agrees cfg calls ↔ NoOverflow cfg.hostc calls := by
  have hpos := cfg.hostc_pos
  have hstart : StartOk cfg.hostc initAlloc.starthost := by
    constructor
    · exact Int.le_refl _
    · change (-1 : Int) < _
      omega
  have hroom := room_nil cfg.hostc
  cases hscan : scanCalls cfg.hostc [] (-1) calls with
  | fits owners =>
      have hno : NoOverflow cfg.hostc calls := by
        rw [NoOverflow, hscan]
        nofun
      refine iff_of_true ?_ hno
      intro _
      obtain ⟨addrs, hranges, -, hroom', hrun⟩ := run_fits cfg hcalls hstart hroom hscan
      choose st hst using fun pid => hrun pid initAlloc tableOk_init rfl
      exact ⟨st, addrs, agreement_of_tables hroom' (fun pid _ => (hst pid).1)
        (fun pid _ => (hst pid).2) hranges⟩
  | full o =>
      have hno : NoOverflow cfg.hostc calls := by
        rw [NoOverflow, hscan]
        nofun
      refine iff_of_true ?_ hno
      intro hassert
      obtain ⟨hlt, hrun⟩ := run_full cfg hcalls hroom hstart hscan tableOk_init
      exact absurd hrun (hassert o hlt _)
  | overflow =>
      refine iff_of_false ?_ fun hno => hno hscan
      intro hagrees
      have hrun : ∀ pid, run cfg pid calls initAlloc = .error (.undefined "int overflow") :=
        fun pid => run_overflow cfg hcalls hroom hstart hscan tableOk_init
      obtain ⟨st, addrs, hagree⟩ := hagrees fun pid _ msg h => by
        rw [hrun pid] at h
        cases h
      have hok := hagree.run 0 hpos
      rw [hrun 0] at hok
      cases hok

end Agreement

/-- Two hosts. -/
def twoHosts : Setting := ⟨2, 0x400000000000, Nat.le_of_ble_eq_true rfl, Nat.le_of_ble_eq_true rfl,
    Nat.le_of_ble_eq_true rfl, Nat.le_of_ble_eq_true rfl⟩

/-- Host 0 owns a page, and a block of almost 2 GiB is asked for it. -/
def hugeBlock : List Call := [.alloc3 4096 4096 0, .alloc3 4096 0x7ffff000 0]

theorem hugeBlock_not_agrees : (∀ c ∈ hugeBlock, c.Ok 2) ∧ ¬ Agrees twoHosts hugeBlock := by
  have hok : ∀ c ∈ hugeBlock, c.Ok twoHosts.hostc := by decide
  have hscan : scanCalls twoHosts.hostc [] initAlloc.starthost hugeBlock = .overflow := by
    decide +kernel
  have hstart : StartOk twoHosts.hostc initAlloc.starthost := by decide
  have hrun : ∀ pid, run twoHosts pid hugeBlock initAlloc = .error (.undefined "int overflow") :=
    fun pid => run_overflow twoHosts hok (room_nil _) hstart hscan tableOk_init
  refine ⟨hok, ?_⟩
  intro hagrees
  obtain ⟨st, addrs, hagree⟩ := hagrees fun pid _ msg h => by
    rw [hrun pid] at h
    cases h
  have h0 := hagree.run 0 (by decide)
  rw [hrun 0] at h0
  cases h0

/-- A page for each host. -/
theorem alloc_agrees_onePageEach :
    Agrees twoHosts [.alloc2 8192 4096] ∧ NoOverflow 2 [.alloc2 8192 4096] := by
  have hno : NoOverflow 2 [.alloc2 8192 4096] := by decide +kernel
  exact ⟨(alloc_agrees_iff twoHosts (by decide)).mpr hno, hno⟩

end Jiajia.Alloc
