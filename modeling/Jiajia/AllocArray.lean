import Jiajia.Alloc

/-!
# Allocation by an array of sizes

`jia_alloc_array` fills `page[].homepid` and the mappings but neither
`page[].homei` nor `home[]`, and it maps every block on every host.
-/

namespace Jiajia.Alloc

variable (cfg : Setting) (pid : Nat)

/-- One turn of the outer loop of `jia_alloc_array`.  The owner only makes its assert;
the mapping stands outside the branch. -/
def arrayBlock (homepid mapsize : Nat) (s : AllocState) : Result AllocState := do
  defined (s.homesize homepid + mapsize < Intlimit) "int overflow"
  jiaAssert (pid = homepid → s.homesize homepid + mapsize < Homesize) "Too many home pages"
  let s := pageLoop homepid (mapBlock cfg mapsize s) (mapsize / Pagesize)
  return { s with
    homesize := upd s.homesize homepid (s.homesize homepid + mapsize)
    globaladdr := s.globaladdr + mapsize }

/-- The outer loop.  The loop over the pages of a block counts with `i` too and leaves it
at `mapsize`, from where the next index is taken. -/
def arrayLoop (array : Nat → Nat) (n : Nat) :
    Nat → Nat → Nat → Nat → AllocState → Result AllocState
  | 0, _, _, _, s => .ok s
  | fuel + 1, allocsize, homepid, i, s =>
      if 0 < allocsize then do
        let mapsize := align2page (array i)
        let s ← arrayBlock cfg pid homepid mapsize s
        arrayLoop array n fuel (allocsize - mapsize) ((homepid + 1) % cfg.hostc)
          ((mapsize + 1) % n) s
      else .ok s

def jiaAllocArray (totalsize : Nat) (array : List Nat) (s : AllocState) :
    Result (AllocState × Nat) := do
  jiaAssert (s.globaladdr + totalsize ≤ Maxmemsize) "Insufficient shared space!"
  jiaAssert (0 < array.length ∧ array.length ≤ cfg.hostc)
    "Error parameter n provided on jia_alloc_array call"
  let originaddr := (BitVec.ofNat 32 s.globaladdr).toInt
  let allocsize := align2page totalsize
  let s ← arrayLoop cfg pid (fun i => array.getD i 0) array.length allocsize allocsize 0 0 s
  return (s, addOrigin cfg.gstart originaddr)

/-! ## What it is for -/

/-- The page-aligned sizes of the first `i` entries. -/
def sizeBefore (array : List Nat) (i : Nat) : Nat := ((array.take i).map align2page).sum

/-- Positive sizes whose page-aligned values add up to `totalsize`, with room for all. -/
structure ArrayArgs (s : AllocState) (totalsize : Nat) (array : List Nat) : Prop where
  ne : array ≠ []
  length : array.length ≤ cfg.hostc
  sizes : ∀ b ∈ array, Call.SizeOk b
  total : totalsize = sizeBefore array array.length
  total_lt : totalsize < Intlimit
  space : s.globaladdr + totalsize ≤ Maxmemsize
  room : ∀ i < array.length, s.homesize i + align2page (array.getD i 0) < Homesize

/-- The page is in the part of the new memory that entry `i` of the array asks for. -/
def InPart (s : AllocState) (array : List Nat) (i p : Nat) : Prop :=
  s.globaladdr + sizeBefore array i ≤ p * Pagesize ∧
    p * Pagesize < s.globaladdr + sizeBefore array (i + 1)

/-- Host `pid` has its share of the array: the pages of entry `i` have host `i` as their
home, that host has them in its home table in order, and it alone maps them. -/
structure Placed (s : AllocState) (totalsize : Nat) (array : List Nat) (s' : AllocState)
    (a : Nat) : Prop where
  address : a = cfg.gstart + s.globaladdr
  globaladdr : s'.globaladdr = s.globaladdr + totalsize
  homesize : ∀ i < array.length, s'.homesize i = s.homesize i + align2page (array.getD i 0)
  homepid : ∀ i < array.length, ∀ p, InPart s array i p → s'.homepid p = i
  entry : pid < array.length → ∀ p, InPart s array pid p →
    s'.homei p = (s.homesize pid + (p * Pagesize - (s.globaladdr + sizeBefore array pid))) / Pagesize ∧
      s'.homeAddr (s'.homei p) = cfg.gstart + p * Pagesize
  mapped : ∀ i < array.length, ∀ p, InPart s array i p → (s'.prot p ≠ .unmapped ↔ i = pid)

/-- The call returns, with the host's share in place. -/
def ArrayPlaced (s : AllocState) (totalsize : Nat) (array : List Nat) : Prop :=
  ∃ s' a, jiaAllocArray cfg pid totalsize array s = .ok (s', a) ∧
    Placed cfg pid s totalsize array s' a

/-! ## States -/

/-- The states of host `pid` after any calls of the allocators. -/
inductive Reached : AllocState → Prop
  | init : Reached initAlloc
  | call {s s' : AllocState} {c : Call} {a : Nat} (hs : Reached s) (hc : c.Ok cfg.hostc)
      (h : c.exec cfg pid s = .ok (s', a)) : Reached s'
  | array {s s' : AllocState} {totalsize : Nat} {array : List Nat} {a : Nat} (hs : Reached s)
      (hargs : ArrayArgs cfg s totalsize array)
      (h : jiaAllocArray cfg pid totalsize array s = .ok (s', a)) : Reached s'

/-- Whole pages are taken, and the home table is empty from `homesize` on. -/
structure Unused (s : AllocState) : Prop where
  globaladdr : Pagesize ∣ s.globaladdr
  homesize : Pagesize ∣ s.homesize pid
  free : ∀ j, s.homesize pid / Pagesize ≤ j → s.homeAddr j = 0

variable {cfg pid} {s s' : AllocState} {o z : Nat}

theorem unused_init : Unused pid initAlloc := ⟨⟨0, rfl⟩, ⟨0, rfl⟩, fun _ _ => rfl⟩

/-- A block leaves the table empty behind its own entries. -/
theorem Unused.allocBlock (hu : Unused pid s) (hz : Pagesize ∣ z)
    (h : allocBlock cfg pid o z s = .ok s') : Unused pid s' := by
  obtain ⟨g, hg⟩ := hu.globaladdr
  obtain ⟨k, hk⟩ := hu.homesize
  obtain ⟨n, hn⟩ := hz
  have hzn : z / Pagesize = n := by
    rw [hn, Nat.mul_div_cancel_left _ (by norm_num)]
  have hkn : s.homesize pid / Pagesize = k := by
    rw [hk, Nat.mul_div_cancel_left _ (by norm_num)]
  simp only [Alloc.allocBlock, hzn, bind_eq_ok, pure, Except.pure, Except.ok.injEq] at h
  obtain ⟨-, -, s₁, hown, rfl⟩ := h
  obtain ⟨hg₁, hh₁, -, ha₁, -⟩ := pageLoop_frame o s₁ n
  unfold ownBlock at hown
  by_cases hpid : pid = o
  · subst hpid
    rw [if_pos rfl] at hown
    simp only [hzn, bind_eq_ok, pure, Except.pure, Except.ok.injEq] at hown
    obtain ⟨-, -, rfl⟩ := hown
    obtain ⟨hg₂, hh₂, -, -⟩ := homeLoop_frame cfg pid (mapBlock cfg z s) n
    have hsize : (mapBlock cfg z s).homesize pid = Pagesize * k := hk
    have hglobal : (mapBlock cfg z s).globaladdr = Pagesize * g := hg
    refine ⟨?_, ?_, ?_⟩
    · rw [hg₁, hg₂]
      exact Nat.dvd_add ⟨g, hg⟩ ⟨n, hn⟩
    · simp only [hh₁, hh₂, upd_same]
      exact Nat.dvd_add ⟨k, hk⟩ ⟨n, hn⟩
    · intro j hj
      simp only [hh₁, hh₂, upd_same] at hj
      rw [hsize, hn, ← Nat.mul_add, Nat.mul_div_cancel_left _ (by norm_num)] at hj
      rw [ha₁, homeLoop_homeAddr hglobal hsize, if_neg (by omega)]
      exact hu.free j (by omega)
  · rw [if_neg hpid, Except.ok.injEq] at hown
    subst hown
    refine ⟨?_, ?_, ?_⟩
    · rw [hg₁]
      exact Nat.dvd_add ⟨g, hg⟩ ⟨n, hn⟩
    · simp only [hh₁, upd_of_ne _ _ hpid]
      exact ⟨k, hk⟩
    · intro j hj
      simp only [hh₁, upd_of_ne _ _ hpid] at hj
      rw [ha₁]
      exact hu.free j hj

theorem Unused.allocLoop {blocks : Nat → Nat} {n fuel allocsize homepid blocki : Nat}
    (hu : Unused pid s)
    (h : allocLoop cfg pid blocks n fuel allocsize homepid blocki s = .ok s') : Unused pid s' := by
  induction fuel generalizing allocsize homepid blocki s with
  | zero => exact Except.ok.inj h ▸ hu
  | succ fuel ih =>
      rw [Alloc.allocLoop] at h
      split at h
      · simp only [bind_eq_ok] at h
        obtain ⟨s₁, hblock, h⟩ := h
        exact ih (hu.allocBlock (dvd_align2page _) hblock) h
      · exact Except.ok.inj h ▸ hu

theorem Unused.start (hu : Unused pid s) (st : Int) : Unused pid { s with starthost := st } :=
  ⟨hu.globaladdr, hu.homesize, hu.free⟩

theorem Unused.exec {c : Call} {a : Nat} (hu : Unused pid s)
    (h : c.exec cfg pid s = .ok (s', a)) : Unused pid s' := by
  have hall : ∀ {t n st : Nat} {blocks : Nat → Nat} {s : AllocState}, Unused pid s →
      allocate cfg pid t blocks n st s = .ok (s', a) → Unused pid s' := by
    intro t n st blocks s hu h
    simp only [allocate, bind_eq_ok, pure, Except.pure, Except.ok.injEq, Prod.mk.injEq] at h
    obtain ⟨-, -, s₁, hloop, rfl, -⟩ := h
    exact hu.allocLoop hloop
  cases c with
  | alloc t => exact hall (hu.start _) h
  | alloc2 t b => exact hall hu h
  | alloc2p t o => exact hall hu h
  | alloc3 t b o => exact hall hu h
  | alloc4 t bs o => exact hall hu h

/-! ## What the call does -/

theorem arrayBlock_ok (h : arrayBlock cfg pid o z s = .ok s') :
    s'.globaladdr = s.globaladdr + z ∧ s'.homesize = upd s.homesize o (s.homesize o + z) ∧
      s'.homeAddr = s.homeAddr ∧ s'.prot = (mapBlock cfg z s).prot := by
  simp only [arrayBlock, bind_eq_ok, pure, Except.pure, Except.ok.injEq] at h
  obtain ⟨-, -, -, -, rfl⟩ := h
  have hprot : ∀ (s : AllocState) (k : Nat), (pageLoop o s k).prot = s.prot := by
    intro s k
    induction k with
    | zero => rfl
    | succ k ih => exact ih
  obtain ⟨hg, hh, -, ha, -⟩ := pageLoop_frame o (mapBlock cfg z s) (z / Pagesize)
  exact ⟨by rw [hg]; rfl, by rw [hh]; rfl, ha, hprot _ _⟩

theorem mapBlock_mapped {p : Nat} (h : s.prot p ≠ .unmapped) :
    (mapBlock cfg z s).prot p ≠ .unmapped := by
  simp only [mapBlock]
  split
  · split <;> simp
  · exact h

theorem mapBlock_maps {p : Nat} (hle : s.globaladdr / Pagesize ≤ p)
    (hlt : p < (s.globaladdr + z) / Pagesize) : (mapBlock cfg z s).prot p ≠ .unmapped := by
  simp only [mapBlock]
  rw [if_pos ⟨hle, hlt⟩]
  split <;> simp

theorem arrayLoop_ok {array : Nat → Nat} {n fuel allocsize homepid i : Nat}
    (h : arrayLoop cfg pid array n fuel allocsize homepid i s = .ok s') :
    s'.homeAddr = s.homeAddr ∧ ∀ p, s.prot p ≠ .unmapped → s'.prot p ≠ .unmapped := by
  induction fuel generalizing allocsize homepid i s with
  | zero => exact Except.ok.inj h ▸ ⟨rfl, fun _ hp => hp⟩
  | succ fuel ih =>
      rw [arrayLoop] at h
      split at h
      · simp only [bind_eq_ok] at h
        obtain ⟨s₁, hblock, h⟩ := h
        obtain ⟨-, -, haddr, hprot⟩ := arrayBlock_ok hblock
        obtain ⟨haddr', hmap⟩ := ih h
        refine ⟨haddr'.trans haddr, ?_⟩
        intro p hp
        apply hmap
        rw [hprot]
        exact mapBlock_mapped hp
      · exact Except.ok.inj h ▸ ⟨rfl, fun _ hp => hp⟩

theorem Unused.arrayLoop {array : Nat → Nat} {n fuel allocsize homepid i : Nat}
    (hu : Unused pid s)
    (h : arrayLoop cfg pid array n fuel allocsize homepid i s = .ok s') : Unused pid s' := by
  induction fuel generalizing allocsize homepid i s with
  | zero => exact Except.ok.inj h ▸ hu
  | succ fuel ih =>
      rw [Alloc.arrayLoop] at h
      split at h
      · simp only [bind_eq_ok] at h
        obtain ⟨s₁, hblock, h⟩ := h
        obtain ⟨hg, hh, ha, -⟩ := arrayBlock_ok hblock
        refine ih ⟨?_, ?_, ?_⟩ h
        · rw [hg]
          exact Nat.dvd_add hu.globaladdr (dvd_align2page _)
        · rw [hh, upd_apply]
          split
          · rename_i heq
            exact Nat.dvd_add (heq ▸ hu.homesize) (dvd_align2page _)
          · exact hu.homesize
        · intro j hj
          rw [ha]
          apply hu.free
          refine le_trans (Nat.div_le_div_right ?_) hj
          rw [hh, upd_apply]
          split
          · rename_i heq
            rw [heq]
            exact Nat.le_add_right _ _
          · exact Nat.le_refl _
      · exact Except.ok.inj h ▸ hu

theorem jiaAllocArray_loop {totalsize a : Nat} {array : List Nat}
    (h : jiaAllocArray cfg pid totalsize array s = .ok (s', a)) :
    arrayLoop cfg pid (fun i => array.getD i 0) array.length (align2page totalsize)
      (align2page totalsize) 0 0 s = .ok s' := by
  simp only [jiaAllocArray, bind_eq_ok, pure, Except.pure, Except.ok.injEq, Prod.mk.injEq] at h
  obtain ⟨-, -, -, -, s₁, hloop, rfl, -⟩ := h
  exact hloop

theorem Reached.unused (hs : Reached cfg pid s) : Unused pid s := by
  induction hs with
  | init => exact unused_init
  | call _ _ h ih => exact ih.exec h
  | array _ _ h ih => exact ih.arrayLoop (jiaAllocArray_loop h)

/-- The first page of the new memory is in the first part. -/
theorem inPart_first {totalsize : Nat} {array : List Nat} (hu : Unused pid s)
    (hargs : ArrayArgs cfg s totalsize array) : InPart s array 0 (s.globaladdr / Pagesize) := by
  cases array with
  | nil => exact absurd rfl hargs.ne
  | cons b bs =>
      have hpos := (hargs.sizes b List.mem_cons_self).1
      have hle := le_align2page b
      rw [InPart, Nat.div_mul_cancel hu.globaladdr]
      simp [sizeBefore]
      omega

/-- The pages of the first block are mapped by every host. -/
theorem first_mapped {totalsize a : Nat} {array : List Nat} (hu : Unused pid s)
    (hargs : ArrayArgs cfg s totalsize array)
    (h : jiaAllocArray cfg pid totalsize array s = .ok (s', a)) :
    s'.prot (s.globaladdr / Pagesize) ≠ .unmapped := by
  have hloop := jiaAllocArray_loop h
  cases array with
  | nil => exact absurd rfl hargs.ne
  | cons b bs =>
      obtain ⟨g, hg⟩ := hu.globaladdr
      obtain ⟨n, hn⟩ := dvd_align2page b
      have hpos : 0 < align2page b :=
        (hargs.sizes b List.mem_cons_self).1.trans_le (le_align2page b)
      have htotal : align2page b ≤ totalsize := by
        rw [hargs.total]
        simp [sizeBefore]
      have hfuel : align2page totalsize = align2page totalsize - 1 + 1 := by
        have hle := le_align2page totalsize
        omega
      rw [hfuel, arrayLoop, if_pos (by omega)] at hloop
      simp only [bind_eq_ok] at hloop
      obtain ⟨s₁, hblock, hrest⟩ := hloop
      obtain ⟨-, -, -, hprot⟩ := arrayBlock_ok hblock
      apply (arrayLoop_ok hrest).2
      rw [hprot]
      apply mapBlock_maps (Nat.le_refl _)
      have hb : align2page ((b :: bs).getD 0 0) = Pagesize * n := hn
      have hn0 : 0 < n := by
        rw [hn] at hpos
        exact Nat.pos_of_mul_pos_left hpos
      rw [hb, hg, ← Nat.mul_add, Nat.mul_div_cancel_left _ (by norm_num),
        Nat.mul_div_cancel_left _ (by norm_num)]
      omega

/-- On no host is the array ever placed: host 0 has no entry for its pages, and every other
host maps the pages of host 0. -/
theorem array_never_placed (hs : Reached cfg pid s) {totalsize : Nat} {array : List Nat}
    (hargs : ArrayArgs cfg s totalsize array) : ¬ ArrayPlaced cfg pid s totalsize array := by
  rintro ⟨s', a, hcall, hplaced⟩
  have hu := hs.unused
  have hpart := inPart_first hu hargs
  have hlen : 0 < array.length := List.length_pos_iff.mpr hargs.ne
  by_cases hpid : pid = 0
  · subst hpid
    obtain ⟨hindex, hentry⟩ := hplaced.entry hlen _ hpart
    have hzero : s.globaladdr / Pagesize * Pagesize - (s.globaladdr + sizeBefore array 0) = 0 := by
      rw [Nat.div_mul_cancel hu.globaladdr]
      simp [sizeBefore]
    rw [hzero, Nat.add_zero] at hindex
    rw [hindex, (arrayLoop_ok (jiaAllocArray_loop hcall)).1, hu.free _ (Nat.le_refl _)] at hentry
    have hpos := cfg.gstart_pos
    omega
  · have hmapped := (hplaced.mapped 0 hlen _ hpart).mp (first_mapped hu hargs hcall)
    exact hpid hmapped.symm

/-- Two pages, one for each host. -/
theorem onePageEach_args : ArrayArgs twoHosts initAlloc 8192 [4096, 4096] where
  ne := by decide
  length := by decide
  sizes := by decide
  total := by decide
  total_lt := by decide
  space := by decide
  room := by decide

theorem array_never_placed_first : ¬ ArrayPlaced twoHosts 1 initAlloc 8192 [4096, 4096] :=
  array_never_placed .init onePageEach_args

/-- After `jia_alloc_array(8192, {4096, 4096}, 2)` host 0 has no entry for its page. -/
theorem first_page_without_entry :
    ArrayArgs twoHosts initAlloc 8192 [4096, 4096] ∧
      ¬ ArrayPlaced twoHosts 0 initAlloc 8192 [4096, 4096] := by
  refine ⟨onePageEach_args, ?_⟩
  rintro ⟨s', a, hcall, hplaced⟩
  obtain ⟨-, hentry⟩ := hplaced.entry (by decide) 0 ⟨by decide, by decide⟩
  rw [(arrayLoop_ok (jiaAllocArray_loop hcall)).1] at hentry
  have hzero : (0 : Nat) = twoHosts.gstart + 0 * Pagesize := hentry
  exact absurd hzero (by decide)

end Jiajia.Alloc
