import Jiajia.Memory

/-!
# Home migration

`migcheckcache`, `migpage` and `migarrangehome` of `mig.c`.
-/

namespace Jiajia

/-- The first index from `i` on, among the next `k`, where `P` holds; else `i + k`. -/
def firstIdx (P : Nat → Bool) : Nat → Nat → Nat
  | 0, i => i
  | k + 1, i => if P i then i else firstIdx P k (i + 1)

section FirstIdx

variable {P : Nat → Bool} {k i : Nat}

theorem firstIdx_le (P : Nat → Bool) (k i : Nat) : firstIdx P k i ≤ i + k := by
  induction k generalizing i with
  | zero => exact Nat.le_refl i
  | succ k ih =>
      simp only [firstIdx]
      split
      · omega
      · have := ih (i + 1)
        omega

theorem le_firstIdx (P : Nat → Bool) (k i : Nat) : i ≤ firstIdx P k i := by
  induction k generalizing i with
  | zero => exact Nat.le_refl i
  | succ k ih =>
      simp only [firstIdx]
      split
      · exact Nat.le_refl i
      · exact (Nat.le_succ i).trans (ih (i + 1))

theorem firstIdx_found (h : firstIdx P k i < i + k) : P (firstIdx P k i) = true := by
  induction k generalizing i with
  | zero =>
      simp only [firstIdx] at h
      omega
  | succ k ih =>
      simp only [firstIdx] at h ⊢
      split
      · assumption
      · rename_i hP
        rw [if_neg hP] at h
        exact ih (by omega)

theorem firstIdx_before {j : Nat} (hi : i ≤ j) (hj : j < firstIdx P k i) : P j = false := by
  induction k generalizing i with
  | zero =>
      simp only [firstIdx] at hj
      omega
  | succ k ih =>
      simp only [firstIdx] at hj
      split at hj
      · omega
      · rename_i hP
        rcases Nat.lt_or_eq_of_le hi with hlt | rfl
        · exact ih hlt hj
        · simpa using hP

end FirstIdx

namespace MemState

variable (cfg : Config) (m : MemState)

/-- The tag `migcheckcache` leaves in an entry of the stack top. -/
def migTag (e : WtntEntry) : BitVec 32 :=
  let s := m.cacheState cfg (m.cachepage cfg e.addr)
  if s = .ro ∨ s = .rw then 1 else e.mig

def migcheckcache (l : WtntList) : WtntList := l.setMig (m.migTag cfg)

/-! ## `migpage` -/

/-- The branch "New Home". -/
def migNewHome (addr : Addr) : Result MemState := do
  let p := cfg.pagei addr
  let cachei := (m.page p).cachei
  jiaAssert (cachei < cfg.cachepages ∧ (m.cache cachei).addr = addr)
    "cache is not right for this addr"
  let homei := firstIdx (fun i => (m.home i).addr == 0) Homepages 0
  jiaAssert (homei < Homepages) "MIG ERROR -- Home exceed in home migration"
  let c := m.cache cachei
  let e := m.home homei
  let m := m.setHome homei
    { e with addr := addr, wtnt := if c.wtnt then 3 else 2, rdnt := true }
  let m := if cfg.wVec then m.setwtvect cfg homei WVFULL else m
  let m := m.setPage p { m.page p with homei := homei, cachei := cfg.cachepages }
  return m.setCache cachei { c with state := .unmap, wtnt := false, addr := 0 }

/-- The branch "Old Home". -/
def migOldHome (addr : Addr) : Result MemState := do
  let p := cfg.pagei addr
  let homei := (m.page p).homei
  jiaAssert (homei < Homepages ∧ (m.home homei).addr = addr)
    "MIG ERROR -- home is not right for this addr"
  let cachei := firstIdx (fun i => (m.cache i).state == .unmap || (m.cache i).state == .inv)
    cfg.cachepages 0
  let m :=
    if cachei < cfg.cachepages then
      let m := if (m.cache cachei).state = .inv then m.flushpage cfg cachei else m
      let m := m.setCache cachei
        { m.cache cachei with
          state := .ro, wtnt := (m.home homei).wtnt &&& 1 = 1, addr := addr }
      m.setPage p { m.page p with cachei := cachei }
    else m.memunmap p
  let m := m.setPage p { m.page p with homei := Homepages }
  let m := m.setHome homei { m.home homei with wtnt := 0, rdnt := false, addr := 0 }
  return if cfg.wVec then m.setwtvect cfg homei WVFULL else m

/-- The role of host `pid` in the migration of a page. -/
def migRole (pid : Nat) (addr : Addr) (homepid modifypid : Nat) : Result MemState :=
  if modifypid = pid ∧ homepid ≠ pid then m.migNewHome cfg addr
  else if modifypid ≠ pid ∧ homepid = pid then m.migOldHome cfg addr
  else .ok m

/-- `migpage(addr, homepid, modifypid)` on host `pid`. -/
def migpage (pid : Nat) (addr : Addr) (homepid modifypid : Nat) : Result MemState := do
  let m ← m.migRole cfg pid addr homepid modifypid
  let p := cfg.pagei addr
  return m.setPage p { m.page p with homepid := modifypid }

/-! ## `migarrangehome` -/

/-- Move home entry `homei` to the free entry `i`. -/
def moveHome (i homei : Nat) : MemState :=
  let e := m.home i
  let e' := m.home homei
  let p := cfg.pagei e'.addr
  let m := m.setPage p { m.page p with homei := i }
  let m := m.setHome i
    { e with
      addr := e'.addr, wtnt := e'.wtnt, rdnt := e'.rdnt
      wtvect := if cfg.wVec then e'.wtvect else e.wtvect
      wvfull := if cfg.wVec then e'.wvfull else e.wvfull }
  m.setHome homei
    { e' with addr := 0, wtvect := if cfg.wVec then e.wtvect else e'.wtvect }

/-- The loop of `migarrangehome`, with `k` entries left from `i` on.  The number
is the value of `i` after the loop. -/
def arrangeLoop : Nat → Nat → MemState → MemState × Nat
  | 0, i, m => (m, i)
  | k + 1, i, m =>
      if (m.home i).addr = 0 then
        let homei := firstIdx (fun j => (m.home j).addr != 0) k (i + 1)
        if homei < Homepages then arrangeLoop k (i + 1) (m.moveHome cfg i homei)
        else (m, i + 1)
      else arrangeLoop k (i + 1) m

def migarrangehome : MemState :=
  let r := arrangeLoop cfg Homepages 0 m
  { r.1 with homesize := (r.2 - 1) * Pagesize }

end MemState

end Jiajia
