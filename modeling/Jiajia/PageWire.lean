import Jiajia.DiffWire
import Jiajia.EarlyReply

/-!
# Pages on the wire

`getpserver` appends to a GETPGRANT message the number of pages, the address and the
contents of the requested page, and then the other pages.  With write vectors only
some blocks of the requested page are appended, and the rest of a page is skipped.
`getpgrantserver` walks through the bytes again.
-/

namespace Jiajia.PageWire

open Bytes
open DiffWire (bytes ofBytes memcpy Blocksize bytestoi s2l unitBytes)

/-- `size` and `data` of a message; the bytes from `size` on are left over. -/
structure Rep where
  size : Nat
  data : Buffer

def appendmsg (rep : Rep) (str : List Byte) : Result Rep := do
  jiaAssert (rep.size + str.length ≤ Maxmsgsize) "Message too large"
  return ⟨rep.size + str.length, write rep.data rep.size str⟩

/-! ## `getpserver` -/

/-- The bytes of block `i` of a page. -/
def blockBytes (pg : Page) (i : Nat) : List Byte := readBytes (bytes pg) (i * Blocksize) Blocksize

/-- The bytes of a page. -/
def pageBytes (pg : Page) : List Byte := readBytes (bytes pg) 0 Pagesize

/-- The loop over the blocks of a write vector, with `occupysize`. -/
def appendBlocks (wv : BitVec Wvbits) (pg : Page) : List Nat → Rep → Nat → Result (Rep × Nat)
  | [], rep, occupysize => .ok (rep, occupysize)
  | i :: is, rep, occupysize =>
      if wv.getLsbD i then do
        let rep ← appendmsg rep (blockBytes pg i)
        appendBlocks wv pg is rep (occupysize + Blocksize)
      else appendBlocks wv pg is rep occupysize

/-- The requested page; `compact` when write vectors are on and the requester has a copy. -/
def appendPage (compact : Bool) (wv : BitVec Wvbits) (pg : Page) (rep : Rep) : Result Rep :=
  if compact then do
    let (rep, occupysize) ← appendBlocks wv pg (List.range Wvbits) rep 0
    return { rep with size := rep.size + (Pagesize - occupysize) }
  else appendmsg rep (pageBytes pg)

def appendExtras : List ExtraPage → Rep → Result Rep
  | [], rep => .ok rep
  | x :: xs, rep => do
      let rep ← appendmsg rep (toLE Addrbytes x.addr.toNat)
      let rep ← appendmsg rep (pageBytes x.data)
      appendExtras xs rep

/-- The GETPGRANT message that `getpserver` builds in a buffer with left-over bytes. -/
def grantMsg (compact : Bool) (addr : Addr) (wv : BitVec Wvbits) (pg : Page)
    (extra : List ExtraPage) (old : Buffer) : Result Rep := do
  let rep ← appendmsg ⟨0, old⟩ (toLE Intbytes (1 + extra.length))
  let rep ← appendmsg rep (toLE Addrbytes addr.toNat)
  let rep ← appendPage compact wv pg rep
  appendExtras extra rep

/-! ## `getpgrantserver` -/

/-- The loop over the blocks: the page, `datai` and `occupysize`. -/
def copyBlocks (wv : BitVec Wvbits) (b : Buffer) : List Nat → Page → Nat → Nat → Page × Nat × Nat
  | [], pg, datai, occupysize => (pg, datai, occupysize)
  | i :: is, pg, datai, occupysize =>
      if wv.getLsbD i then
        copyBlocks wv b is (memcpy pg (i * Blocksize) (readBytes b datai Blocksize))
          (datai + Blocksize) (occupysize + Blocksize)
      else copyBlocks wv b is pg datai occupysize

/-- The contents of the requested page, and `datai` behind it. -/
def copyPage (cfg : Config) (wv : BitVec Wvbits) (b : Buffer) (pg : Page) (datai : Nat) :
    Page × Nat :=
  if cfg.wVec ∧ wv ≠ WVFULL then
    let (pg, datai, occupysize) := copyBlocks wv b (List.range Wvbits) pg datai 0
    (pg, datai + (Pagesize - occupysize))
  else (memcpy pg 0 (readBytes b datai Pagesize), datai + Pagesize)

/-- The loop over the other pages: `k` turns are left. -/
def copyExtras (cfg : Config) (b : Buffer) : Nat → Nat → MemState → List Nat → Result MemState
  | 0, _, m, _ => .ok m
  | k + 1, datai, m, rnd => do
      let addr := s2l b datai
      let datai := datai + Addrbytes
      let x : ExtraPage := ⟨addr, memcpy zeroPage 0 (readBytes b datai Pagesize)⟩
      let m ← m.installExtra cfg x (rnd.headD 0)
      copyExtras cfg b k (datai + Pagesize) m rnd.tail

/-- `getpgrantserver` on a message with vector `temp` and bytes `b`. -/
def getpgrantserver (cfg : Config) (m : MemState) (temp : BitVec Wvbits) (b : Buffer)
    (rnd : List Nat) : Result MemState := do
  let num := (bytestoi b 0).toInt
  let addr := s2l b Intbytes
  let p := cfg.pagei addr
  defined (m.prot p = .readWrite) "copy to a page that is not writable"
  let (pg, datai) := copyPage cfg temp b (m.mem p) (Intbytes + Addrbytes)
  let m ← copyExtras cfg b (num - 1).toNat datai (m.setMem p pg) rnd
  return { m with getpwait := false }

/-- The page at `datai`. -/
def extraAt (b : Buffer) (datai : Nat) : ExtraPage :=
  ⟨s2l b datai, memcpy zeroPage 0 (readBytes b (datai + Addrbytes) Pagesize)⟩

/-- The loop over the other pages, with the entry of the fault handler written at some time. -/
def copyExtrasMarked (cfg : Config) (w : MemState.FaultWait) (b : Buffer) :
    MemState.MarkTime → Nat → Nat → MemState → List Nat → Result MemState
  | .before 0, k, datai, m, rnd => copyExtras cfg b k datai (m.markSlot cfg w) rnd
  | _, 0, _, m, _ => .ok (m.markSlot cfg w)
  | .before (i + 1), k + 1, datai, m, rnd => do
      let m ← m.installExtra cfg (extraAt b datai) (rnd.headD 0)
      copyExtrasMarked cfg w b (.before i) k (datai + Addrbytes + Pagesize) m rnd.tail
  | .search 0, k + 1, datai, m, rnd => do
      let m ← m.installExtraMarked cfg w (extraAt b datai) (rnd.headD 0)
      copyExtras cfg b k (datai + Addrbytes + Pagesize) m rnd.tail
  | .search (i + 1), k + 1, datai, m, rnd => do
      let m ← m.installExtra cfg (extraAt b datai) (rnd.headD 0)
      copyExtrasMarked cfg w b (.search i) k (datai + Addrbytes + Pagesize) m rnd.tail

/-- `getpgrantserver` with the entry of the fault handler written at time `t`. -/
def getpgrantserverMarked (cfg : Config) (w : MemState.FaultWait) (t : MemState.MarkTime)
    (m : MemState) (temp : BitVec Wvbits) (b : Buffer) (rnd : List Nat) : Result MemState := do
  let num := (bytestoi b 0).toInt
  let addr := s2l b Intbytes
  let p := cfg.pagei addr
  defined (m.prot p = .readWrite) "copy to a page that is not writable"
  let (pg, datai) := copyPage cfg temp b (m.mem p) (Intbytes + Addrbytes)
  let m ← copyExtrasMarked cfg w b t (num - 1).toNat datai (m.setMem p pg) rnd
  return { m with getpwait := false }

/-! ## Blocks and pages as bytes -/

/-- `n` units of a page from `start` on. -/
def run (pg : Page) (start n : Nat) : DiffRun := ⟨start, (List.range' start n).map pg.unit⟩

theorem readBytes_run (pg : Page) (start n : Nat) :
    readBytes (bytes pg) (Diffunit * start) (Diffunit * n) =
      (run pg start n).units.flatMap unitBytes := by
  have hread := (DiffWire.at_units pg start n).readBytes
  have hlen : (((List.range' start n).map pg.unit).flatMap unitBytes).length = Diffunit * n := by
    rw [length_flatMap_const DiffWire.length_unitBytes, List.length_map, List.length_range']
  rw [hlen] at hread
  exact hread

theorem run_apply (pg old : Page) (start n : Nat) (u : Fin Pageunits) :
    (run pg start n).apply old u =
      if start ≤ u.val ∧ u.val < start + n then pg u else old u := by
  have hlen : (run pg start n).units.length = n := by
    rw [run, List.length_map, List.length_range']
  split
  · rename_i hin
    have hlt : u.val < (run pg start n).start + (run pg start n).units.length := by
      rw [hlen]
      exact hin.2
    rw [DiffRun.apply_of_mem hin.1 hlt]
    simp only [run, List.get_eq_getElem, List.getElem_map, List.getElem_range', Nat.one_mul]
    rw [Nat.add_sub_cancel' hin.1, Page.unit_val]
  · rename_i hout
    apply DiffRun.apply_of_not_mem
    rw [hlen]
    show u.val < start ∨ start + n ≤ u.val
    omega

/-- A block copied into a page. -/
theorem memcpy_block (pg old : Page) (i : Nat) (u : Fin Pageunits) :
    memcpy old (i * Blocksize) (blockBytes pg i) u =
      if u.val / Blockunits = i then pg u else old u := by
  have hoff : i * Blocksize = Diffunit * (i * Blockunits) := by
    simp only [Blocksize, Pagesize, Wvbits, Diffunit, Blockunits, Pageunits]
    omega
  have hsize : Blocksize = Diffunit * Blockunits := by decide
  rw [blockBytes, hoff, hsize, readBytes_run]
  have hcopy := DiffWire.memcpy_units old (run pg (i * Blockunits) Blockunits)
  have hstart : (run pg (i * Blockunits) Blockunits).start = i * Blockunits := rfl
  rw [hstart] at hcopy
  rw [hcopy, run_apply]
  have hiff : (i * Blockunits ≤ u.val ∧ u.val < i * Blockunits + Blockunits) ↔
      u.val / Blockunits = i := by
    simp only [Blockunits, Pageunits, Pagesize, Diffunit, Wvbits]
    omega
  simp only [hiff]

/-- A whole page copied over another. -/
theorem memcpy_page (pg old : Page) : memcpy old 0 (pageBytes pg) = pg := by
  have hsize : Pagesize = Diffunit * Pageunits := by decide
  ext1 u
  have hread := readBytes_run pg 0 Pageunits
  rw [Nat.mul_zero, ← hsize] at hread
  have hcopy := DiffWire.memcpy_units old (run pg 0 Pageunits)
  have hstart : (run pg 0 Pageunits).start = 0 := rfl
  rw [hstart, Nat.mul_zero] at hcopy
  rw [pageBytes, hread, hcopy, run_apply, if_pos ⟨Nat.zero_le _, by omega⟩]

@[simp] theorem length_blockBytes (pg : Page) (i : Nat) : (blockBytes pg i).length = Blocksize :=
  length_readBytes _ _ _

@[simp] theorem length_pageBytes (pg : Page) : (pageBytes pg).length = Pagesize :=
  length_readBytes _ _ _

/-! ## What a message holds -/

/-- `rep'` is `rep` with `bs` appended. -/
structure Appended (rep : Rep) (bs : List Byte) (rep' : Rep) : Prop where
  at_size : At rep'.data rep.size bs
  size : rep'.size = rep.size + bs.length
  before : ∀ i < rep.size, rep'.data i = rep.data i

theorem Appended.nil (rep : Rep) : Appended rep [] rep := ⟨at_nil, rfl, fun _ _ => rfl⟩

theorem Appended.trans {rep rep' rep'' : Rep} {bs cs : List Byte} (h : Appended rep bs rep')
    (h' : Appended rep' cs rep'') : Appended rep (bs ++ cs) rep'' where
  at_size := by
    rw [at_append]
    constructor
    · intro i hi
      rw [h'.before _ (by rw [h.size]; omega), h.at_size i hi]
    · rw [← h.size]
      exact h'.at_size
  size := by rw [h'.size, h.size, List.length_append, Nat.add_assoc]
  before i hi := by rw [h'.before i (by rw [h.size]; omega), h.before i hi]

theorem appendmsg_ok {rep : Rep} {bs : List Byte} (hfit : rep.size + bs.length ≤ Maxmsgsize) :
    ∃ rep', appendmsg rep bs = .ok rep' ∧ Appended rep bs rep' := by
  refine ⟨⟨rep.size + bs.length, write rep.data rep.size bs⟩, ?_, at_write _ _ _, rfl, ?_⟩
  · rw [appendmsg, jiaAssert, if_pos hfit]
    rfl
  · exact fun i hi => write_apply_of_lt _ _ hi

/-- The bytes of the blocks in a vector. -/
def blocksBytes (wv : BitVec Wvbits) (pg : Page) (is : List Nat) : List Byte :=
  is.flatMap fun i => if wv.getLsbD i then blockBytes pg i else []

theorem length_blocksBytes_le (wv : BitVec Wvbits) (pg : Page) (is : List Nat) :
    (blocksBytes wv pg is).length ≤ is.length * Blocksize := by
  induction is with
  | nil => exact Nat.zero_le _
  | cons i is ih =>
      have hcons : blocksBytes wv pg (i :: is) =
          (if wv.getLsbD i then blockBytes pg i else []) ++ blocksBytes wv pg is := rfl
      have hone : (if wv.getLsbD i = true then blockBytes pg i else []).length ≤ Blocksize := by
        split
        · exact le_of_eq (length_blockBytes pg i)
        · exact Nat.zero_le _
      rw [hcons, List.length_append, List.length_cons, Nat.succ_mul]
      omega

theorem appendBlocks_ok {wv : BitVec Wvbits} {pg : Page} {is : List Nat} {rep : Rep} {occ : Nat}
    (hfit : rep.size + is.length * Blocksize ≤ Maxmsgsize) :
    ∃ rep', appendBlocks wv pg is rep occ = .ok (rep', occ + (blocksBytes wv pg is).length) ∧
      Appended rep (blocksBytes wv pg is) rep' := by
  induction is generalizing rep occ with
  | nil => exact ⟨rep, rfl, .nil rep⟩
  | cons i is ih =>
      rw [List.length_cons, Nat.succ_mul] at hfit
      have hcons : blocksBytes wv pg (i :: is) =
          (if wv.getLsbD i then blockBytes pg i else []) ++ blocksBytes wv pg is := rfl
      by_cases hbit : wv.getLsbD i = true
      · have hroom : rep.size + (blockBytes pg i).length ≤ Maxmsgsize := by
          rw [length_blockBytes]
          omega
        obtain ⟨rep₁, hone, happ⟩ := appendmsg_ok hroom
        have hsize := happ.size
        rw [length_blockBytes] at hsize
        have hfit₁ : rep₁.size + is.length * Blocksize ≤ Maxmsgsize := by omega
        obtain ⟨rep', hrest, happ'⟩ := @ih rep₁ (occ + Blocksize) hfit₁
        refine ⟨rep', ?_, ?_⟩
        · rw [appendBlocks, if_pos hbit, hone]
          show appendBlocks wv pg is rep₁ (occ + Blocksize) = _
          rw [hrest, hcons, if_pos hbit, List.length_append, length_blockBytes, Nat.add_assoc]
        · rw [hcons, if_pos hbit]
          exact happ.trans happ'
      · have hfit₁ : rep.size + is.length * Blocksize ≤ Maxmsgsize := by omega
        obtain ⟨rep', hrest, happ'⟩ := @ih rep occ hfit₁
        refine ⟨rep', ?_, ?_⟩
        · rw [appendBlocks, if_neg hbit, hrest, hcons, if_neg hbit, List.nil_append]
        · rw [hcons, if_neg hbit, List.nil_append]
          exact happ'

/-- The bytes of the other pages. -/
def extraBytes (x : ExtraPage) : List Byte := toLE Addrbytes x.addr.toNat ++ pageBytes x.data

@[simp] theorem length_extraBytes (x : ExtraPage) : (extraBytes x).length = Addrbytes + Pagesize := by
  rw [extraBytes, List.length_append, length_toLE, length_pageBytes]

theorem appendExtras_ok {xs : List ExtraPage} {rep : Rep}
    (hfit : rep.size + (Addrbytes + Pagesize) * xs.length ≤ Maxmsgsize) :
    ∃ rep', appendExtras xs rep = .ok rep' ∧ Appended rep (xs.flatMap extraBytes) rep' := by
  induction xs generalizing rep with
  | nil => exact ⟨rep, rfl, .nil rep⟩
  | cons x xs ih =>
      rw [List.length_cons, Nat.mul_succ] at hfit
      have hlenaddr : (toLE Addrbytes x.addr.toNat).length = Addrbytes := length_toLE _ _
      have hroom : rep.size + (toLE Addrbytes x.addr.toNat).length ≤ Maxmsgsize := by
        rw [hlenaddr]
        omega
      obtain ⟨rep₁, haddr, happ₁⟩ := appendmsg_ok hroom
      have hsize₁ : rep₁.size = rep.size + Addrbytes := by rw [happ₁.size, hlenaddr]
      have hlenpage := length_pageBytes x.data
      have hroom₁ : rep₁.size + (pageBytes x.data).length ≤ Maxmsgsize := by omega
      obtain ⟨rep₂, hpage, happ₂⟩ := appendmsg_ok hroom₁
      have hsize₂ : rep₂.size = rep₁.size + Pagesize := by rw [happ₂.size, hlenpage]
      have hfit₂ : rep₂.size + (Addrbytes + Pagesize) * xs.length ≤ Maxmsgsize := by omega
      obtain ⟨rep', hrest, happ'⟩ := ih hfit₂
      refine ⟨rep', ?_, ?_⟩
      · simp only [appendExtras, bind_eq_ok]
        exact ⟨rep₁, haddr, rep₂, hpage, hrest⟩
      · rw [List.flatMap_cons]
        exact (happ₁.trans happ₂).trans happ'

/-! ## Reading the message -/

theorem copyBlocks_at {wv : BitVec Wvbits} {b : Buffer} {pg old : Page} {is : List Nat}
    {datai occ : Nat} (hat : At b datai (blocksBytes wv pg is)) :
    copyBlocks wv b is old datai occ =
      (fun u => if u.val / Blockunits ∈ is ∧ wv.getLsbD (u.val / Blockunits) then pg u else old u,
        datai + (blocksBytes wv pg is).length, occ + (blocksBytes wv pg is).length) := by
  induction is generalizing old datai occ with
  | nil => simp [copyBlocks, blocksBytes]
  | cons i is ih =>
      have hcons : blocksBytes wv pg (i :: is) =
          (if wv.getLsbD i then blockBytes pg i else []) ++ blocksBytes wv pg is := rfl
      rw [hcons] at hat ⊢
      by_cases hbit : wv.getLsbD i = true
      · rw [if_pos hbit, at_append, length_blockBytes] at hat
        have hread := hat.1.readBytes
        rw [length_blockBytes] at hread
        rw [copyBlocks, if_pos hbit, hread, ih hat.2, if_pos hbit, List.length_append,
          length_blockBytes, Nat.add_assoc, Nat.add_assoc, Prod.mk.injEq]
        refine ⟨?_, rfl⟩
        ext1 u
        rw [memcpy_block]
        by_cases hu : u.val / Blockunits = i
        · rw [if_pos hu, ite_self, if_pos ⟨List.mem_cons.mpr (.inl hu), hu ▸ hbit⟩]
        · rw [if_neg hu]
          simp only [List.mem_cons, hu, false_or]
      · rw [if_neg hbit, List.nil_append] at hat ⊢
        rw [copyBlocks, if_neg hbit, ih hat, Prod.mk.injEq]
        refine ⟨?_, rfl⟩
        ext1 u
        have hiff : (u.val / Blockunits ∈ i :: is ∧ wv.getLsbD (u.val / Blockunits) = true) ↔
            (u.val / Blockunits ∈ is ∧ wv.getLsbD (u.val / Blockunits) = true) := by
          rw [List.mem_cons]
          constructor
          · rintro ⟨hor, hset⟩
            refine ⟨hor.resolve_left ?_, hset⟩
            intro heq
            rw [heq] at hset
            exact hbit hset
          · exact fun hand => ⟨.inr hand.1, hand.2⟩
        simp only [hiff]

theorem copyExtras_at {cfg : Config} {b : Buffer} {xs : List ExtraPage} {datai : Nat}
    {m : MemState} {rnd : List Nat} (hat : At b datai (xs.flatMap extraBytes)) :
    copyExtras cfg b xs.length datai m rnd = MemState.installExtras cfg m xs rnd := by
  induction xs generalizing datai m rnd with
  | nil => rfl
  | cons x xs ih =>
      rw [List.flatMap_cons, at_append, length_extraBytes, extraBytes, at_append,
        length_toLE] at hat
      obtain ⟨⟨haddr, hpage⟩, hrest⟩ := hat
      have hread := hpage.readBytes
      rw [length_pageBytes] at hread
      rw [List.length_cons, copyExtras, MemState.installExtras]
      simp only [DiffWire.s2l_at haddr, hread, memcpy_page]
      congr 1
      funext m'
      rw [← Nat.add_assoc] at hrest
      exact ih hrest

theorem extraAt_at {b : Buffer} {x : ExtraPage} {datai : Nat} (hat : At b datai (extraBytes x)) :
    extraAt b datai = x := by
  rw [extraBytes, at_append, length_toLE] at hat
  have hread := hat.2.readBytes
  rw [length_pageBytes] at hread
  rw [extraAt, DiffWire.s2l_at hat.1, hread, memcpy_page]

theorem copyExtrasMarked_at {cfg : Config} {w : MemState.FaultWait} {t : MemState.MarkTime}
    {b : Buffer} {xs : List ExtraPage} {datai : Nat} {m : MemState} {rnd : List Nat}
    (hat : At b datai (xs.flatMap extraBytes)) :
    copyExtrasMarked cfg w b t xs.length datai m rnd =
      MemState.installExtrasMarked cfg w t m xs rnd := by
  induction xs generalizing t datai m rnd with
  | nil =>
      cases t with
      | before i => cases i <;> rfl
      | search i => cases i <;> rfl
  | cons x xs ih =>
      have hall := hat
      rw [List.flatMap_cons, at_append, length_extraBytes, ← Nat.add_assoc] at hat
      obtain ⟨hone, hrest⟩ := hat
      rw [List.length_cons]
      cases t with
      | before i =>
          cases i with
          | zero =>
              rw [copyExtrasMarked, MemState.installExtrasMarked, ← List.length_cons]
              exact copyExtras_at hall
          | succ i =>
              rw [copyExtrasMarked, MemState.installExtrasMarked, extraAt_at hone]
              congr 1
              funext m'
              exact ih hrest
      | search i =>
          cases i with
          | zero =>
              rw [copyExtrasMarked, MemState.installExtrasMarked, extraAt_at hone]
              congr 1
              funext m'
              exact copyExtras_at hrest
          | succ i =>
              rw [copyExtrasMarked, MemState.installExtrasMarked, extraAt_at hone]
              congr 1
              funext m'
              exact ih hrest

/-- Every block of a page is one of the 32. -/
theorem block_lt (u : Fin Pageunits) : u.val / Blockunits < Wvbits := by
  have hlt := u.isLt
  simp only [Pageunits, Pagesize, Diffunit, Blockunits, Wvbits] at *
  omega

theorem maskPage_full (pg old : Page) : MemState.maskPage WVFULL pg old = pg := by
  ext1 u
  have hbit : (WVFULL : BitVec Wvbits).getLsbD (u.val / Blockunits) = true := by
    rw [BitVec.getLsbD_allOnes]
    exact decide_eq_true (block_lt u)
  rw [MemState.maskPage, if_pos hbit]

theorem maskPage_mask (wv : BitVec Wvbits) (pg pg' old : Page) :
    MemState.maskPage wv (MemState.maskPage wv pg pg') old = MemState.maskPage wv pg old := by
  ext1 u
  simp only [MemState.maskPage]
  split <;> rfl

/-- All blocks in a row are the page. -/
theorem blocksBytes_full (pg : Page) :
    blocksBytes WVFULL pg (List.range Wvbits) = pageBytes pg := by
  have hunits : ∀ n, n ≤ Wvbits → blocksBytes WVFULL pg (List.range n) =
      (run pg 0 (n * Blockunits)).units.flatMap unitBytes := by
    intro n hn
    induction n with
    | zero => simp [blocksBytes, run]
    | succ n ih =>
        have hbit : (WVFULL : BitVec Wvbits).getLsbD n = true := by
          rw [BitVec.getLsbD_allOnes]
          exact decide_eq_true hn
        have hone : blockBytes pg n = (run pg (n * Blockunits) Blockunits).units.flatMap unitBytes := by
          have hoff : n * Blocksize = Diffunit * (n * Blockunits) := by
            simp only [Blocksize, Pagesize, Wvbits, Diffunit, Blockunits, Pageunits]
            omega
          have hsize : Blocksize = Diffunit * Blockunits := by decide
          rw [blockBytes, hoff, hsize, readBytes_run]
        have hblock : blocksBytes WVFULL pg (List.range (n + 1)) =
            blocksBytes WVFULL pg (List.range n) ++ blockBytes pg n := by
          simp only [blocksBytes, List.range_succ, List.flatMap_append, List.flatMap_singleton, hbit,
            if_true]
        have hsplit : List.range' 0 (n * Blockunits) ++ List.range' (n * Blockunits) Blockunits =
            List.range' 0 ((n + 1) * Blockunits) := by
          have happend := @List.range'_append_1 0 (n * Blockunits) Blockunits
          rwa [Nat.zero_add, ← Nat.succ_mul] at happend
        rw [hblock, ih (Nat.le_of_succ_le hn), hone, ← List.flatMap_append]
        simp only [run, ← List.map_append, hsplit]
  have hlast := hunits Wvbits le_rfl
  have hall : Wvbits * Blockunits = Pageunits := by decide
  have hsize : Pagesize = Diffunit * Pageunits := by decide
  have hread := readBytes_run pg 0 Pageunits
  rw [Nat.mul_zero, ← hsize] at hread
  rw [hlast, hall, ← hread]
  rfl

/-- The requested page in the message: the blocks of the vector where a page would be, or
the page. -/
theorem appendPage_ok {cfg : Config} {compact : Bool} {wv : BitVec Wvbits} {pg : Page} {rep : Rep}
    (hcompact : compact = true → cfg.wVec = true) (hfull : compact = false → wv = WVFULL)
    (hfit : rep.size + Pagesize ≤ Maxmsgsize) :
    ∃ rep', appendPage compact wv pg rep = .ok rep' ∧ rep'.size = rep.size + Pagesize ∧
      (∀ i < rep.size, rep'.data i = rep.data i) ∧
      ∀ b : Buffer, (∀ i < rep'.size, b i = rep'.data i) → ∀ old, copyPage cfg wv b old rep.size =
        (if cfg.wVec ∧ wv ≠ WVFULL then MemState.maskPage wv pg old else pg,
          rep.size + Pagesize) := by
  have hwhole : ∀ rep' : Rep, rep'.size = rep.size + Pagesize →
      At rep'.data rep.size (pageBytes pg) → wv = WVFULL →
      ∀ b : Buffer, (∀ i < rep'.size, b i = rep'.data i) → ∀ old, copyPage cfg wv b old rep.size =
        (if cfg.wVec ∧ wv ≠ WVFULL then MemState.maskPage wv pg old else pg,
          rep.size + Pagesize) := by
    intro rep' hsize hat hwv b hb old
    have hnot : ¬ (cfg.wVec = true ∧ wv ≠ WVFULL) := fun hcon => hcon.2 hwv
    have hatb : At b rep.size (pageBytes pg) := by
      intro i hi
      rw [length_pageBytes] at hi
      rw [hb _ (by omega)]
      exact hat i (by rw [length_pageBytes]; exact hi)
    have hread := hatb.readBytes
    rw [length_pageBytes] at hread
    rw [copyPage, if_neg hnot, if_neg hnot, hread, memcpy_page]
  cases hc : compact with
  | false =>
      have hlen := length_pageBytes pg
      have hroom : rep.size + (pageBytes pg).length ≤ Maxmsgsize := by omega
      obtain ⟨rep', happend, happ⟩ := appendmsg_ok hroom
      have hsize : rep'.size = rep.size + Pagesize := by rw [happ.size, hlen]
      refine ⟨rep', ?_, hsize, happ.before, hwhole rep' hsize happ.at_size (hfull hc)⟩
      rw [appendPage, if_neg Bool.false_ne_true, happend]
  | true =>
      have hblocks : (List.range Wvbits).length * Blocksize = Pagesize := by decide
      have hroom : rep.size + (List.range Wvbits).length * Blocksize ≤ Maxmsgsize := by omega
      obtain ⟨rep', happend, happ⟩ := @appendBlocks_ok wv pg (List.range Wvbits) rep 0 hroom
      have hle := length_blocksBytes_le wv pg (List.range Wvbits)
      rw [hblocks] at hle
      have hsize : rep'.size + (Pagesize - (0 + (blocksBytes wv pg (List.range Wvbits)).length)) =
          rep.size + Pagesize := by
        rw [happ.size]
        omega
      refine ⟨{ rep' with size := rep.size + Pagesize }, ?_, rfl, happ.before, ?_⟩
      · simp only [appendPage, if_true, happend, ← hsize]
        rfl
      · by_cases hwv : wv = WVFULL
        · apply hwhole _ rfl _ hwv
          have hat := happ.at_size
          rw [hwv, blocksBytes_full] at hat
          exact hat
        · intro b hb old
          have hyes : cfg.wVec = true ∧ wv ≠ WVFULL := ⟨hcompact hc, hwv⟩
          have hatb : At b rep.size (blocksBytes wv pg (List.range Wvbits)) := by
            intro i hi
            rw [hb _ (by show _ < rep.size + Pagesize; omega)]
            exact happ.at_size i hi
          rw [copyPage, if_pos hyes, if_pos hyes, copyBlocks_at hatb]
          simp only
          rw [Prod.mk.injEq]
          constructor
          · ext1 u
            have hmem : u.val / Blockunits ∈ List.range Wvbits := List.mem_range.mpr (block_lt u)
            simp only [hmem, true_and, MemState.maskPage]
          · omega

/-- What the bytes of a GETPGRANT message stand for. -/
structure GrantBytes (cfg : Config) (addr : Addr) (wv : BitVec Wvbits) (pg : Page)
    (xs : List ExtraPage) (b : Buffer) : Prop where
  num : ((bytestoi b 0).toInt - 1).toNat = xs.length
  addr : s2l b Intbytes = addr
  page : ∀ old, copyPage cfg wv b old (Intbytes + Addrbytes) =
    (if cfg.wVec ∧ wv ≠ WVFULL then
        MemState.maskPage wv (MemState.maskPage wv pg zeroPage) old
      else MemState.maskPage wv pg zeroPage,
      Intbytes + Addrbytes + Pagesize)
  extras : At b (Intbytes + Addrbytes + Pagesize) (xs.flatMap extraBytes)

/-- What the home puts into the message is in its bytes. -/
theorem grantMsg_bytes (cfg : Config) (compact : Bool) (addr : Addr) (wv : BitVec Wvbits)
    (pg : Page) (xs : List ExtraPage) (old : Buffer)
    (hcompact : compact = true → cfg.wVec = true) (hfull : compact = false → wv = WVFULL)
    (hfit : Intbytes + Addrbytes + Pagesize + (Addrbytes + Pagesize) * xs.length ≤ Maxmsgsize) :
    ∃ rep, grantMsg compact addr wv pg xs old = .ok rep ∧
      GrantBytes cfg addr wv pg xs rep.data := by
  have hxs : xs.length < 2 ^ 31 - 1 := by
    simp only [Intbytes, Addrbytes, Pagesize, Maxmsgsize, Maxsize, Msgheadsize] at hfit
    omega
  -- the number of pages and the address
  have hlennum : (toLE Intbytes (1 + xs.length)).length = Intbytes := length_toLE _ _
  have hlenaddr : (toLE Addrbytes addr.toNat).length = Addrbytes := length_toLE _ _
  have hmax : Intbytes + Addrbytes + Pagesize ≤ Maxmsgsize := by decide
  have hroom₀ : (⟨0, old⟩ : Rep).size + (toLE Intbytes (1 + xs.length)).length ≤ Maxmsgsize := by
    show 0 + _ ≤ _
    omega
  obtain ⟨rep₁, hnum, happ₁⟩ := appendmsg_ok hroom₀
  have hsize₁ : rep₁.size = Intbytes := by
    rw [happ₁.size, hlennum]
    exact Nat.zero_add _
  have hroom₁ : rep₁.size + (toLE Addrbytes addr.toNat).length ≤ Maxmsgsize := by
    omega
  obtain ⟨rep₂, haddr, happ₂⟩ := appendmsg_ok hroom₁
  have hsize₂ : rep₂.size = Intbytes + Addrbytes := by rw [happ₂.size, hsize₁, hlenaddr]
  -- the requested page
  have hroom₂ : rep₂.size + Pagesize ≤ Maxmsgsize := by omega
  obtain ⟨rep₃, hpage, hsize₃, hbefore₃, hcopy⟩ :=
    @appendPage_ok cfg compact wv pg rep₂ hcompact hfull hroom₂
  rw [hsize₂] at hsize₃ hcopy
  -- the other pages
  have hroom₃ : rep₃.size + (Addrbytes + Pagesize) * xs.length ≤ Maxmsgsize := by
    rw [hsize₃]
    exact hfit
  obtain ⟨rep, hextra, happ⟩ := appendExtras_ok hroom₃
  refine ⟨rep, ?_, ?_⟩
  · simp only [grantMsg, bind_eq_ok]
    exact ⟨rep₁, hnum, rep₂, haddr, rep₃, hpage, hextra⟩
  · have hdata : ∀ i < rep₂.size, rep.data i = rep₂.data i := by
      intro i hi
      rw [happ.before i (by omega), hbefore₃ i hi]
    have hatnum : At rep.data 0 (toLE Intbytes (1 + xs.length)) := by
      intro i hi
      rw [hlennum] at hi
      rw [Nat.zero_add, hdata i (by omega), happ₂.before i (by omega)]
      have hat := happ₁.at_size i (by rw [hlennum]; exact hi)
      rwa [Nat.zero_add] at hat
    have hataddr : At rep.data Intbytes (toLE Addrbytes addr.toNat) := by
      intro i hi
      rw [hlenaddr] at hi
      rw [hdata _ (by omega), ← hsize₁]
      exact happ₂.at_size i (by rw [hlenaddr]; exact hi)
    have hturns : ((bytestoi rep.data 0).toInt - 1).toNat = xs.length := by
      have hint : (BitVec.ofNat 32 (1 + xs.length)).toInt = 1 + xs.length := by
        rw [BitVec.toInt_ofNat', Int.bmod_eq_of_le (by omega) (by omega)]
        rfl
      rw [DiffWire.bytestoi_at hatnum, hint]
      omega
    have hatextra : At rep.data (Intbytes + Addrbytes + Pagesize) (xs.flatMap extraBytes) :=
      hsize₃ ▸ happ.at_size
    have hpg := hcopy rep.data happ.before
    refine ⟨hturns, DiffWire.s2l_at hataddr, ?_, hatextra⟩
    intro old
    rw [hpg]
    split
    · rw [maskPage_mask]
    · rename_i hnot
      have hwv : wv = WVFULL := by
        by_contra hne
        cases hc : compact with
        | false => exact hne (hfull hc)
        | true => exact hnot ⟨hcompact hc, hne⟩
      rw [hwv, maskPage_full]

/-- The requester reads from the message what the home has put into it: the bytes on the
wire stand for the address, the vector, the blocks in it and the other pages. -/
theorem GrantBytes.round_trip {cfg : Config} {addr : Addr} {wv : BitVec Wvbits} {pg : Page}
    {xs : List ExtraPage} {b : Buffer} (hb : GrantBytes cfg addr wv pg xs b) (m : MemState)
    (rnd : List Nat) :
    getpgrantserver cfg m wv b rnd =
      m.getpgrantserver cfg addr wv (MemState.maskPage wv pg zeroPage) xs rnd := by
  unfold getpgrantserver MemState.getpgrantserver
  simp only [hb.num, hb.addr, hb.page, copyExtras_at hb.extras]

/-- So it does when the fault handler writes its entry in between. -/
theorem GrantBytes.round_trip_marked {cfg : Config} {addr : Addr} {wv : BitVec Wvbits} {pg : Page}
    {xs : List ExtraPage} {b : Buffer} (hb : GrantBytes cfg addr wv pg xs b)
    (w : MemState.FaultWait) (t : MemState.MarkTime) (m : MemState) (rnd : List Nat) :
    getpgrantserverMarked cfg w t m wv b rnd =
      m.getpgrantserverMarked cfg w t addr wv (MemState.maskPage wv pg zeroPage) xs rnd := by
  unfold getpgrantserverMarked MemState.getpgrantserverMarked
  simp only [hb.num, hb.addr, hb.page, copyExtrasMarked_at hb.extras]

end Jiajia.PageWire
