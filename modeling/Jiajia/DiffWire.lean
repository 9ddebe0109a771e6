import Jiajia.Writers
import Jiajia.TreeCast
import Jiajia.Lib.Layout

/-!
# Diffs on the wire

`encodediff` compares a cached page with its twin 4 bytes at a time and writes the bytes of
a diff; `diffserver` walks through the diffs of a DIFF message and copies them into the
home pages.
-/

namespace Jiajia.DiffWire

open Bytes
open TreeCast (JiaMsg)

abbrev DIFF : Nat := 0

abbrev Blocksize : Nat := Pagesize / Wvbits

/-! ## Pages as bytes -/

/-- Byte `i` of a page. -/
def bytes (pg : Page) : Buffer :=
  fun i => BitVec.ofNat 8 ((pg.unit (i / Diffunit)).toNat / 256 ^ (i % Diffunit))

/-- The page with the given bytes. -/
def ofBytes (b : Buffer) : Page :=
  fun u => BitVec.ofNat 32 (readLE b Diffunit (Diffunit * u.val))

/-- `memcpy(page + off, bs, n)` -/
def memcpy (pg : Page) (off : Nat) (bs : List Byte) : Page := ofBytes (write (bytes pg) off bs)

/-! ## `encodediff` -/

/-- `memcmp(page + bytei, twin + bytei, Diffunit) == 0` -/
def sameUnit (page twin : Buffer) (bytei : Nat) : Bool :=
  readBytes page bytei Diffunit == readBytes twin bytei Diffunit

/-- The first inner loop: where the next difference starts. -/
def skipSame (page twin : Buffer) (bytei : Nat) : Nat :=
  if bytei < Pagesize ∧ sameUnit page twin bytei = true then skipSame page twin (bytei + Diffunit)
  else bytei
termination_by Pagesize - bytei
decreasing_by
  simp only [Diffunit]
  omega

/-- The second inner loop: `bytei` and `cnt` behind the units that differ. -/
def countDiff (page twin : Buffer) (bytei cnt : Nat) : Nat × Nat :=
  if bytei < Pagesize ∧ sameUnit page twin bytei = false then
    countDiff page twin (bytei + Diffunit) (cnt + Diffunit)
  else (bytei, cnt)
termination_by Pagesize - bytei
decreasing_by
  simp only [Diffunit]
  omega

/-- `((start & 0xffff) << 16) | (cnt & 0xffff)` -/
def header (start cnt : Nat) : Nat := (start &&& 0xffff) <<< 16 ||| (cnt &&& 0xffff)

/-- The outer loop: `diff` and `size` when the page is done.  Every turn but the last
passes a unit that differs. -/
def encodeLoop (page twin : Buffer) : Nat → Nat → Buffer → Nat → Buffer × Nat
  | 0, _, diff, size => (diff, size)
  | fuel + 1, bytei, diff, size =>
      if bytei < Pagesize then
        let start := skipSame page twin bytei
        if start < Pagesize then
          let (bytei, cnt) := countDiff page twin start 0
          let diff := write diff size (toLE Intbytes (header start cnt))
          let diff := write diff (size + Intbytes) (readBytes page start cnt)
          encodeLoop page twin fuel bytei diff (size + Intbytes + cnt)
        else (diff, size)
      else (diff, size)

/-- `encodediff(cachei, diff)` for the page at `addr`: the buffer and the size returned. -/
def encodediff (addr : Addr) (cur twin : Page) (diff : Buffer) : Buffer × Nat :=
  let diff := write diff 0 (toLE Addrbytes addr.toNat)
  let (diff, size) := encodeLoop (bytes cur) (bytes twin) Pageunits 0 diff (Addrbytes + Intbytes)
  (write diff Addrbytes (toLE Intbytes size), size)

/-- The bytes `savediff` appends to the message. -/
def encoding (addr : Addr) (cur twin : Page) (diff : Buffer) : List Byte :=
  readBytes (encodediff addr cur twin diff).1 0 (encodediff addr cur twin diff).2

/-! ## `diffserver` -/

/-- `bytestoi(data + off)` -/
def bytestoi (b : Buffer) (off : Nat) : BitVec 32 := BitVec.ofNat 32 (readLE b Intbytes off)

/-- `s2l(data + off)` -/
def s2l (b : Buffer) (off : Nat) : BitVec 64 := BitVec.ofNat 64 (readLE b Addrbytes off)

/-- What a store of `bs` to page `p` finds: a page that is not writable sends the server
thread through the fault handler. -/
def storeFault (cfg : Config) (pid : Nat) (m : MemState) (p : Nat) (bs : List Byte) :
    Result MemState :=
  if bs = [] ∨ m.prot p = .readWrite then .ok m
  else do
    defined (m.prot p ≠ .unmapped ∧ (m.page p).homepid = pid) "diff for a page that is no home page"
    m.homeFault cfg p

/-- Copy into the page at `paddr`. -/
def copyTo (cfg : Config) (pid : Nat) (m : MemState) (paddr : Addr) (doffset : Nat)
    (bs : List Byte) : Result MemState := do
  let p := cfg.pagei paddr
  let off := (paddr.toNat - cfg.gstart) % Pagesize + doffset
  defined (off + bs.length ≤ Pagesize) "copy past the page"
  let m ← storeFault cfg pid m p bs
  return m.setMem p (memcpy (m.mem p) off bs)

/-- `for (i = doffset / Blocksize * Blocksize; i < doffset + dsize; i += Blocksize)` -/
def markBlocks (i stop : Nat) (wv : BitVec Wvbits) : BitVec Wvbits :=
  if i < stop then markBlocks (i + Blocksize) stop (wv ||| ((1 : BitVec Wvbits) <<< (i / Blocksize)))
  else wv
termination_by stop - i
decreasing_by
  simp only [Blocksize, Pagesize, Wvbits]
  omega

/-- The inner loop: the runs of one diff. -/
def copyRuns (cfg : Config) (pid : Nat) (b : Buffer) (paddr : Addr) (pstop : Nat) (m : MemState)
    (datai : Nat) (wv : BitVec Wvbits) : Result (MemState × Nat × BitVec Wvbits) :=
  if datai < pstop then do
    let dsize := (bytestoi b datai &&& 0xffff).toNat
    let doffset := (bytestoi b datai >>> 16 &&& 0xffff).toNat
    let m ← copyTo cfg pid m paddr doffset (readBytes b (datai + Intbytes) dsize)
    let wv :=
      if cfg.wVec ∧ 0 < dsize then markBlocks (doffset / Blocksize * Blocksize) (doffset + dsize) wv
      else wv
    copyRuns cfg pid b paddr pstop m (datai + Intbytes + dsize) wv
  else .ok (m, datai, wv)
termination_by pstop - datai
decreasing_by
  simp only [Intbytes]
  omega

def noteVector (cfg : Config) (m : MemState) (homei : Nat) (wv : BitVec Wvbits) (src : Nat) :
    Result MemState :=
  if cfg.wVec then do
    defined (homei < Homepages) "home[Homepages]"
    return m.addwtvect cfg homei wv src
  else .ok m

/-- One turn of the outer loop. -/
def diffTurn (cfg : Config) (pid src : Nat) (b : Buffer) (m : MemState) (datai : Nat) :
    Result (MemState × Nat) := do
  let paddr := s2l b datai
  let datai := datai + Addrbytes
  let homei := m.homepage cfg paddr
  let m ← m.openHome cfg (cfg.pagei paddr) homei
  let pstop := (bytestoi b datai).signExtend 64 + BitVec.ofNat 64 datai - 8
  let (m, datai, wv) ← copyRuns cfg pid b paddr pstop.toNat m (datai + Intbytes) 0
  let m ← noteVector cfg m homei wv src
  let m ← m.closeHome cfg (cfg.pagei paddr) homei
  return (m, datai)

/-- The outer loop; every turn passes at least an address. -/
def diffLoop (cfg : Config) (pid src : Nat) (b : Buffer) (size : Nat) :
    Nat → MemState → Nat → Result (MemState × Nat)
  | 0, _, _ => .error (.undefined "endless DIFF message")
  | fuel + 1, m, datai =>
      if datai < size then do
        let (m, datai) ← diffTurn cfg pid src b m datai
        diffLoop cfg pid src b size fuel m datai
      else .ok (m, datai)

/-- `diffserver(req)`; `rest` is what the message slot holds behind the data.  The number is
where `datai` stands at the end. -/
def diffserver (cfg : Config) (pid : Nat) (m : MemState) (req : JiaMsg) (rest : Buffer) :
    Result (MemState × Nat × Out) := do
  jiaAssert (req.op = DIFF ∧ req.topid = pid) "Incorrect DIFF Message!"
  let size := req.data.length
  let (m, datai) ← diffLoop cfg pid req.frompid (overlay req.data rest) size (size + 1) m 0
  return (m, datai, [(req.frompid, .diffgrant)])

/-! ## Units and bytes -/

def unitBytes (w : Word) : List Byte := toLE Diffunit w.toNat

@[simp] theorem length_unitBytes (w : Word) : (unitBytes w).length = 4 := length_toLE 4 _

theorem at_unit (pg : Page) (j : Nat) : At (bytes pg) (Diffunit * j) (unitBytes (pg.unit j)) := by
  intro i hi
  have hlt : i < Diffunit := by simpa using hi
  have hdiv : (Diffunit * j + i) / Diffunit = j := by
    simp only [Diffunit] at *
    omega
  have hmod : (Diffunit * j + i) % Diffunit = i := by
    simp only [Diffunit] at *
    omega
  show BitVec.ofNat 8 _ = _
  rw [hdiv, hmod]
  exact (toLE_get _).symm

theorem at_units (pg : Page) (start n : Nat) :
    At (bytes pg) (Diffunit * start) (((List.range' start n).map pg.unit).flatMap unitBytes) := by
  induction n generalizing start with
  | zero => exact at_nil
  | succ n ih =>
      rw [List.range'_succ, List.map_cons, List.flatMap_cons, at_append, length_unitBytes]
      exact ⟨at_unit pg start, ih (start + 1)⟩

theorem readLE_unit {b : Buffer} {off : Nat} {w : Word} (h : At b off (unitBytes w)) :
    BitVec.ofNat 32 (readLE b Diffunit off) = w := by
  have hread : readLE b Diffunit off = w.toNat % 256 ^ Diffunit := h.readLE
  have hlt : w.toNat < 256 ^ Diffunit := w.isLt
  rw [hread, Nat.mod_eq_of_lt hlt, BitVec.ofNat_toNat, BitVec.setWidth_eq]

theorem unitBytes_inj {v w : Word} (h : unitBytes v = unitBytes w) : v = w := by
  have hv := readLE_unit (at_overlay (unitBytes v) (fun _ => 0))
  have hw := readLE_unit (at_overlay (unitBytes w) (fun _ => 0))
  rw [← hv, h, hw]

/-- A copy of whole units into a page. -/
theorem memcpy_units (pg : Page) (r : DiffRun) :
    memcpy pg (Diffunit * r.start) (r.units.flatMap unitBytes) = r.apply pg := by
  have hlen := length_flatMap_const length_unitBytes r.units
  ext1 u
  show BitVec.ofNat 32 (readLE _ Diffunit (Diffunit * u.val)) = _
  have hold : At (bytes pg) (Diffunit * u.val) (unitBytes (pg u)) := by
    simpa using at_unit pg u.val
  by_cases hin : r.start ≤ u.val ∧ u.val < r.start + r.units.length
  · have hidx : u.val - r.start < r.units.length := by omega
    have hnew := (at_write (bytes pg) (Diffunit * r.start) _).flatMap_get length_unitBytes hidx
    have hoff : Diffunit * r.start + 4 * (u.val - r.start) = Diffunit * u.val := by
      simp only [Diffunit]
      omega
    rw [hoff] at hnew
    rw [readLE_unit hnew, DiffRun.apply_of_mem hin.1 hin.2]
  · rw [DiffRun.apply_of_not_mem (by omega)]
    apply readLE_unit
    by_cases hlt : u.val < r.start
    · apply hold.write_behind
      simp only [length_unitBytes, Diffunit]
      omega
    · apply hold.write_before
      simp only [hlen, Diffunit]
      omega

/-! ## The bytes of a diff -/

def runBytes (r : DiffRun) : List Byte :=
  toLE Intbytes (header (Diffunit * r.start) (Diffunit * r.units.length)) ++
    r.units.flatMap unitBytes

def diffBytes (d : PageDiff) : List Byte :=
  toLE Addrbytes d.addr.toNat ++ toLE Intbytes d.size ++ d.runs.flatMap runBytes

theorem length_runBytes (r : DiffRun) :
    (runBytes r).length = Intbytes + Diffunit * r.units.length := by
  rw [runBytes, List.length_append, length_toLE, length_flatMap_const length_unitBytes]

theorem length_diffBytes (d : PageDiff) : (diffBytes d).length = d.size := by
  have hruns : (d.runs.flatMap runBytes).length =
      (d.runs.map fun r => Intbytes + Diffunit * r.units.length).sum := by
    rw [List.length_flatMap]
    exact congrArg List.sum (List.map_congr_left fun r _ => length_runBytes r)
  rw [diffBytes, List.length_append, List.length_append, length_toLE, length_toLE, hruns,
    PageDiff.size]

section Encode

variable (cur twin : Page)

theorem sameUnit_eq (j : Nat) :
    sameUnit (bytes cur) (bytes twin) (Diffunit * j) = (cur.unit j == twin.unit j) := by
  have hcur := (at_unit cur j).readBytes
  have htwin := (at_unit twin j).readBytes
  rw [length_unitBytes] at hcur htwin
  rw [sameUnit, hcur, htwin, Bool.eq_iff_iff, beq_iff_eq, beq_iff_eq]
  exact ⟨unitBytes_inj, congrArg unitBytes⟩

theorem bytei_lt {i : Nat} (h : i < Pageunits) : Diffunit * i < Pagesize := by
  simp only [Diffunit, Pageunits, Pagesize] at *
  omega

theorem skipSame_eq {k i : Nat} (h : i + k = Pageunits) :
    skipSame (bytes cur) (bytes twin) (Diffunit * i) =
      Diffunit * advance (fun j => cur.unit j == twin.unit j) k i := by
  induction k generalizing i with
  | zero =>
      rw [skipSame, if_neg, advance]
      simp only [Diffunit, Pageunits, Pagesize] at *
      omega
  | succ k ih =>
      have hlt : Diffunit * i < Pagesize := bytei_lt (by omega)
      rw [skipSame, advance, sameUnit_eq]
      by_cases hsame : (cur.unit i == twin.unit i) = true
      · rw [if_pos ⟨hlt, hsame⟩, if_pos hsame, ← Nat.mul_succ]
        exact ih (by omega)
      · rw [if_neg fun hand => hsame hand.2, if_neg hsame]

theorem countDiff_eq {k i cnt : Nat} (h : i + k = Pageunits) :
    countDiff (bytes cur) (bytes twin) (Diffunit * i) cnt =
      (Diffunit * advance (fun j => cur.unit j != twin.unit j) k i,
        cnt + Diffunit * (advance (fun j => cur.unit j != twin.unit j) k i - i)) := by
  induction k generalizing i cnt with
  | zero =>
      have hge : ¬ Diffunit * i < Pagesize := by
        simp only [Diffunit, Pageunits, Pagesize] at *
        omega
      rw [countDiff, if_neg fun hand => hge hand.1, advance, Nat.sub_self, Nat.mul_zero, Nat.add_zero]
  | succ k ih =>
      have hlt : Diffunit * i < Pagesize := bytei_lt (by omega)
      rw [countDiff, advance, sameUnit_eq]
      by_cases hsame : (cur.unit i == twin.unit i) = true
      · have hne : ¬ (cur.unit i != twin.unit i) = true := by simpa using hsame
        rw [if_neg (by simp [hsame]), if_neg hne, Nat.sub_self, Nat.mul_zero, Nat.add_zero]
      · have hne : (cur.unit i != twin.unit i) = true := by simpa using hsame
        have hle := le_advance (fun j => cur.unit j != twin.unit j) k (i + 1)
        have hcnt : ∀ stop, i + 1 ≤ stop →
            cnt + Diffunit + Diffunit * (stop - (i + 1)) = cnt + Diffunit * (stop - i) := by
          intro stop hstop
          simp only [Diffunit]
          omega
        rw [if_pos ⟨hlt, by simpa using hsame⟩, if_pos hne, ← Nat.mul_succ]
        rw [ih (by omega), hcnt _ hle]

theorem encodeLoop_eq (fuel : Nat) {i : Nat} (h : i ≤ Pageunits) (diff : Buffer) (size : Nat) :
    let r := encodeLoop (bytes cur) (bytes twin) fuel (Diffunit * i) diff size
    let bs := (encodeRuns cur twin fuel i).flatMap runBytes
    r.2 = size + bs.length ∧ At r.1 size bs ∧ ∀ j < size, r.1 j = diff j := by
  induction fuel generalizing i diff size with
  | zero => exact ⟨rfl, at_nil, fun _ _ => rfl⟩
  | succ fuel ih =>
      simp only [encodeLoop, encodeRuns, skipSame_eq cur twin (Nat.add_sub_cancel' h)]
      generalize hstart : advance (fun j => cur.unit j == twin.unit j) (Pageunits - i) i = start
      have hle : i ≤ start := hstart ▸ le_advance _ _ _
      by_cases hlt : start < Pageunits
      · rw [if_pos (bytei_lt (hle.trans_lt hlt)), if_pos (bytei_lt hlt), if_pos hlt]
        simp only [countDiff_eq cur twin (Nat.add_sub_cancel' hlt.le), Nat.zero_add]
        generalize hstop : advance (fun j => cur.unit j != twin.unit j) (Pageunits - start) start
          = stop
        have hstop_le : stop ≤ Pageunits := by
          have hadv := advance_le (fun j => cur.unit j != twin.unit j) (Pageunits - start) start
          omega
        have hunits := (at_units cur start (stop - start)).readBytes
        rw [length_flatMap_const length_unitBytes, List.length_map, List.length_range'] at hunits
        rw [hunits, List.flatMap_cons, List.length_append]
        have hrun : runBytes ⟨start, (List.range' start (stop - start)).map cur.unit⟩ =
            toLE Intbytes (header (Diffunit * start) (Diffunit * (stop - start))) ++
              ((List.range' start (stop - start)).map cur.unit).flatMap unitBytes := by
          rw [runBytes, List.length_map, List.length_range']
        have hlen := length_runBytes ⟨start, (List.range' start (stop - start)).map cur.unit⟩
        rw [List.length_map, List.length_range'] at hlen
        generalize header (Diffunit * start) (Diffunit * (stop - start)) = head at hrun ⊢
        generalize ((List.range' start (stop - start)).map cur.unit).flatMap unitBytes = us
          at hrun ⊢
        have hwritten : At (write (write diff size (toLE Intbytes head)) (size + Intbytes) us) size
            (runBytes ⟨start, (List.range' start (stop - start)).map cur.unit⟩) := by
          rw [hrun, at_append, length_toLE]
          exact ⟨(at_write _ _ _).write_behind (by rw [length_toLE]), at_write _ _ _⟩
        obtain ⟨hsize, hat, hkept⟩ := ih hstop_le
          (write (write diff size (toLE Intbytes head)) (size + Intbytes) us)
          (size + Intbytes + Diffunit * (stop - start))
        refine ⟨?_, ?_, ?_⟩
        · rw [hsize, hlen]
          omega
        · rw [at_append, hlen, ← Nat.add_assoc]
          refine ⟨?_, hat⟩
          -- the rest of the loop writes behind this run
          intro j hj
          rw [hkept (size + j) (by rw [hlen] at hj; omega)]
          exact hwritten j hj
        · intro j hj
          rw [hkept j (by omega), write_apply_of_lt _ _ (by omega), write_apply_of_lt _ _ hj]
      · have hge : ¬ Diffunit * start < Pagesize := by
          simp only [Diffunit, Pageunits, Pagesize] at *
          omega
        rw [if_neg hge, ite_self, if_neg hlt]
        exact ⟨rfl, at_nil, fun _ _ => rfl⟩

/-- What `encodediff` writes and returns. -/
theorem encodediff_eq (addr : Addr) (diff : Buffer) :
    At (encodediff addr cur twin diff).1 0 (diffBytes (Jiajia.encodediff addr cur twin)) ∧
      (encodediff addr cur twin diff).2 = (Jiajia.encodediff addr cur twin).size := by
  have hloop := encodeLoop_eq cur twin Pageunits (Nat.zero_le Pageunits)
    (write diff 0 (toLE Addrbytes addr.toNat)) (Addrbytes + Intbytes)
  have hsplit : ∀ r, r = encodeLoop (bytes cur) (bytes twin) Pageunits (Diffunit * 0)
      (write diff 0 (toLE Addrbytes addr.toNat)) (Addrbytes + Intbytes) →
      encodediff addr cur twin diff = (write r.1 Addrbytes (toLE Intbytes r.2), r.2) := by
    rintro r rfl
    rfl
  generalize encodeLoop (bytes cur) (bytes twin) Pageunits (Diffunit * 0)
    (write diff 0 (toLE Addrbytes addr.toNat)) (Addrbytes + Intbytes) = r at hloop hsplit
  obtain ⟨hsize, hat, hkept⟩ := hloop
  have hlen := length_diffBytes (Jiajia.encodediff addr cur twin)
  rw [diffBytes, List.length_append, List.length_append, length_toLE, length_toLE] at hlen
  have hsize' : r.2 = (Jiajia.encodediff addr cur twin).size := hsize.trans hlen
  rw [hsplit r rfl]
  refine ⟨?_, hsize'⟩
  rw [diffBytes, at_append, at_append]
  simp only [List.length_append, length_toLE, Nat.zero_add]
  refine ⟨⟨?_, ?_⟩, ?_⟩
  · -- the address was written first, and both the loop and the size leave it alone
    apply At.write_behind _ (by rw [length_toLE, Nat.zero_add])
    intro i hi
    have hi' : i < Addrbytes := by simpa using hi
    rw [hkept (0 + i) (by omega)]
    exact at_write _ _ _ i hi
  · rw [← hsize']
    exact at_write _ _ _
  · exact At.write_before hat (by rw [length_toLE])

theorem encoding_eq (addr : Addr) (diff : Buffer) :
    encoding addr cur twin diff = diffBytes (Jiajia.encodediff addr cur twin) := by
  obtain ⟨hat, hsize⟩ := encodediff_eq cur twin addr diff
  rw [encoding, hsize, ← length_diffBytes, hat.readBytes]

/-- Every run takes one unit more than it has, for its header; two runs have a unit
between them that is the same. -/
theorem encodeRuns_length (fuel : Nat) {i : Nat} (h : i ≤ Pageunits) :
    ((encodeRuns cur twin fuel i).map fun r => 1 + r.units.length).sum ≤ Pageunits - i + 1 ∧
      (cur.unit i = twin.unit i →
        ((encodeRuns cur twin fuel i).map fun r => 1 + r.units.length).sum ≤ Pageunits - i) := by
  induction fuel generalizing i with
  | zero => exact ⟨Nat.zero_le _, fun _ => Nat.zero_le _⟩
  | succ fuel ih =>
      simp only [encodeRuns]
      generalize hstart : advance (fun j => cur.unit j == twin.unit j) (Pageunits - i) i = start
      have hle : i ≤ start := hstart ▸ le_advance _ _ _
      by_cases hlt : start < Pageunits
      · rw [if_pos hlt]
        generalize hstop : advance (fun j => cur.unit j != twin.unit j) (Pageunits - start) start
          = stop
        have hstop_le : stop ≤ Pageunits := by
          have hadv := advance_le (fun j => cur.unit j != twin.unit j) (Pageunits - start) start
          omega
        have hstart_le : start ≤ stop := hstop ▸ le_advance _ _ _
        have hsame : cur.unit stop = twin.unit stop := by
          by_cases hend : stop < Pageunits
          · have hP := advance_stop (P := fun j => cur.unit j != twin.unit j)
              (k := Pageunits - start) (i := start) (by omega)
            rw [hstop] at hP
            simpa using hP
          · rw [Page.unit, Page.unit, dif_neg hend, dif_neg hend]
        have hrest := (ih hstop_le).2 hsame
        rw [List.map_cons, List.sum_cons, List.length_map, List.length_range']
        refine ⟨by omega, ?_⟩
        intro hfirst
        have hne : start ≠ i := by
          intro heq
          have hP := advance_stop (P := fun j => cur.unit j == twin.unit j)
            (k := Pageunits - i) (i := i) (by omega)
          rw [hstart, heq] at hP
          exact absurd hfirst (by simpa using hP)
        omega
      · rw [if_neg hlt]
        exact ⟨Nat.zero_le _, fun _ => Nat.zero_le _⟩

theorem encodeRuns_fit (fuel : Nat) {i : Nat} (h : i ≤ Pageunits) :
    ∀ r ∈ encodeRuns cur twin fuel i, r.start + r.units.length ≤ Pageunits := by
  induction fuel generalizing i with
  | zero => exact fun r hr => absurd hr List.not_mem_nil
  | succ fuel ih =>
      intro r hr
      simp only [encodeRuns] at hr
      generalize hstart : advance (fun j => cur.unit j == twin.unit j) (Pageunits - i) i = start
        at hr
      by_cases hlt : start < Pageunits
      · rw [if_pos hlt] at hr
        generalize hstop : advance (fun j => cur.unit j != twin.unit j) (Pageunits - start) start
          = stop at hr
        have hstop_le : stop ≤ Pageunits := by
          have hadv := advance_le (fun j => cur.unit j != twin.unit j) (Pageunits - start) start
          omega
        have hstart_le : start ≤ stop := hstop ▸ le_advance _ _ _
        cases List.mem_cons.mp hr with
        | inl heq =>
            subst heq
            rw [List.length_map, List.length_range']
            show start + (stop - start) ≤ Pageunits
            omega
        | inr hmem => exact ih hstop_le r hmem
      · rw [if_neg hlt] at hr
        exact absurd hr List.not_mem_nil

theorem encodediff_size_le (addr : Addr) :
    (Jiajia.encodediff addr cur twin).size ≤ Pagesize + 16 := by
  have hlen := (encodeRuns_length cur twin Pageunits (Nat.zero_le Pageunits)).1
  have hbytes : ((encodeRuns cur twin Pageunits 0).map
        fun r => Intbytes + Diffunit * r.units.length).sum =
      Diffunit * ((encodeRuns cur twin Pageunits 0).map fun r => 1 + r.units.length).sum := by
    rw [← List.sum_map_mul_left]
    exact congrArg List.sum (List.map_congr_left fun r _ => by ring)
  rw [PageDiff.size, Jiajia.encodediff, hbytes]
  simp only [Addrbytes, Intbytes, Diffunit, Pageunits, Pagesize] at *
  omega

end Encode

/-! ## Copying the runs -/

theorem bytestoi_at {b : Buffer} {off v : Nat} (h : At b off (toLE Intbytes v)) :
    bytestoi b off = BitVec.ofNat 32 v := by
  have hread : readLE b Intbytes off = v % 2 ^ 32 := h.readLE
  apply BitVec.eq_of_toNat_eq
  rw [bytestoi, hread, BitVec.toNat_ofNat, BitVec.toNat_ofNat, Nat.mod_mod]

theorem s2l_at {b : Buffer} {off : Nat} {a : Addr} (h : At b off (toLE Addrbytes a.toNat)) :
    s2l b off = a := by
  have hread : readLE b Addrbytes off = a.toNat % 256 ^ 8 := h.readLE
  have hlt : a.toNat < 256 ^ 8 := a.isLt
  rw [s2l, hread, Nat.mod_eq_of_lt hlt, BitVec.ofNat_toNat, BitVec.setWidth_eq]

theorem header_eq (start cnt : Nat) :
    header start cnt = start % 2 ^ 16 * 2 ^ 16 + cnt % 2 ^ 16 := TreeCast.rootLevel_eq start cnt

theorem dsize_header {start cnt : Nat} (hcnt : cnt < 2 ^ 16) :
    (BitVec.ofNat 32 (header start cnt) &&& 0xffff).toNat = cnt := by
  show (BitVec.ofNat 32 (header start cnt)).toNat &&& 0xffff = cnt
  rw [TreeCast.and_ffff, BitVec.toNat_ofNat, header_eq]
  omega

theorem doffset_header {start cnt : Nat} (hstart : start < 2 ^ 16) :
    (BitVec.ofNat 32 (header start cnt) >>> 16 &&& 0xffff).toNat = start := by
  show (BitVec.ofNat 32 (header start cnt)).toNat >>> 16 &&& 0xffff = start
  rw [TreeCast.and_ffff, BitVec.toNat_ofNat, Nat.shiftRight_eq_div_pow, header_eq]
  omega

section Decode

variable {cfg : Config} {pid src : Nat} {b : Buffer} {m m' m'' : MemState} {addr : Addr} {p : Nat}
  {pg pg' : Page}

/-- The page of an address is a home page of the host. -/
structure HomePage (cfg : Config) (pid : Nat) (m : MemState) (a : Addr) : Prop where
  homei : m.homepage cfg a < Homepages
  mapped : m.prot (cfg.pagei a) ≠ .unmapped
  here : m.homehost cfg a = pid

/-- A step that leaves `pg` in page `p` and every other page alone. -/
structure Rewrites (p : Nat) (pg : Page) (m m' : MemState) : Prop where
  mem : m'.mem = upd m.mem p pg
  page : m'.page = m.page
  mapped : ∀ q, m.prot q ≠ .unmapped → m'.prot q ≠ .unmapped

theorem Rewrites.trans (h : Rewrites p pg m m') (h' : Rewrites p pg' m' m'') :
    Rewrites p pg' m m'' where
  mem := by rw [h'.mem, h.mem, upd_upd]
  page := h'.page.trans h.page
  mapped q hq := h'.mapped q (h.mapped q hq)

theorem Rewrites.then_same (h : Rewrites p pg m m') (hmem : m''.mem = m'.mem)
    (hpage : m''.page = m'.page) (hmapped : ∀ q, m'.prot q ≠ .unmapped → m''.prot q ≠ .unmapped) :
    Rewrites p pg m m'' where
  mem := hmem.trans h.mem
  page := hpage.trans h.page
  mapped q hq := hmapped q (h.mapped q hq)

theorem HomePage.rewritten (h : HomePage cfg pid m addr) (hr : Rewrites p pg m m') :
    HomePage cfg pid m' addr where
  homei := by
    rw [MemState.homepage, hr.page]
    exact h.homei
  mapped := hr.mapped _ h.mapped
  here := by
    rw [MemState.homehost, hr.page]
    exact h.here

theorem mapped_setProt {pr : Prot} (hpr : pr ≠ .unmapped) (q : Nat) (hq : m.prot q ≠ .unmapped) :
    (m.setProt p pr).prot q ≠ .unmapped := by
  show upd m.prot p pr q ≠ .unmapped
  by_cases h : q = p
  · rw [h, upd_same]
    exact hpr
  · rw [upd_of_ne _ _ h]
    exact hq

/-- The fault handler lets the server write to a home page. -/
theorem homeFault_total (cfg : Config) (hmapped : m.prot p ≠ .unmapped) (hhomei : (m.page p).homei < Homepages) :
    ∃ m', m.homeFault cfg p = .ok m' ∧ m'.mem = m.mem ∧ m'.page = m.page ∧
      ∀ q, m.prot q ≠ .unmapped → m'.prot q ≠ .unmapped := by
  unfold MemState.homeFault
  simp only [bind_eq_ok, defined_eq_ok]
  exact ⟨_, ⟨_, MemState.memprotect_eq_ok.mpr ⟨hmapped, rfl⟩, (), hhomei, rfl⟩, rfl, rfl,
    mapped_setProt (by decide)⟩

theorem storeFault_total (hhome : HomePage cfg pid m addr) (bs : List Byte) :
    ∃ m', storeFault cfg pid m (cfg.pagei addr) bs = .ok m' ∧ m'.mem = m.mem ∧ m'.page = m.page ∧
      ∀ q, m.prot q ≠ .unmapped → m'.prot q ≠ .unmapped := by
  unfold storeFault
  by_cases hopen : bs = [] ∨ m.prot (cfg.pagei addr) = .readWrite
  · rw [if_pos hopen]
    exact ⟨m, rfl, rfl, rfl, fun _ hq => hq⟩
  · obtain ⟨m₁, hfault, hsame⟩ := homeFault_total cfg hhome.mapped hhome.homei
    rw [if_neg hopen]
    simp only [bind_eq_ok, defined_eq_ok]
    exact ⟨m₁, ⟨(), ⟨hhome.mapped, hhome.here⟩, hfault⟩, hsame⟩

theorem copyTo_total (hhome : HomePage cfg pid m addr)
    (halign : (addr.toNat - cfg.gstart) % Pagesize = 0) (doffset : Nat) (bs : List Byte)
    (hfit : doffset + bs.length ≤ Pagesize) :
    ∃ m', copyTo cfg pid m addr doffset bs = .ok m' ∧
      Rewrites (cfg.pagei addr) (memcpy (m.mem (cfg.pagei addr)) doffset bs) m m' := by
  obtain ⟨m₁, hfault, hmem, hpage, hmapped⟩ := storeFault_total hhome bs
  refine ⟨m₁.setMem (cfg.pagei addr) (memcpy (m₁.mem (cfg.pagei addr)) doffset bs), ?_, ?_⟩
  · simp only [copyTo, halign, Nat.zero_add, bind_eq_ok, defined_eq_ok]
    exact ⟨(), hfit, m₁, hfault, rfl⟩
  · refine ⟨?_, hpage, hmapped⟩
    show upd m₁.mem _ _ = _
    rw [hmem]

theorem copyRuns_total {runs : List DiffRun} (hfit : ∀ r ∈ runs, r.start + r.units.length ≤ Pageunits)
    {datai pstop : Nat} (hat : At b datai (runs.flatMap runBytes))
    (hstop : pstop = datai + (runs.flatMap runBytes).length) (hhome : HomePage cfg pid m addr)
    (halign : (addr.toNat - cfg.gstart) % Pagesize = 0) (wv : BitVec Wvbits) :
    ∃ m' wv', copyRuns cfg pid b addr pstop m datai wv = .ok (m', pstop, wv') ∧
      Rewrites (cfg.pagei addr) (applyRuns runs (m.mem (cfg.pagei addr))) m m' := by
  induction runs generalizing m datai wv with
  | nil =>
      have hend : pstop = datai := hstop
      refine ⟨m, wv, ?_, (upd_eq_self _ _).symm, rfl, fun _ hq => hq⟩
      rw [copyRuns, if_neg (by omega), hend]
  | cons r runs ih =>
      rw [List.flatMap_cons, List.length_append] at hstop
      rw [List.flatMap_cons, at_append] at hat
      obtain ⟨hrun, hrest⟩ := hat
      rw [runBytes, at_append, length_toLE] at hrun
      have hlen := length_runBytes r
      have hr := hfit r List.mem_cons_self
      have hunits := hrun.2.readBytes
      rw [length_flatMap_const length_unitBytes] at hunits
      have hsmall : Diffunit * r.start + Diffunit * r.units.length ≤ Pagesize := by
        simp only [Diffunit, Pageunits, Pagesize] at *
        omega
      have hstart : Diffunit * r.start < 2 ^ 16 := by
        simp only [Pagesize] at hsmall
        omega
      have hcnt : Diffunit * r.units.length < 2 ^ 16 := by
        simp only [Pagesize] at hsmall
        omega
      obtain ⟨m₁, hcopy, hr₁⟩ := copyTo_total hhome halign
        (Diffunit * r.start) (r.units.flatMap unitBytes)
        (by rw [length_flatMap_const length_unitBytes]; exact hsmall)
      rw [memcpy_units] at hr₁
      have hnext : datai + Intbytes + Diffunit * r.units.length = datai + (runBytes r).length := by
        rw [hlen, Nat.add_assoc]
      obtain ⟨m', wv', hloop, hr'⟩ := ih (fun r' hr' => hfit r' (List.mem_cons_of_mem _ hr'))
        hrest (by omega) (hhome.rewritten hr₁)
        (if cfg.wVec ∧ 0 < Diffunit * r.units.length then
          markBlocks (Diffunit * r.start / Blocksize * Blocksize)
            (Diffunit * r.start + Diffunit * r.units.length) wv
        else wv)
      refine ⟨m', wv', ?_, ?_⟩
      · rw [copyRuns, if_pos (by rw [hlen] at hstop; simp only [Intbytes] at *; omega),
          bytestoi_at hrun.1]
        simp only [dsize_header hcnt, doffset_header hstart, bind_eq_ok]
        refine ⟨m₁, ?_, ?_⟩
        · rw [hunits]
          exact hcopy
        · rw [hnext]
          exact hloop
      · rw [hr₁.mem, upd_same] at hr'
        exact hr₁.trans hr'

theorem openHome_total (hhome : HomePage cfg pid m addr) (homei : Nat) :
    ∃ m', m.openHome cfg (cfg.pagei addr) homei = .ok m' ∧
      Rewrites (cfg.pagei addr) (m.mem (cfg.pagei addr)) m m' := by
  unfold MemState.openHome
  split
  · exact ⟨m, rfl, (upd_eq_self _ _).symm, rfl, fun _ hq => hq⟩
  · exact ⟨_, MemState.memprotect_eq_ok.mpr ⟨hhome.mapped, rfl⟩, (upd_eq_self _ _).symm, rfl,
      mapped_setProt (by decide)⟩

theorem noteVector_total (cfg : Config) (src : Nat) (m : MemState) {homei : Nat} (hhomei : homei < Homepages)
    (wv : BitVec Wvbits) :
    ∃ m', noteVector cfg m homei wv src = .ok m' ∧ m'.mem = m.mem ∧ m'.page = m.page ∧
      m'.prot = m.prot := by
  unfold noteVector
  split
  · simp only [bind_eq_ok, defined_eq_ok]
    exact ⟨_, ⟨(), hhomei, rfl⟩, rfl, rfl, rfl⟩
  · exact ⟨m, rfl, rfl, rfl, rfl⟩

theorem closed_same {homei : Nat} (h : m.closeHome cfg p homei = .ok m') :
    m'.mem = m.mem ∧ m'.page = m.page ∧ ∀ q, m.prot q ≠ .unmapped → m'.prot q ≠ .unmapped := by
  rw [MemState.closeHome_ok h]
  split
  · exact ⟨rfl, rfl, fun _ hq => hq⟩
  · exact ⟨rfl, rfl, mapped_setProt (by decide)⟩

/-- Where the diff of `size` bytes that starts at `datai` ends. -/
theorem pstop_eq {datai size : Nat} (h : datai + size ≤ Maxmsgsize) :
    ((BitVec.ofNat 32 size).signExtend 64 + BitVec.ofNat 64 (datai + Addrbytes) - 8).toNat =
      datai + size := by
  simp only [Maxmsgsize, Maxsize, Msgheadsize] at h
  have hmsb : (BitVec.ofNat 32 size).msb = false := by
    rw [BitVec.msb_eq_false_iff_two_mul_lt, BitVec.toNat_ofNat]
    omega
  rw [BitVec.signExtend_eq_setWidth_of_msb_false hmsb, BitVec.toNat_sub, BitVec.toNat_add,
    BitVec.toNat_setWidth, BitVec.toNat_ofNat, BitVec.toNat_ofNat]
  show (2 ^ 64 - 8 + (size % 2 ^ 32 % 2 ^ 64 + (datai + 8) % 2 ^ 64) % 2 ^ 64) % 2 ^ 64 = datai + size
  omega

/-- A diff that was encoded somewhere: its address starts a page and its runs fit into it. -/
structure Encoded (cfg : Config) (d : PageDiff) : Prop where
  aligned : (d.addr.toNat - cfg.gstart) % Pagesize = 0
  fit : ∀ r ∈ d.runs, r.start + r.units.length ≤ Pageunits

theorem diffTurn_total (src : Nat) {d : PageDiff} {datai : Nat} (hd : Encoded cfg d)
    (hat : At b datai (diffBytes d)) (hsize : datai + d.size ≤ Maxmsgsize)
    (hhome : HomePage cfg pid m d.addr) :
    ∃ m', diffTurn cfg pid src b m datai = .ok (m', datai + d.size) ∧
      Rewrites (cfg.pagei d.addr) (applyRuns d.runs (m.mem (cfg.pagei d.addr))) m m' := by
  have hlen := length_diffBytes d
  rw [diffBytes, List.length_append, List.length_append, length_toLE, length_toLE] at hlen
  rw [diffBytes, at_append, at_append, List.length_append, length_toLE, length_toLE] at hat
  obtain ⟨⟨haddr, hfield⟩, hruns⟩ := hat
  obtain ⟨m₁, hopen, hr₁⟩ := openHome_total hhome (m.homepage cfg d.addr)
  have hhome₁ := hhome.rewritten hr₁
  have hstop : datai + d.size =
      datai + Addrbytes + Intbytes + (d.runs.flatMap runBytes).length := by omega
  rw [← Nat.add_assoc] at hruns
  obtain ⟨m₂, wv, hcopy, hr₂⟩ := copyRuns_total hd.fit hruns hstop hhome₁ hd.aligned 0
  obtain ⟨m₃, hnote, hmem₃, hpage₃, hprot₃⟩ :=
    noteVector_total cfg src m₂ hhome.homei wv
  have hmapped₃ : m₃.prot (cfg.pagei d.addr) ≠ .unmapped := by
    rw [hprot₃]
    exact (hhome₁.rewritten hr₂).mapped
  obtain ⟨m₄, hclose⟩ := closeHome_total cfg (m.homepage cfg d.addr) hmapped₃
  obtain ⟨hmem₄, hpage₄, hmapped₄⟩ := closed_same hclose
  rw [hr₁.mem, upd_same] at hr₂
  refine ⟨m₄, ?_, ?_⟩
  · simp only [diffTurn, s2l_at haddr, bytestoi_at hfield, pstop_eq hsize, bind_eq_ok, Prod.exists]
    exact ⟨m₁, hopen, m₂, _, wv, hcopy, m₃, hnote, m₄, hclose, rfl⟩
  · have hall := (hr₁.trans hr₂).then_same hmem₃ hpage₃ (fun q hq => by rwa [hprot₃])
    exact hall.then_same hmem₄ hpage₄ hmapped₄

/-- The loop walks through the diffs of a message and stops at its end. -/
theorem diffLoop_total {ds : List PageDiff} {datai size fuel : Nat}
    (hds : ∀ d ∈ ds, Encoded cfg d) (hat : At b datai (ds.flatMap diffBytes))
    (hsize : size = datai + (ds.flatMap diffBytes).length) (hmax : size ≤ Maxmsgsize)
    (hfuel : (ds.flatMap diffBytes).length < fuel) (hhome : ∀ d ∈ ds, HomePage cfg pid m d.addr) :
    ∃ m', diffLoop cfg pid src b size fuel m datai = .ok (m', size) ∧
      ∀ p, m'.mem p = (ds.filter fun d => cfg.pagei d.addr = p).foldl
        (fun pg d => applyRuns d.runs pg) (m.mem p) := by
  induction ds generalizing m datai fuel with
  | nil =>
      have hend : size = datai := hsize
      cases fuel with
      | zero => exact absurd hfuel (Nat.not_lt_zero _)
      | succ fuel =>
          refine ⟨m, ?_, fun p => rfl⟩
          rw [diffLoop, if_neg (by omega), hend]
  | cons d ds ih =>
      have hpos : 12 ≤ d.size := by
        rw [PageDiff.size]
        simp only [Addrbytes, Intbytes]
        omega
      rw [List.flatMap_cons, List.length_append, length_diffBytes] at hsize hfuel
      rw [List.flatMap_cons, at_append, length_diffBytes] at hat
      cases fuel with
      | zero => exact absurd hfuel (Nat.not_lt_zero _)
      | succ fuel =>
          obtain ⟨m₁, hturn, hr⟩ := diffTurn_total src (hds d List.mem_cons_self) hat.1
            (by omega) (hhome d List.mem_cons_self)
          obtain ⟨m', hloop, hmem⟩ := ih (fun d' hd' => hds d' (List.mem_cons_of_mem _ hd')) hat.2
            (by omega) (show _ < fuel by omega)
            (fun d' hd' => (hhome d' (List.mem_cons_of_mem _ hd')).rewritten hr)
          refine ⟨m', ?_, ?_⟩
          · rw [diffLoop, if_pos (by omega)]
            simp only [bind_eq_ok, Prod.exists]
            exact ⟨m₁, _, hturn, hloop⟩
          · intro p
            rw [hmem p, hr.mem]
            by_cases hp : cfg.pagei d.addr = p
            · subst hp
              simp
            · rw [upd_of_ne _ _ (Ne.symm hp)]
              simp [hp]

end Decode

/-! ## Round trip -/

/-- A cached page with its twin, and what stood in the buffer it is encoded into. -/
structure Dirty where
  p : Nat
  cur : Page
  twin : Page
  diff : Buffer

namespace Dirty

variable (cfg : Config)

def encoding (x : Dirty) : List Byte :=
  DiffWire.encoding (cfg.pageAddr x.p) x.cur x.twin x.diff

def pageDiff (x : Dirty) : PageDiff := Jiajia.encodediff (cfg.pageAddr x.p) x.cur x.twin

variable {cfg} {x : Dirty}

theorem length_encoding_le (cfg : Config) (x : Dirty) : (x.encoding cfg).length ≤ Pagesize + 16 := by
  rw [encoding, encoding_eq, length_diffBytes]
  exact encodediff_size_le x.cur x.twin _

theorem encoded (hp : x.p < cfg.npages) : Encoded cfg (x.pageDiff cfg) where
  aligned := by
    show ((cfg.pageAddr x.p).toNat - cfg.gstart) % Pagesize = 0
    rw [Config.pageAddr_toNat hp, Nat.add_sub_cancel_left, Nat.mul_mod_left]
  fit := encodeRuns_fit x.cur x.twin Pageunits (Nat.zero_le Pageunits)

/-- Of the diffs for distinct pages, at most one is for page `q`. -/
theorem filter_pageDiff {xs : List Dirty} (hpages : ∀ x ∈ xs, x.p < cfg.npages) (q : Nat) :
    (xs.map (pageDiff cfg)).filter (fun d => cfg.pagei d.addr = q) =
      (xs.filter fun x => x.p = q).map (pageDiff cfg) := by
  rw [List.filter_map]
  refine congrArg (List.map (pageDiff cfg)) (List.filter_congr ?_)
  intro x hx
  show decide (cfg.pagei (cfg.pageAddr x.p) = q) = decide (x.p = q)
  rw [Config.pagei_pageAddr (hpages x hx)]

theorem filter_p_eq {xs : List Dirty} (hdistinct : (xs.map Dirty.p).Nodup) (hx : x ∈ xs) :
    (xs.filter fun y => y.p = x.p) = [x] := by
  induction xs with
  | nil => exact absurd hx List.not_mem_nil
  | cons y ys ih =>
      rw [List.map_cons, List.nodup_cons] at hdistinct
      cases List.mem_cons.mp hx with
      | inl heq =>
          subst heq
          have hnone : (ys.filter fun y => y.p = x.p) = [] := by
            rw [List.filter_eq_nil_iff]
            intro y hy hp
            have hp' : y.p = x.p := of_decide_eq_true hp
            exact hdistinct.1 (List.mem_map.mpr ⟨y, hy, hp'⟩)
          rw [List.filter_cons_of_pos (by simp), hnone]
      | inr hmem =>
          have hne : ¬ y.p = x.p := fun hp => hdistinct.1 (List.mem_map.mpr ⟨x, hmem, hp.symm⟩)
          rw [List.filter_cons_of_neg (by simpa using hne)]
          exact ih hdistinct.2 hmem

end Dirty

/-- `diffserver` takes a message of diffs apart to its last byte and merges each diff into
the page it was made for. -/
theorem diff_round_trip (cfg : Config) (pid : Nat) (m : MemState) (req : JiaMsg) (rest : Buffer)
    (xs : List Dirty) (hreq : req.op = DIFF ∧ req.topid = pid)
    (hdata : req.data = xs.flatMap (Dirty.encoding cfg)) (hmax : req.data.length ≤ Maxmsgsize)
    (hpages : ∀ x ∈ xs, x.p < cfg.npages) (hdistinct : (xs.map Dirty.p).Nodup)
    (hhome : ∀ x ∈ xs, HomePage cfg pid m (cfg.pageAddr x.p)) :
    (∀ addr cur twin diff, (encodediff addr cur twin diff).2 ≤ Pagesize + 16) ∧
    ∃ m', diffserver cfg pid m req rest =
        .ok (m', req.data.length, [(req.frompid, .diffgrant)]) ∧
      (∀ x ∈ xs, ∀ u, m'.mem x.p u = if x.cur u = x.twin u then m.mem x.p u else x.cur u) ∧
      (∀ q, q ∉ xs.map Dirty.p → m'.mem q = m.mem q) ∧
      ∀ x ∈ xs, m.mem x.p = x.twin → m'.mem x.p = x.cur := by
  have hsize : ∀ addr cur twin diff, (encodediff addr cur twin diff).2 ≤ Pagesize + 16 := by
    intro addr cur twin diff
    rw [(encodediff_eq cur twin addr diff).2]
    exact encodediff_size_le cur twin addr
  have hbytes : req.data = (xs.map (Dirty.pageDiff cfg)).flatMap diffBytes := by
    rw [hdata, List.flatMap_map]
    exact congrArg List.flatten (List.map_congr_left fun x _ => encoding_eq x.cur x.twin _ x.diff)
  have hat := at_overlay req.data rest
  nth_rewrite 2 [hbytes] at hat
  have hds : ∀ d ∈ xs.map (Dirty.pageDiff cfg), Encoded cfg d := by
    intro d hd
    obtain ⟨x, hx, rfl⟩ := List.mem_map.mp hd
    exact Dirty.encoded (hpages x hx)
  have hhomes : ∀ d ∈ xs.map (Dirty.pageDiff cfg), HomePage cfg pid m d.addr := by
    intro d hd
    obtain ⟨x, hx, rfl⟩ := List.mem_map.mp hd
    exact hhome x hx
  have hlen : req.data.length = 0 + ((xs.map (Dirty.pageDiff cfg)).flatMap diffBytes).length := by
    rw [← hbytes, Nat.zero_add]
  obtain ⟨m', hloop, hmem⟩ := diffLoop_total hds hat hlen hmax
    (show _ < req.data.length + 1 by omega) hhomes
  have hpage : ∀ x ∈ xs, m'.mem x.p = mergeDiff x.cur x.twin (m.mem x.p) := by
    intro x hx
    rw [hmem x.p, Dirty.filter_pageDiff hpages, Dirty.filter_p_eq hdistinct hx]
    exact applyRuns_encodediff _ x.cur x.twin _
  refine ⟨hsize, m', ?_, ?_, ?_, ?_⟩
  · simp only [diffserver, bind_eq_ok, jiaAssert_eq_ok, Prod.exists]
    exact ⟨(), hreq, m', _, hloop, rfl⟩
  · intro x hx u
    rw [hpage x hx, mergeDiff]
  · intro q hq
    have hnone : (xs.filter fun x => x.p = q) = [] := by
      rw [List.filter_eq_nil_iff]
      intro x hx hp
      exact hq (List.mem_map.mpr ⟨x, hx, of_decide_eq_true hp⟩)
    rw [hmem q, Dirty.filter_pageDiff hpages, hnone]
    rfl
  · intro x hx htwin
    ext1 u
    rw [hpage x hx, mergeDiff, htwin]
    split
    · rename_i hsame
      exact hsame.symm
    · rfl

/-- A page whose units `us` hold `v`. -/
def unitsHold (us : List Nat) (v : Word) : Page := fun u => if u.val ∈ us then v else 0

/-- Host 0 wrote two runs of page 0 and the last unit of page 1. -/
def twoDirty : List Dirty :=
  [⟨0, unitsHold [0, 6, 7] 7, zeroPage, fun _ => 0⟩, ⟨1, unitsHold [1023] 9, zeroPage, fun _ => 1⟩]

def twoDirtyReq : JiaMsg := ⟨DIFF, 0, 2, 0, 0, twoDirty.flatMap (Dirty.encoding .prefetchPair)⟩

/-- The home has stored to unit 3 of page 0. -/
def homeStored : MemState :=
  { initmem .prefetchPair 2 with mem := fun p => if p = 0 then unitsHold [3] 5 else zeroPage }

/-- The home merges both pages and keeps its own store. -/
theorem diff_round_trip_twoPages :
    ∃ m', diffserver .prefetchPair 2 homeStored twoDirtyReq (fun _ => 255) =
        .ok (m', twoDirtyReq.data.length, [(0, .diffgrant)]) ∧
      (∀ u : Fin Pageunits, m'.mem 0 u = if u.val ∈ [0, 6, 7] then 7 else unitsHold [3] 5 u) ∧
      m'.mem 1 = unitsHold [1023] 9 := by
  have hmax : twoDirtyReq.data.length ≤ Maxmsgsize := by
    have hdata : twoDirtyReq.data.length =
        (twoDirty.map fun x => (x.encoding .prefetchPair).length).sum := List.length_flatMap
    have hle : ∀ n ∈ twoDirty.map fun x => (x.encoding .prefetchPair).length,
        n ≤ Pagesize + 16 := by
      simp only [List.forall_mem_map]
      intro x _
      exact Dirty.length_encoding_le .prefetchPair x
    rw [hdata]
    exact (List.sum_le_card_nsmul _ _ hle).trans (by decide)
  have hpages : ∀ x ∈ twoDirty, x.p < Config.prefetchPair.npages := by
    simp only [twoDirty, List.forall_mem_cons]
    decide
  have hhome : ∀ x ∈ twoDirty,
      HomePage .prefetchPair 2 homeStored (Config.prefetchPair.pageAddr x.p) := by
    have hfirst : HomePage .prefetchPair 2 homeStored (Config.prefetchPair.pageAddr 0) :=
      ⟨by decide, by decide, by decide⟩
    have hsecond : HomePage .prefetchPair 2 homeStored (Config.prefetchPair.pageAddr 1) :=
      ⟨by decide, by decide, by decide⟩
    simp only [twoDirty, List.forall_mem_cons]
    exact ⟨hfirst, hsecond, by simp⟩
  obtain ⟨-, m', hserve, hmerged, -, htwin⟩ := diff_round_trip .prefetchPair 2 homeStored
    twoDirtyReq (fun _ => 255) twoDirty ⟨rfl, rfl⟩ rfl hmax hpages (by simp [twoDirty]) hhome
  have hfirst := hmerged _ (List.mem_cons_self : _ ∈ twoDirty)
  have hsecond := htwin _ (List.mem_cons_of_mem _ List.mem_cons_self : _ ∈ twoDirty) rfl
  refine ⟨m', hserve, ?_, hsecond⟩
  intro u
  have hne : ¬ (7 : Word) = 0 := by decide
  rw [hfirst u]
  by_cases hu : u.val ∈ [0, 6, 7]
  · simp only [unitsHold, zeroPage, if_pos hu, if_neg hne]
  · simp only [unitsHold, zeroPage, if_neg hu, homeStored]
    rfl

end Jiajia.DiffWire
