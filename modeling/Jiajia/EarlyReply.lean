import Jiajia.FullCache

/-!
# A reply that comes early

`sigsegv_handler` sends GETP and writes its entry into the cache slot only then.  The
server thread may handle the reply in between, so the entry is written before one of the
pages that come along, or inside the search for the slot of one: when the search has ended
and the slot it ended at has not been looked at again.
-/

namespace Jiajia

namespace MemState

variable {cfg : Config} {m m' : MemState} {w : FaultWait}

/-! ## The entry of the fault handler -/

/-- The entry the handler writes into the slot of the page it waits for. -/
def markSlot (cfg : Config) (w : FaultWait) (m : MemState) : MemState :=
  let c := m.cache w.cachei
  m.setCache w.cachei
    (if w.writefault then
      { state := .rw, addr := cfg.pageAddr w.page, twin := newtwin c.twin, wtnt := true }
    else { c with state := .ro, addr := cfg.pageAddr w.page })

/-- The handler asks for the page, and then writes the entry. -/
theorem cacheFault_marks {p seti : Nat} {out : Out} :
    m.cacheFault cfg p seti = .ok (m', w, out) ↔
      w.page = p ∧ w.writefault = m.writefault p ∧
        ∃ m₁, m.faultSlot cfg p seti = .ok (m₁, w.cachei, out) ∧ m' = m₁.markSlot cfg w := by
  rw [cacheFault_eq_ok]
  constructor
  · rintro ⟨m₁, s, hslot, rfl, rfl⟩
    exact ⟨rfl, rfl, m₁, hslot, rfl⟩
  · rintro ⟨rfl, hw, m₁, hslot, rfl⟩
    refine ⟨m₁, w.cachei, hslot, ?_, ?_⟩
    · unfold markSlot faultEntry
      rw [hw]
    · rw [← hw]

theorem markSlot_cache_of_ne {c : Nat} (hc : c ≠ w.cachei) :
    (m.markSlot cfg w).cache c = m.cache c := by
  rw [markSlot, setCache_cache, upd_of_ne _ _ hc]

theorem markSlot_state : ((m.markSlot cfg w).cache w.cachei).state =
    if w.writefault then .rw else .ro := by
  rw [markSlot, setCache_cache, upd_same]
  split <;> rfl

/-- The handler has asked for page `w.page` and not yet written its entry: it has opened the
INV slot of the page, or `findposition` has given it an UNMAP one. -/
structure Asked (cfg : Config) (m : MemState) (w : FaultWait) : Prop where
  marked : Pending cfg (m.markSlot cfg w) w
  state : (m.cache w.cachei).state = if w.writefault then .inv else .unmap
  linked : w.writefault = true → Linked cfg m

/-- What the handler has done when it waits: the kernel has told it the page was mapped
just when the page had a slot. -/
theorem faultSlot_asked (hl : Linked cfg m) {p seti s : Nat} {out : Out} (hp : p < cfg.npages)
    (hmapped : m.prot p ≠ .unmapped ↔ ¬ m.Uncached cfg p)
    (hinv : ¬ m.Uncached cfg p → (m.cache (m.page p).cachei).state = .inv)
    (h : m.faultSlot cfg p seti = .ok (m', s, out)) : Asked cfg m' ⟨p, m.writefault p, s⟩ := by
  have hfault : m.cacheFault cfg p seti =
      .ok (m'.markSlot cfg ⟨p, m.writefault p, s⟩, ⟨p, m.writefault p, s⟩, out) :=
    cacheFault_marks.mpr ⟨rfl, rfl, m', h, rfl⟩
  refine ⟨(cacheFault_pending hl hp hfault).1, ?_, ?_⟩
  · rcases faultSlot_cases cfg m h with ⟨hlt, rfl, hprot, wait, rfl, -⟩ | ⟨hfree, m₂, hfind, rfl, -⟩
    · have hwrite : m.writefault p = true := decide_eq_true hprot
      rw [hwrite, if_pos rfl]
      exact hinv (not_le.mpr hlt)
    · have hread : m.writefault p = false := by
        apply decide_eq_false
        exact fun hprot => hmapped.mp hprot hfree
      obtain ⟨rfl, hrw, -⟩ := findposition_some hfind
      obtain ⟨m₁, hfind', -, hstate, -⟩ := findposition_placed hl hfree hrw
      rw [hfind', Option.some.injEq, Prod.mk.injEq] at hfind
      obtain ⟨-, rfl⟩ := hfind
      rw [hread, if_neg Bool.false_ne_true]
      exact hstate
  · intro hwrite
    rcases faultSlot_cases cfg m h with ⟨-, -, -, wait, rfl, -⟩ | ⟨hfree, -⟩
    · exact hl.congr (fun _ => rfl) (fun _ => rfl) fun _ => Iff.rfl
    · exact absurd hfree (hmapped.mp (of_decide_eq_true hwrite))

/-! ## The reply, with the entry written at some time -/

/-- When the entry is written: before page `k` of those that come along, or inside the
search for a slot for it. -/
inductive MarkTime
  | before (k : Nat)
  | search (k : Nat)
deriving DecidableEq, Repr

/-- One more page, with the entry written when the search for its slot has ended. -/
def installExtraMarked (cfg : Config) (w : FaultWait) (x : ExtraPage) (seti : Nat)
    (m : MemState) : Result MemState :=
  if (m.page (cfg.pagei x.addr)).cachei < cfg.cachepages then .ok (m.markSlot cfg w)
  else (m.markSlot cfg w).installAt cfg x (m.findSlot cfg seti)

/-- The pages that come along; the entry is written after them at the latest. -/
def installExtrasMarked (cfg : Config) (w : FaultWait) :
    MarkTime → MemState → List ExtraPage → List Nat → Result MemState
  | .before 0, m, xs, rnd => installExtras cfg (m.markSlot cfg w) xs rnd
  | _, m, [], _ => .ok (m.markSlot cfg w)
  | .before (k + 1), m, x :: xs, rnd => do
      let m ← m.installExtra cfg x (rnd.headD 0)
      installExtrasMarked cfg w (.before k) m xs rnd.tail
  | .search 0, m, x :: xs, rnd => do
      let m ← m.installExtraMarked cfg w x (rnd.headD 0)
      installExtras cfg m xs rnd.tail
  | .search (k + 1), m, x :: xs, rnd => do
      let m ← m.installExtra cfg x (rnd.headD 0)
      installExtrasMarked cfg w (.search k) m xs rnd.tail

/-- `getpgrantserver` with the entry written at time `t`. -/
def getpgrantserverMarked (cfg : Config) (w : FaultWait) (t : MarkTime) (m : MemState)
    (addr : Addr) (wv : BitVec Wvbits) (data : Page) (extra : List ExtraPage) (rnd : List Nat) :
    Result MemState := do
  let p := cfg.pagei addr
  defined (m.prot p = .readWrite) "copy to a page that is not writable"
  let pg := if cfg.wVec ∧ wv ≠ WVFULL then maskPage wv data (m.mem p) else data
  let m ← installExtrasMarked cfg w t (m.setMem p pg) extra rnd
  return { m with getpwait := false }

theorem getpgrantserverMarked_first {addr : Addr} {wv : BitVec Wvbits} {data : Page}
    {xs : List ExtraPage} {rnd : List Nat} :
    m.getpgrantserverMarked cfg w (.before 0) addr wv data xs rnd =
      (m.markSlot cfg w).getpgrantserver cfg addr wv data xs rnd := by
  unfold getpgrantserverMarked getpgrantserver
  simp only [installExtrasMarked]
  rfl

/-! ## Enough UNMAP slots -/

theorem fromNth_none {α : Type} {P : α → Bool} {u : Nat} {xs : List α} (h : xs.countP P = 0) :
    fromNth P u xs = [] := by
  induction xs with
  | nil => cases u <;> rfl
  | cons x xs ih =>
      have hx : P x = false := by
        cases hx : P x with
        | true =>
            rw [List.countP_cons_of_pos hx] at h
            omega
        | false => rfl
      rw [fromNth_skip hx]
      apply ih
      rwa [List.countP_cons_of_neg (by simp [hx])] at h

/-- The pages that come along and have no slot get UNMAP ones in a write fault, and there
are none in a read fault. -/
def Spare (cfg : Config) (m : MemState) (w : FaultWait) (xs : List ExtraPage) : Prop :=
  xs.countP (fun x => decide (m.Uncached cfg (cfg.pagei x.addr))) ≤
    if w.writefault then (m.slotsIn cfg .unmap).card else 0

instance (xs : List ExtraPage) : Decidable (Spare cfg m w xs) :=
  inferInstanceAs (Decidable (_ ≤ _))

theorem findLoop_fst_congr (h : ∀ c, (m'.cache c).state = .unmap ↔ (m.cache c).state = .unmap)
    {k seti : Nat} {invi invi' : Option Nat} :
    (m'.findLoop cfg k seti invi').1 = (m.findLoop cfg k seti invi).1 := by
  induction k generalizing seti invi invi' with
  | zero => rfl
  | succ k ih =>
      rw [findLoop, findLoop]
      by_cases hst : (m.cache seti).state = .unmap
      · rw [if_pos hst, if_pos ((h seti).mpr hst)]
      · rw [if_neg hst, if_neg fun hcon => hst ((h seti).mp hcon)]
        exact ih

theorem findSlot_unmap {c : Nat} (hc : c < cfg.cachepages) (hst : (m.cache c).state = .unmap)
    (seti : Nat) : (m.cache (m.findSlot cfg seti)).state = .unmap := by
  cases (findSlot_settles cfg m seti).2 with
  | unmap hstate => exact hstate
  | inv hno => exact absurd hst (hno c hc)
  | start hno => exact absurd hst (hno c hc).1

theorem findSlot_congr (h : ∀ c, (m'.cache c).state = .unmap ↔ (m.cache c).state = .unmap)
    {seti : Nat} (hst : (m.cache (m.findSlot cfg seti)).state = .unmap) :
    m'.findSlot cfg seti = m.findSlot cfg seti := by
  have hlt := (findSlot_settles cfg m seti).1
  have hstart : seti % cfg.cachepages < cfg.cachepages := Nat.mod_lt _ cfg.cachepages_pos
  have hend : (m.cache (m.findLoop cfg cfg.cachepages (seti % cfg.cachepages) none).1).state =
      .unmap := by
    cases findLoop_scan (m := m) cfg.cachepages none hstart with
    | found _ hfound => exact hfound
    | around _ hno =>
        obtain ⟨k, hk, heq⟩ := exists_turn hstart hlt
        exact absurd (heq ▸ hst) (hno k hk)
  have hend' := (h _).mpr hend
  have hfst := @findLoop_fst_congr cfg m m' h cfg.cachepages (seti % cfg.cachepages) none none
  unfold findSlot
  simp only [hfst]
  rw [if_neg (not_not.mpr hend'), if_neg (not_not.mpr hend)]

theorem installAt_markSlot {x : ExtraPage} {s : Nat} (hst : (m.cache s).state = .unmap)
    (hs : s ≠ w.cachei) :
    (m.markSlot cfg w).installAt cfg x s = (m.installAt cfg x s).map (markSlot cfg w) := by
  have hcache := @markSlot_cache_of_ne cfg m w s hs
  have htake : (m.markSlot cfg w).takeSlot cfg (cfg.pagei x.addr) s =
      some (s, (m.setPage (cfg.pagei x.addr)
        { m.page (cfg.pagei x.addr) with cachei := s }).markSlot cfg w) := by
    unfold takeSlot
    rw [hcache, hst]
    rfl
  have htake' : m.takeSlot cfg (cfg.pagei x.addr) s =
      some (s, m.setPage (cfg.pagei x.addr) { m.page (cfg.pagei x.addr) with cachei := s }) := by
    unfold takeSlot
    rw [hst]
  have hprot : ∀ m₂ : MemState, m₂.prot (cfg.pagei x.addr) ≠ .unmapped →
      m₂.memprotect (cfg.pagei x.addr) .read = .ok (m₂.setProt (cfg.pagei x.addr) .read) :=
    fun m₂ hmapped => memprotect_eq_ok.mpr ⟨hmapped, rfl⟩
  unfold installAt
  simp only [htake, htake']
  rw [hprot _ (by simp [memmap]), hprot _ (by simp [memmap])]
  simp only [Except.map, Except.ok.injEq]
  unfold markSlot memmap setCache setPage setProt setMem
  simp only [upd_of_ne _ _ hs, upd_of_ne _ _ hs.symm, upd_comm _ _ _ hs]

section Turns

variable {x : ExtraPage} {xs : List ExtraPage} {rnd : List Nat} {q s : Nat} {t : MarkTime}

theorem Spare.skip (h : ¬ m.Uncached cfg (cfg.pagei x.addr)) :
    Spare cfg m w (x :: xs) ↔ Spare cfg m w xs := by
  unfold Spare
  rw [List.countP_cons_of_neg (by simpa using h)]

theorem asked_unmap_iff (ha : Asked cfg m w) (hwrite : w.writefault = true) (c : Nat) :
    ((m.markSlot cfg w).cache c).state = .unmap ↔ (m.cache c).state = .unmap := by
  by_cases hc : c = w.cachei
  · have hinv := ha.state
    rw [if_pos hwrite] at hinv
    rw [hc, markSlot_state, if_pos hwrite, hinv]
    exact iff_of_false (by simp) (by simp)
  · rw [markSlot_cache_of_ne hc]

/-- The waiting page is not touched while the page that gets a slot gets another one. -/
theorem Asked.placed (ha : Asked cfg m w) (hplaced : Placed cfg q s m m')
    (hmarked : Placed cfg q s (m.markSlot cfg w) (m'.markSlot cfg w)) (hq : q ≠ w.page) (hs : s ≠ w.cachei) : Asked cfg m' w where
  marked := (hmarked.pending ha.marked hq hs).1
  state := by rw [hplaced.cache _ (Ne.symm hs), ha.state]
  linked _ := hplaced.linked

theorem Spare.placed_iff (hl : Linked cfg m) (hw : w.writefault = true)
    (hplaced : Placed cfg q s m m') (hst : (m.cache s).state = .unmap)
    (hun : m.Uncached cfg (cfg.pagei x.addr))
    (hxs : ∀ y ∈ xs, cfg.pagei y.addr < cfg.npages ∧ cfg.pagei y.addr ≠ q) :
    Spare cfg m' w xs ↔ Spare cfg m w (x :: xs) := by
  have hsame : xs.countP (fun x => decide (m'.Uncached cfg (cfg.pagei x.addr))) =
      xs.countP fun x => decide (m.Uncached cfg (cfg.pagei x.addr)) := by
    apply List.countP_congr
    intro y hy
    obtain ⟨hlt, hne⟩ := hxs y hy
    have hfree : (m.page (cfg.pagei y.addr)).cachei ≠ s :=
      fun heq => ((hl.slot _ hlt s hplaced.slot).mp heq).1 hst
    simp only [decide_eq_true_eq, hplaced.uncached hlt hne, hfree, or_false]
  have hcard : (m'.slotsIn cfg .unmap).card + 1 = (m.slotsIn cfg .unmap).card := by
    rw [hplaced.slotsIn (by simp)]
    exact card_slotsIn_erase hplaced.slot hst
  unfold Spare
  rw [if_pos hw, if_pos hw, hsame, List.countP_cons_of_pos (by simpa using hun)]
  omega

theorem Spare.unmap (hspare : Spare cfg m w (x :: xs)) (hun : m.Uncached cfg (cfg.pagei x.addr)) :
    w.writefault = true ∧ ∃ c < cfg.cachepages, (m.cache c).state = .unmap := by
  unfold Spare at hspare
  rw [List.countP_cons_of_pos (by simpa using hun)] at hspare
  split at hspare
  · rename_i hw
    obtain ⟨c, hc⟩ := Finset.card_pos.mp (Nat.zero_lt_of_lt hspare)
    exact ⟨hw, c, mem_slotsIn.mp hc⟩
  · omega

/-- A turn that is the same whether the entry is written before, inside or after it. -/
structure SameTurn (cfg : Config) (w : FaultWait) (x : ExtraPage) (seti : Nat)
    (m m' : MemState) : Prop where
  after : m.installExtra cfg x seti = .ok m'
  inside : m.installExtraMarked cfg w x seti = .ok (m'.markSlot cfg w)
  before : (m.markSlot cfg w).installExtra cfg x seti = .ok (m'.markSlot cfg w)

theorem sameTurn_cached {seti : Nat} (h : ¬ m.Uncached cfg (cfg.pagei x.addr)) :
    SameTurn cfg w x seti m m where
  after := installExtra_cached h
  inside := by
    unfold installExtraMarked
    rw [if_pos (not_le.mp h)]
  before := installExtra_cached h

theorem sameTurn_unmap (ha : Asked cfg m w) (hw : w.writefault = true) (hq : q < cfg.npages)
    (hqp : q ≠ w.page) (hax : x.addr = cfg.pageAddr q) (hun : m.Uncached cfg q) {seti : Nat}
    (hst : (m.cache (m.findSlot cfg seti)).state = .unmap) :
    ∃ m', SameTurn cfg w x seti m m' ∧ Asked cfg m' w ∧
      Placed cfg q (m.findSlot cfg seti) m m' := by
  have hpage : cfg.pagei x.addr = q := by rw [hax, cfg.pagei_pageAddr hq]
  have hun' : m.Uncached cfg (cfg.pagei x.addr) := hpage ▸ hun
  have hmarkun : (m.markSlot cfg w).Uncached cfg (cfg.pagei x.addr) := hun'
  have hsame := findSlot_congr (asked_unmap_iff ha hw) hst
  have hslot := (findSlot_settles cfg m seti).1
  have hne : m.findSlot cfg seti ≠ w.cachei := by
    intro heq
    have hinv := ha.state
    rw [hw, if_pos rfl, ← heq, hst] at hinv
    cases hinv
  have hnrw : (m.cache (m.findSlot cfg seti)).state ≠ .rw := by simp [hst]
  have hmst : ((m.markSlot cfg w).cache (m.findSlot cfg seti)).state ≠ .rw := by
    rw [markSlot_cache_of_ne hne]
    exact hnrw
  obtain ⟨m₁, hone, hplaced, -⟩ := installAt_placed (ha.linked hw) hq hax hun hslot hnrw
  obtain ⟨m₂, hmone, hmplaced, -⟩ := installAt_placed ha.marked.linked hq hax hun hslot hmst
  have hcomm := @installAt_markSlot cfg m w x _ hst hne
  rw [hone, hmone] at hcomm
  obtain rfl : m₂ = m₁.markSlot cfg w := Except.ok.inj hcomm
  refine ⟨m₁, ⟨?_, ?_, ?_⟩, ha.placed hplaced hmplaced hqp hne, hplaced⟩
  · rw [installExtra_uncached hun', hone]
  · unfold installExtraMarked
    rw [if_neg (not_lt.mpr hun'), hmone]
  · rw [installExtra_uncached hmarkun, hsame, hmone]

/-- With enough UNMAP slots it makes no difference when the entry is written. -/
theorem installExtrasMarked_eq (ha : Asked cfg m w) (hx : Extras cfg w.page xs)
    (hspare : Spare cfg m w xs) :
    installExtrasMarked cfg w t m xs rnd = installExtras cfg (m.markSlot cfg w) xs rnd := by
  induction xs generalizing m t rnd with
  | nil =>
      cases t with
      | before k => cases k <;> rfl
      | search k => cases k <;> rfl
  | cons x xs ih =>
      obtain ⟨q, hq, hqp, hax⟩ := hx.pages x List.mem_cons_self
      have hpage : cfg.pagei x.addr = q := by rw [hax, cfg.pagei_pageAddr hq]
      suffices hturn : ∃ m₁, SameTurn cfg w x (rnd.headD 0) m m₁ ∧ Asked cfg m₁ w ∧
          Spare cfg m₁ w xs by
        obtain ⟨m₁, hsame, ha₁, hspare₁⟩ := hturn
        have hall : installExtras cfg (m.markSlot cfg w) (x :: xs) rnd =
            installExtras cfg (m₁.markSlot cfg w) xs rnd.tail := by
          rw [installExtras, hsame.before]
          rfl
        cases t with
        | before k =>
            cases k with
            | zero => rw [installExtrasMarked]
            | succ k =>
                rw [installExtrasMarked, hsame.after, hall]
                exact ih ha₁ hx.tail hspare₁
        | search k =>
            cases k with
            | zero =>
                rw [installExtrasMarked, hsame.inside, hall]
                rfl
            | succ k =>
                rw [installExtrasMarked, hsame.after, hall]
                exact ih ha₁ hx.tail hspare₁
      by_cases hun : m.Uncached cfg q
      · have hun' : m.Uncached cfg (cfg.pagei x.addr) := hpage ▸ hun
        obtain ⟨hw, c, hc, hcst⟩ := hspare.unmap hun'
        have hst := findSlot_unmap hc hcst (rnd.headD 0)
        obtain ⟨m₁, hsame, ha₁, hplaced⟩ := sameTurn_unmap ha hw hq hqp hax hun hst
        refine ⟨m₁, hsame, ha₁, ?_⟩
        exact (Spare.placed_iff (ha.linked hw) hw hplaced hst hun' (hx.head_ne hq hax)).mpr hspare
      · have hin : ¬ m.Uncached cfg (cfg.pagei x.addr) := hpage ▸ hun
        exact ⟨m, sameTurn_cached hin, ha, (Spare.skip hin).mp hspare⟩

/-! ## Too few UNMAP slots -/

theorem findSlot_here {c : Nat} (hc : c < cfg.cachepages) (hst : (m.cache c).state = .unmap) :
    m.findSlot cfg c = c := by
  obtain ⟨k, hk⟩ : ∃ k, cfg.cachepages = k + 1 := Nat.exists_eq_succ_of_ne_zero (by omega)
  have hloop : m.findLoop cfg cfg.cachepages c none = (c, none) := by
    rw [hk, findLoop, if_pos hst]
  unfold findSlot
  rw [Nat.mod_eq_of_lt hc, hloop]
  simp only
  rw [if_neg (not_not.mpr hst)]

theorem Placed.gone (hplaced : Placed cfg q s m m') {p : Nat} (hp : p < cfg.npages)
    (hqp : q ≠ p) (hs : (m.page p).cachei = s) : Gone cfg m' p where
  linked := hplaced.linked
  uncached := (hplaced.uncached hp (Ne.symm hqp)).mpr (.inr hs)
  prot := by rw [hplaced.prot _ hp (Ne.symm hqp), if_pos hs]

/-- In a read fault the search for a slot can end at the slot of the page that waits, which
is no longer UNMAP when it is looked at again. -/
theorem exists_search_gone (ha : Asked cfg m w) (hw : w.writefault = false)
    (hx : Extras cfg w.page xs) (hspare : ¬ Spare cfg m w xs) :
    ∃ k rnd m', installExtrasMarked cfg w (.search k) m xs rnd = .ok m' ∧
      Gone cfg m' w.page := by
  induction xs with
  | nil =>
      exfalso
      apply hspare
      exact Nat.zero_le _
  | cons x xs ih =>
      obtain ⟨q, hq, hqp, hax⟩ := hx.pages x List.mem_cons_self
      have hpage : cfg.pagei x.addr = q := by rw [hax, cfg.pagei_pageAddr hq]
      by_cases hun : m.Uncached cfg q
      · have hun' : m.Uncached cfg (cfg.pagei x.addr) := hpage ▸ hun
        have hst := ha.state
        rw [hw, if_neg Bool.false_ne_true] at hst
        have hro : ((m.markSlot cfg w).cache w.cachei).state = .ro := by
          rw [markSlot_state, hw, if_neg Bool.false_ne_true]
        obtain ⟨m₁, hone, hplaced, -⟩ := installAt_placed ha.marked.linked hq hax hun
          ha.marked.slot (by simp [hro])
        have hgone := hplaced.gone ha.marked.page hqp ha.marked.cachei
        obtain ⟨m', hrest, hgone'⟩ := @installExtras_gone cfg m₁ xs [] w.page hgone ha.marked.page hx.tail
        refine ⟨0, [w.cachei], m', ?_, hgone'⟩
        rw [installExtrasMarked, List.headD_cons, List.tail_cons]
        unfold installExtraMarked
        rw [if_neg (not_lt.mpr hun'), findSlot_here ha.marked.slot hst, hone]
        exact hrest
      · have hin : ¬ m.Uncached cfg (cfg.pagei x.addr) := hpage ▸ hun
        obtain ⟨k, rnd, m', hrest, hgone⟩ := ih hx.tail fun hs => hspare ((Spare.skip hin).mpr hs)
        refine ⟨k + 1, 0 :: rnd, m', ?_, hgone⟩
        rw [installExtrasMarked, installExtra_cached hin]
        exact hrest

/-- In a write fault the pages that come along can take the INV slot of the page that waits
once the UNMAP slots are used up. -/
theorem exists_stale_gone (ha : Asked cfg m w) (hw : w.writefault = true)
    (hx : Extras cfg w.page xs) (hspare : ¬ Spare cfg m w xs) :
    ∃ rnd m', installExtras cfg m xs rnd = .ok m' ∧ Gone cfg m' w.page := by
  induction xs generalizing m with
  | nil =>
      exfalso
      apply hspare
      exact Nat.zero_le _
  | cons x xs ih =>
      obtain ⟨q, hq, hqp, hax⟩ := hx.pages x List.mem_cons_self
      have hpage : cfg.pagei x.addr = q := by rw [hax, cfg.pagei_pageAddr hq]
      suffices hturn : ∃ seti m₁, m.installExtra cfg x seti = .ok m₁ ∧
          (Gone cfg m₁ w.page ∨ (Asked cfg m₁ w ∧ ¬ Spare cfg m₁ w xs)) by
        obtain ⟨seti, m₁, hone, hcase⟩ := hturn
        have hrest : ∃ rnd m', installExtras cfg m₁ xs rnd = .ok m' ∧ Gone cfg m' w.page := by
          cases hcase with
          | inl hgone => exact ⟨[], installExtras_gone hgone ha.marked.page hx.tail⟩
          | inr hnext => exact ih hnext.1 hx.tail hnext.2
        obtain ⟨rnd, m', hrest, hgone⟩ := hrest
        refine ⟨seti :: rnd, m', ?_, hgone⟩
        rw [installExtras, List.headD_cons, List.tail_cons, hone]
        exact hrest
      by_cases hun : m.Uncached cfg q
      · have hun' : m.Uncached cfg (cfg.pagei x.addr) := hpage ▸ hun
        by_cases hunmap : ∃ c < cfg.cachepages, (m.cache c).state = .unmap
        · obtain ⟨c, hc, hcst⟩ := hunmap
          have hst := findSlot_unmap hc hcst 0
          obtain ⟨m₁, hsame, ha₁, hplaced⟩ := sameTurn_unmap ha hw hq hqp hax hun hst
          refine ⟨0, m₁, hsame.after, .inr ⟨ha₁, ?_⟩⟩
          intro hspare₁
          apply hspare
          exact (Spare.placed_iff (ha.linked hw) hw hplaced hst hun' (hx.head_ne hq hax)).mp hspare₁
        · -- without UNMAP slots the search ends at the INV slot it starts at
          have hno : ∀ c < cfg.cachepages, (m.cache c).state ≠ .unmap :=
            fun c hc hst => hunmap ⟨c, hc, hst⟩
          have hinv := ha.state
          rw [hw, if_pos rfl] at hinv
          have hslot := findSlot_inv hno ha.marked.slot hinv
          obtain ⟨m₁, hone, hplaced, -⟩ := installAt_placed (ha.linked hw) hq hax hun
            ha.marked.slot (by simp [hinv])
          refine ⟨w.cachei, m₁, ?_, .inl ?_⟩
          · rw [installExtra_uncached hun', hslot, hone]
          · exact hplaced.gone ha.marked.page hqp ha.marked.cachei
      · have hin : ¬ m.Uncached cfg (cfg.pagei x.addr) := hpage ▸ hun
        exact ⟨0, m, installExtra_cached hin, .inr ⟨ha, fun hs => hspare ((Spare.skip hin).mpr hs)⟩⟩

theorem installExtrasMarked_last (h : installExtras cfg m xs rnd = .ok m') :
    installExtrasMarked cfg w (.before xs.length) m xs rnd = .ok (m'.markSlot cfg w) := by
  induction xs generalizing m rnd with
  | nil =>
      obtain rfl := Except.ok.inj h
      rfl
  | cons x xs ih =>
      rw [installExtras, bind_eq_ok] at h
      obtain ⟨m₁, hone, hrest⟩ := h
      rw [List.length_cons, installExtrasMarked, hone]
      exact ih hrest

/-! ## The whole reply -/

theorem Asked.setMem (ha : Asked cfg m w) (pg : Page) : Asked cfg (m.setMem w.page pg) w :=
  ⟨ha.marked.setMem pg, ha.state, fun hw => ⟨(ha.linked hw).slot, (ha.linked hw).page⟩⟩

theorem getpgrantserverMarked_asked (ha : Asked cfg m w) (wv : BitVec Wvbits) (data : Page) :
    m.getpgrantserverMarked cfg w t (cfg.pageAddr w.page) wv data xs rnd = (do
      let m ← installExtrasMarked cfg w t (m.setMem w.page (received cfg m w.page wv data)) xs rnd
      return { m with getpwait := false }) := by
  have hprot : m.prot w.page = .readWrite := ha.marked.prot
  unfold getpgrantserverMarked
  simp only [cfg.pagei_pageAddr ha.marked.page]
  rw [defined, if_pos hprot]
  rfl

theorem getpgrantserverMarked_eq (ha : Asked cfg m w) (hx : Extras cfg w.page xs)
    (hspare : Spare cfg m w xs) (wv : BitVec Wvbits) (data : Page) :
    m.getpgrantserverMarked cfg w t (cfg.pageAddr w.page) wv data xs rnd =
      (m.markSlot cfg w).getpgrantserver cfg (cfg.pageAddr w.page) wv data xs rnd := by
  have hset := ha.setMem (received cfg m w.page wv data)
  have hsame := @installExtrasMarked_eq cfg (m.setMem w.page (received cfg m w.page wv data)) w xs
    rnd t hset hx hspare
  rw [getpgrantserverMarked_asked ha, hsame, getpgrantserver_pending ha.marked]
  rfl

theorem Spare.room (hspare : Spare cfg m w xs) :
    w.writefault = true ∨ HasRoom cfg (m.markSlot cfg w) xs := by
  unfold Spare at hspare
  split at hspare
  · rename_i hw
    exact .inl hw
  · right
    have hnone : ∀ u, fromNth (fun x => decide ((m.markSlot cfg w).Uncached cfg
        (cfg.pagei x.addr))) u xs = [] := by
      intro u
      exact fromNth_none (Nat.le_zero.mp hspare)
    unfold HasRoom
    rw [hnone]
    exact Nat.zero_le _

theorem exists_getpgrantserverMarked_gone (ha : Asked cfg m w) (hx : Extras cfg w.page xs)
    (hspare : ¬ Spare cfg m w xs) (wv : BitVec Wvbits) (data : Page) :
    ∃ t rnd m', m.getpgrantserverMarked cfg w t (cfg.pageAddr w.page) wv data xs rnd = .ok m' ∧
      m'.Uncached cfg w.page := by
  have hset := ha.setMem (received cfg m w.page wv data)
  suffices hinst : ∃ t rnd m', installExtrasMarked cfg w t
      (m.setMem w.page (received cfg m w.page wv data)) xs rnd = .ok m' ∧
      m'.Uncached cfg w.page by
    obtain ⟨t, rnd, m', hinst, hun⟩ := hinst
    refine ⟨t, rnd, { m' with getpwait := false }, ?_, hun⟩
    rw [getpgrantserverMarked_asked ha, hinst]
    rfl
  cases hw : w.writefault with
  | true =>
      obtain ⟨rnd, m', hinst, hgone⟩ := exists_stale_gone hset hw hx hspare
      exact ⟨.before xs.length, rnd, _, installExtrasMarked_last hinst, hgone.uncached⟩
  | false =>
      obtain ⟨k, rnd, m', hinst, hgone⟩ := exists_search_gone hset hw hx hspare
      exact ⟨.search k, rnd, m', hinst, hgone.uncached⟩

/-- The page is there, whatever `replacei` returns, when the entry is written at time `t`. -/
def Survives (cfg : Config) (m : MemState) (w : FaultWait) (wv : BitVec Wvbits) (data : Page)
    (xs : List ExtraPage) (t : MarkTime) : Prop :=
  ∀ rnd, ∃ m', m.getpgrantserverMarked cfg w t (cfg.pageAddr w.page) wv data xs rnd = .ok m' ∧
    Delivered cfg w (received cfg m w.page wv data) m'

/-- The reply leaves the faulting page in place, whatever `replacei` returns.  With the entry
written before it: in a write fault, and in a read fault just when the extra pages find room.
With the entry written at any time: just when the extra pages without a slot need no other
slots than UNMAP ones, and in a read fault none at all. -/
theorem page_survives_iff (wv : BitVec Wvbits) (data : Page) (ha : Asked cfg m w)
    (hx : Extras cfg w.page xs) :
    (Survives cfg m w wv data xs (.before 0) ↔
      w.writefault = true ∨ HasRoom cfg (m.markSlot cfg w) xs) ∧
    ((∀ t, Survives cfg m w wv data xs t) ↔ Spare cfg m w xs) := by
  constructor
  · constructor
    · intro hall
      cases hw : w.writefault with
      | true => exact .inl rfl
      | false =>
          right
          by_contra hroom
          obtain ⟨rnd, m₁, hgone, hun⟩ := exists_getpgrantserver_gone wv data ha.marked hw hx hroom
          obtain ⟨m', hgrant, hdel⟩ := hall rnd
          rw [getpgrantserverMarked_first, hgone] at hgrant
          obtain rfl := Except.ok.inj hgrant
          exact hdel.cached ha.marked hun
    · intro hcond rnd
      rw [getpgrantserverMarked_first]
      exact getpgrantserver_delivered wv data ha.marked hx hcond rnd
  · constructor
    · intro hall
      by_contra hspare
      obtain ⟨t, rnd, m₁, hgone, hun⟩ := exists_getpgrantserverMarked_gone ha hx hspare wv data
      obtain ⟨m', hgrant, hdel⟩ := hall t rnd
      rw [hgone] at hgrant
      obtain rfl := Except.ok.inj hgrant
      exact hdel.cached ha.marked hun
    · intro hspare t rnd
      rw [getpgrantserverMarked_eq ha hx hspare]
      exact getpgrantserver_delivered wv data ha.marked hx hspare.room rnd

end Turns

/-! ## A stale copy and a full cache -/

/-- Host 0 reads page `p` of another host and is told that it has changed. -/
def staleCopy (cfg : Config) (p : Nat) : Result MemState := do
  let m ← readPage cfg (initmem cfg 0) p
  Host.invalidateNotice cfg 0 0 m ⟨cfg.pageAddr p, 1, 0⟩

theorem linked_staleCopy {p : Nat} (hp : p < cfg.npages)
    (haway : ((initmem cfg 0).page p).homepid ≠ 0) (h : staleCopy cfg p = .ok m) :
    Linked cfg m := by
  simp only [staleCopy, readPage, bind_eq_ok, Prod.exists] at h
  obtain ⟨m₃, ⟨m₁, w, out, hfault, m₂, hgrant, hend⟩, hinv⟩ := h
  have hi := CacheInverse.cacheFault (cacheInverse_initmem 0) hp haway hfault
  have hi' := CacheInverse.invalidateNotice ((hi.getpgrantserver hgrant).faultEnd hend)
    ⟨p, hp, rfl⟩ hinv
  exact hi'.toLinked

/-- Host 0 reads the pages `ps` as well, and asks for page `p` again. -/
def staleThenFault (cfg : Config) (ps : List Nat) (p : Nat) : Result (MemState × Nat × Out) := do
  let m ← staleCopy cfg p
  let m ← ps.foldlM (readPage cfg) m
  m.faultSlot cfg p 0

/-- The slot of page `p`, with its protection, before it is asked for again. -/
def staleSlot (cfg : Config) (ps : List Nat) (p : Nat) : Option (Prot × Bool × PageState) :=
  (do
    let m ← staleCopy cfg p
    ps.foldlM (readPage cfg) m : Result MemState).toOption.map fun m =>
      (m.prot p, decide (m.Uncached cfg p), (m.cache (m.page p).cachei).state)

theorem staleThenFault_asked {ps : List Nat} {p : Nat} {r : MemState × Nat × Out}
    (hps : ∀ q ∈ ps, q < cfg.npages) (hp : p < cfg.npages)
    (haway : ((initmem cfg 0).page p).homepid ≠ 0)
    (hstale : staleSlot cfg ps p = some (.none, false, .inv))
    (h : staleThenFault cfg ps p = .ok r) : Asked cfg r.1 ⟨p, true, r.2.1⟩ := by
  simp only [staleThenFault, bind_eq_ok] at h
  obtain ⟨m₁, hcopy, m, hread, hfault⟩ := h
  have hl := linked_readPages (linked_staleCopy hp haway hcopy) hps hread
  rw [staleSlot, hcopy] at hstale
  have hsome : (Except.toOption (ps.foldlM (readPage cfg) m₁)).map (fun m =>
      (m.prot p, decide (m.Uncached cfg p), (m.cache (m.page p).cachei).state)) =
      some (.none, false, .inv) := hstale
  rw [hread] at hsome
  simp only [Except.toOption, Option.map_some, Option.some.injEq, Prod.mk.injEq,
    decide_eq_false_iff_not] at hsome
  obtain ⟨hprot, hin, hinv⟩ := hsome
  have hmapped : m.prot p ≠ .unmapped := by simp [hprot]
  have hwrite : m.writefault p = true := decide_eq_true hmapped
  rw [← hwrite]
  exact faultSlot_asked hl hp (iff_of_true hmapped hin) (fun _ => hinv) hfault

/-- Pages 0, 2 and 4 of host 1, as a reply brings them. -/
def otherPages : List ExtraPage := [0, 2, 4].map fun q => ⟨Config.fivePages.pageAddr q, zeroPage⟩

theorem extras_otherPages : Extras .fivePages 1 otherPages where
  pages x hx := by
    obtain ⟨q, hq, rfl⟩ := List.mem_map.mp hx
    have hin : ∀ q ∈ [0, 2, 4], q < 5 ∧ q ≠ 1 := by decide
    exact ⟨q, (hin q hq).1, (hin q hq).2, rfl⟩
  nodup := by decide +kernel

/-- Page 0 is cached, page 1 is asked for again, and pages 2 and 4, which come along, get the
UNMAP slots. -/
theorem page_survives_staleCopy : ∃ m w, Asked .fivePages m w ∧ w.page = 1 ∧
    w.writefault = true ∧ (∀ t, Survives .fivePages m w WVFULL zeroPage otherPages t) := by
  have hstale : staleSlot .fivePages [0] 1 = some (.none, false, .inv) := by decide +kernel
  have hspare : (staleThenFault .fivePages [0] 1).toOption.map
      (fun r => decide (Spare .fivePages r.1 ⟨1, true, r.2.1⟩ otherPages)) = some true := by
    decide +kernel
  cases hr : staleThenFault .fivePages [0] 1 with
  | error e =>
      rw [hr] at hspare
      cases hspare
  | ok r =>
      rw [hr] at hspare
      have ha := staleThenFault_asked (by decide) (by decide) (by decide) hstale hr
      have hyes : Spare .fivePages r.1 ⟨1, true, r.2.1⟩ otherPages :=
        of_decide_eq_true (Option.some.inj hspare)
      exact ⟨r.1, _, ha, rfl, rfl, (page_survives_iff WVFULL zeroPage ha extras_otherPages).2.mpr
        hyes⟩

/-- Page 4, sent along with another one. -/
def lastPage : ExtraPage := ⟨Config.fivePages.pageAddr 4, zeroPage⟩

theorem extras_lastPage {p : Nat} (hp : p ≠ 4) : Extras .fivePages p [lastPage] where
  pages x hx := by
    rw [List.mem_singleton.mp hx]
    exact ⟨4, by decide, Ne.symm hp, rfl⟩
  nodup := List.nodup_singleton _

/-- Pages 0 to 2 are cached and page 3 is asked for; `replacei` gives slot 3 for page 4, which
comes with it.  The fault handler finds its page gone. -/
theorem full_cache_loses_page : ∃ m w m', Pending .fivePages m w ∧ w.page = 3 ∧
    Extras .fivePages w.page [lastPage] ∧
    m.getpgrantserver .fivePages (Config.fivePages.pageAddr w.page) WVFULL zeroPage [lastPage] [3] =
      .ok m' ∧ (m'.page w.page).cachei = Config.fivePages.cachepages ∧
    m'.prot w.page = .unmapped ∧ m'.faultEnd w = .error (.assert "mprotect failed!") := by
  have hrun : (readThenFault [0, 1, 2] 3).toOption.map (fun r =>
      (r.1.getpgrantserver .fivePages (Config.fivePages.pageAddr 3) WVFULL zeroPage [lastPage]
        [3]).toOption.map fun m => ((m.page 3).cachei, m.prot 3, r.2.1.writefault)) =
      some (some (4, .unmapped, false)) := by decide +kernel
  cases hr : readThenFault [0, 1, 2] 3 with
  | error e =>
      rw [hr] at hrun
      cases hrun
  | ok r =>
      obtain ⟨hp, hpage⟩ := readThenFault_pending (by decide) (by decide) hr
      have hx : Extras .fivePages r.2.1.page [lastPage] := extras_lastPage (by rw [hpage]; decide)
      rw [hr] at hrun
      cases hgrant : r.1.getpgrantserver .fivePages (Config.fivePages.pageAddr 3) WVFULL zeroPage
          [lastPage] [3] with
      | error e =>
          simp only [Except.toOption, Option.map_some, hgrant] at hrun
          cases hrun
      | ok m' =>
          simp only [Except.toOption, Option.map_some, hgrant, Option.some.injEq,
            Prod.mk.injEq] at hrun
          obtain ⟨hslot, hprot, hread⟩ := hrun
          refine ⟨r.1, r.2.1, m', hp, hpage, hx, ?_, ?_, ?_, ?_⟩
          · rw [hpage, hgrant]
          · rw [hpage, hslot]
            rfl
          · rw [hpage, hprot]
          · unfold faultEnd memprotect
            rw [hread, hpage, hprot]
            rfl

end MemState

end Jiajia
