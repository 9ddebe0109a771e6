import Jiajia.CacheInverse

/-!
# Prefetching into a full cache

The reply to a page fault may bring more pages, and `getpgrantserver` asks
`findposition` for a slot for each.  The slot of the faulting page is already in
use.  Once every slot is, a read fault can lose its page to one of the others.
-/

namespace Jiajia

/-- The list from the `u + 1`-st element with `P` on. -/
def fromNth {α : Type} (P : α → Bool) : Nat → List α → List α
  | _, [] => []
  | 0, x :: xs => if P x then x :: xs else fromNth P 0 xs
  | u + 1, x :: xs => if P x then fromNth P u xs else fromNth P (u + 1) xs

section FromNth

variable {α : Type} {P Q S : α → Bool} {u : Nat} {x : α} {xs : List α}

theorem fromNth_skip (h : P x = false) : fromNth P u (x :: xs) = fromNth P u xs := by
  cases u with
  | zero => rw [fromNth, h, if_neg Bool.false_ne_true]
  | succ u => rw [fromNth, h, if_neg Bool.false_ne_true]

theorem fromNth_congr (h : ∀ x ∈ xs, P x = Q x) : fromNth P u xs = fromNth Q u xs := by
  induction xs generalizing u with
  | nil => cases u <;> rfl
  | cons x xs ih =>
      have hx := h x List.mem_cons_self
      have htail := fun y hy => h y (List.mem_cons_of_mem _ hy)
      cases u with
      | zero => rw [fromNth, fromNth, hx, ih htail]
      | succ u => rw [fromNth, fromNth, hx, ih htail, ih htail]

theorem countP_fromNth_le : (fromNth P u xs).countP S ≤ xs.countP S := by
  induction xs generalizing u with
  | nil => cases u <;> exact le_refl _
  | cons x xs ih =>
      have hcons : xs.countP S ≤ (x :: xs).countP S := by
        rw [List.countP_cons]
        exact Nat.le_add_right _ _
      cases u with
      | zero =>
          rw [fromNth]
          split
          · exact le_refl _
          · exact ih.trans hcons
      | succ u =>
          rw [fromNth]
          split
          · exact ih.trans hcons
          · exact ih.trans hcons

theorem fromNth_subset {y : α} (h : y ∈ fromNth P u xs) : y ∈ xs := by
  induction xs generalizing u with
  | nil => cases u <;> exact h
  | cons x xs ih =>
      cases u with
      | zero =>
          rw [fromNth] at h
          split at h
          · exact h
          · exact List.mem_cons_of_mem _ (ih h)
      | succ u =>
          rw [fromNth] at h
          split at h
          · exact List.mem_cons_of_mem _ (ih h)
          · exact List.mem_cons_of_mem _ (ih h)

/-- Nothing with `S` is left out when the first element with `S` has `P`. -/
theorem countP_fromNth_first {z : α} {pre post : List α} (hpre : ∀ y ∈ pre, S y = false)
    (hz : P z = true) (himp : ∀ y ∈ pre, P y = true → S y = true) :
    (fromNth P 0 (pre ++ z :: post)).countP S = (pre ++ z :: post).countP S := by
  induction pre with
  | nil => rw [List.nil_append, fromNth, if_pos hz]
  | cons y pre ih =>
      have hy := hpre y List.mem_cons_self
      have hP : P y = false := by
        by_contra hP
        rw [himp y List.mem_cons_self (Bool.eq_true_of_not_eq_false hP)] at hy
        cases hy
      rw [List.cons_append, fromNth_skip hP, List.countP_cons_of_neg (by simp [hy])]
      exact ih (fun w hw => hpre w (List.mem_cons_of_mem _ hw))
        fun w hw => himp w (List.mem_cons_of_mem _ hw)

theorem exists_first (h : 0 < xs.countP S) :
    ∃ pre z post, xs = pre ++ z :: post ∧ S z = true ∧ ∀ y ∈ pre, S y = false := by
  induction xs with
  | nil => exact absurd h (lt_irrefl 0)
  | cons x xs ih =>
      cases hx : S x with
      | true => exact ⟨[], x, xs, rfl, hx, fun y hy => by cases hy⟩
      | false =>
          rw [List.countP_cons_of_neg (by simp [hx])] at h
          obtain ⟨pre, z, post, rfl, hz, hpre⟩ := ih h
          refine ⟨x :: pre, z, post, rfl, hz, ?_⟩
          intro y hy
          cases List.mem_cons.mp hy with
          | inl heq => rw [heq, hx]
          | inr hmem => exact hpre y hmem

end FromNth

namespace MemState

variable {cfg : Config} {m m' : MemState} {w : FaultWait}

/-- Page `p` has no slot. -/
def Uncached (cfg : Config) (m : MemState) (p : Nat) : Prop := cfg.cachepages ≤ (m.page p).cachei

/-- Page `p` has no valid copy: no slot, or an INV one. -/
def Stale (cfg : Config) (m : MemState) (p : Nat) : Prop :=
  m.Uncached cfg p ∨ (m.cache (m.page p).cachei).state = .inv

instance (p : Nat) : Decidable (m.Uncached cfg p) := inferInstanceAs (Decidable (_ ≤ _))

instance (p : Nat) : Decidable (m.Stale cfg p) := inferInstanceAs (Decidable (_ ∨ _))

/-- The slots in a given state. -/
def slotsIn (cfg : Config) (m : MemState) (st : PageState) : Finset Nat :=
  (Finset.range cfg.cachepages).filter fun c => (m.cache c).state = st

theorem mem_slotsIn {st : PageState} {c : Nat} :
    c ∈ m.slotsIn cfg st ↔ c < cfg.cachepages ∧ (m.cache c).state = st := by
  rw [slotsIn, Finset.mem_filter, Finset.mem_range]

/-- The extra pages of a reply find room: UNMAP slots go first, so from the extra page on
that gets none of them there must be an INV slot for each page without a valid copy. -/
def HasRoom (cfg : Config) (m : MemState) (xs : List ExtraPage) : Prop :=
  (fromNth (fun x => decide (m.Uncached cfg (cfg.pagei x.addr))) (m.slotsIn cfg .unmap).card
    xs).countP (fun x => decide (m.Stale cfg (cfg.pagei x.addr))) ≤ (m.slotsIn cfg .inv).card

/-- The main thread waits for page `w.page`, for which slot `w.cachei` is taken. -/
structure Pending (cfg : Config) (m : MemState) (w : FaultWait) : Prop where
  linked : Linked cfg m
  page : w.page < cfg.npages
  cachei : (m.page w.page).cachei = w.cachei
  slot : w.cachei < cfg.cachepages
  state : (m.cache w.cachei).state = if w.writefault then .rw else .ro
  prot : m.prot w.page = .readWrite

/-- The extra pages a home sends: pages, each once, and not the one asked for. -/
structure Extras (cfg : Config) (p : Nat) (xs : List ExtraPage) : Prop where
  pages : ∀ x ∈ xs, ∃ q < cfg.npages, q ≠ p ∧ x.addr = cfg.pageAddr q
  nodup : (xs.map ExtraPage.addr).Nodup

theorem Extras.tail {p : Nat} {x : ExtraPage} {xs : List ExtraPage}
    (hx : Extras cfg p (x :: xs)) : Extras cfg p xs :=
  ⟨fun y hy => hx.pages y (List.mem_cons_of_mem _ hy), (List.nodup_cons.mp hx.nodup).2⟩

theorem Extras.head_ne {p q : Nat} {x : ExtraPage} {xs : List ExtraPage}
    (hx : Extras cfg p (x :: xs)) (hq : q < cfg.npages) (ha : x.addr = cfg.pageAddr q) :
    ∀ y ∈ xs, cfg.pagei y.addr < cfg.npages ∧ cfg.pagei y.addr ≠ q := by
  intro y hy
  obtain ⟨r, hr, -, hya⟩ := hx.pages y (List.mem_cons_of_mem _ hy)
  rw [hya, cfg.pagei_pageAddr hr]
  refine ⟨hr, ?_⟩
  intro heq
  subst heq
  have hmem : x.addr ∈ xs.map ExtraPage.addr := by
    rw [ha, ← hya]
    exact List.mem_map_of_mem hy
  exact (List.nodup_cons.mp hx.nodup).1 hmem

/-! ## One extra page -/

/-- Page `q` is put into slot `s`, and the page that had the slot loses it. -/
structure Placed (cfg : Config) (q s : Nat) (m m' : MemState) : Prop where
  linked : Linked cfg m'
  cachei : (m'.page q).cachei = s
  slot : s < cfg.cachepages
  other : ∀ r < cfg.npages, r ≠ q → (m'.page r).cachei =
    if (m.page r).cachei = s then cfg.cachepages else (m.page r).cachei
  cache : ∀ c, c ≠ s → m'.cache c = m.cache c
  state : (m'.cache s).state = .ro
  mem : ∀ r, r ≠ q → m'.mem r = m.mem r
  prot : ∀ r < cfg.npages, r ≠ q → m'.prot r =
    if (m.page r).cachei = s then .unmapped else m.prot r

/-- `findposition(addr)` behind its search, which has ended at slot `s`. -/
def takeSlot (cfg : Config) (m : MemState) (p s : Nat) : Option (Nat × MemState) :=
  match (m.cache s).state with
  | .rw => none
  | .unmap => some (s, m.setPage p { m.page p with cachei := s })
  | .inv | .ro =>
      let m' := m.flushpage cfg s
      some (s, m'.setPage p { m'.page p with cachei := s })

theorem findposition_eq (p seti : Nat) :
    m.findposition cfg p seti = m.takeSlot cfg p (m.findSlot cfg seti) := rfl

theorem takeSlot_placed (hl : Linked cfg m) {q s : Nat} (hq : m.Uncached cfg q)
    (hlt : s < cfg.cachepages) (hst : (m.cache s).state ≠ .rw) :
    ∃ m₁, m.takeSlot cfg q s = some (s, m₁.setPage q { m₁.page q with cachei := s }) ∧
      Linked cfg m₁ ∧ (m₁.cache s).state = .unmap ∧ m₁.mem = m.mem ∧
      cfg.cachepages ≤ (m₁.page q).cachei ∧
      (∀ c, c ≠ s → m₁.cache c = m.cache c) ∧
      (∀ r < cfg.npages, (m₁.page r).cachei =
        if (m.page r).cachei = s then cfg.cachepages else (m.page r).cachei) ∧
      (∀ r < cfg.npages, m₁.prot r =
        if (m.page r).cachei = s then .unmapped else m.prot r) := by
  unfold takeSlot
  by_cases hun : (m.cache s).state = .unmap
  · -- no page has an unused slot
    have hfree : ∀ r < cfg.npages, (m.page r).cachei ≠ s :=
      fun r hr heq => ((hl.slot r hr s hlt).mp heq).1 hun
    refine ⟨m, ?_, hl, hun, rfl, hq, fun _ _ => rfl, ?_, ?_⟩
    · rw [hun]
    · intro r hr
      rw [if_neg (hfree r hr)]
    · intro r hr
      rw [if_neg (hfree r hr)]
  · obtain ⟨o, ho, hos, ha⟩ := hl.owner hlt hun
    have hflush := flushpage_unlinks ho hos ha
    have howner : ∀ r < cfg.npages, (r = o ↔ (m.page r).cachei = s) := by
      intro r hr
      constructor
      · exact fun heq => heq ▸ hos
      · intro heq
        have hra := ((hl.slot r hr s hlt).mp heq).2
        exact cfg.pageAddr_inj hr ho (hra.symm.trans ha)
    refine ⟨m.flushpage cfg s, ?_, ?_, hflush.state, rfl, ?_, hflush.cache, ?_, ?_⟩
    · cases hcase : (m.cache s).state with
      | unmap => exact absurd hcase hun
      | rw => exact absurd hcase hst
      | inv => rfl
      | ro => rfl
    · refine hl.unlink ho hlt hos ?_ ?_ hflush.cache hflush.state
      · intro r hro
        rw [hflush.cachei, if_neg hro]
      · rw [hflush.cachei, if_pos rfl]
    · rw [hflush.cachei]
      split
      · exact le_refl _
      · exact hq
    · intro r hr
      rw [hflush.cachei]
      simp only [howner r hr]
    · intro r hr
      rw [hflush.prot, upd_apply]
      simp only [howner r hr]

theorem findposition_placed (hl : Linked cfg m) {q seti : Nat} (hq : m.Uncached cfg q)
    (hst : (m.cache (m.findSlot cfg seti)).state ≠ .rw) :
    ∃ m₁, m.findposition cfg q seti = some (m.findSlot cfg seti,
        m₁.setPage q { m₁.page q with cachei := m.findSlot cfg seti }) ∧
      Linked cfg m₁ ∧ (m₁.cache (m.findSlot cfg seti)).state = .unmap ∧
      cfg.cachepages ≤ (m₁.page q).cachei := by
  obtain ⟨m₁, htake, hl₁, hstate, -, hfree, -⟩ :=
    takeSlot_placed hl hq (findSlot_settles cfg m seti).1 hst
  exact ⟨m₁, htake, hl₁, hstate, hfree⟩

/-- One more page of a reply, behind the search for its slot. -/
def installAt (cfg : Config) (m : MemState) (x : ExtraPage) (s : Nat) : Result MemState := do
  let p := cfg.pagei x.addr
  match m.takeSlot cfg p s with
  | none => return m
  | some (slot, m) =>
      let m := (m.memmap p .readWrite).setMem p x.data
      let c := m.cache slot
      (m.setCache slot { c with addr := x.addr, state := .ro }).memprotect p .read

theorem installExtra_uncached {x : ExtraPage} {seti : Nat}
    (h : m.Uncached cfg (cfg.pagei x.addr)) :
    m.installExtra cfg x seti = m.installAt cfg x (m.findSlot cfg seti) := by
  unfold installExtra
  simp only
  rw [if_neg (not_lt.mpr h)]
  rfl

theorem installExtra_cached {x : ExtraPage} {seti : Nat}
    (h : ¬ m.Uncached cfg (cfg.pagei x.addr)) : m.installExtra cfg x seti = .ok m := by
  unfold installExtra
  simp only
  rw [if_pos (not_le.mp h)]
  rfl

/-- `findposition` gives up at an RW slot, and the page is dropped. -/
theorem installExtra_dropped {x : ExtraPage} {seti : Nat}
    (h : (m.cache (m.findSlot cfg seti)).state = .rw) : m.installExtra cfg x seti = .ok m := by
  unfold installExtra
  simp only [findposition_none.mpr h]
  split <;> rfl

theorem installAt_placed (hl : Linked cfg m) {x : ExtraPage} {q s : Nat}
    (hq : q < cfg.npages) (ha : x.addr = cfg.pageAddr q) (hun : m.Uncached cfg q)
    (hlt : s < cfg.cachepages) (hst : (m.cache s).state ≠ .rw) :
    ∃ m', m.installAt cfg x s = .ok m' ∧ Placed cfg q s m m' ∧ m'.mem q = x.data := by
  obtain ⟨m₁, htake, hl₁, hstate, hmem, hfree, hcache, hpage, hprot⟩ :=
    takeSlot_placed hl hun hlt hst
  unfold installAt
  simp only [ha, cfg.pagei_pageAddr hq, htake]
  refine ⟨_, memprotect_eq_ok.mpr ⟨?_, rfl⟩, ?_, by simp⟩
  · simp [memmap]
  · refine ⟨?_, ?_, hlt, ?_, ?_, ?_, ?_, ?_⟩
    · refine hl₁.link hq hlt hstate hfree ?_ ?_ ?_ ?_ ?_
      · intro r hrq
        simp [memmap, hrq]
      · simp [memmap]
      · intro d hd
        simp [memmap, hd]
      · simp
      · simp
    · simp [memmap]
    · intro r hr hrq
      rw [← hpage r hr]
      simp [memmap, hrq]
    · intro c hc
      rw [← hcache c hc]
      simp [memmap, hc]
    · simp
    · intro r hrq
      rw [← hmem]
      simp [memmap, hrq]
    · intro r hr hrq
      rw [← hprot r hr]
      simp [memmap, hrq]

theorem installExtra_placed (hl : Linked cfg m) {x : ExtraPage} {q seti : Nat}
    (hq : q < cfg.npages) (ha : x.addr = cfg.pageAddr q) (hun : m.Uncached cfg q)
    (hst : (m.cache (m.findSlot cfg seti)).state ≠ .rw) :
    ∃ m', m.installExtra cfg x seti = .ok m' ∧ Placed cfg q (m.findSlot cfg seti) m m' ∧
      m'.mem q = x.data := by
  rw [installExtra_uncached (by rw [ha, cfg.pagei_pageAddr hq]; exact hun)]
  exact installAt_placed hl hq ha hun (findSlot_settles cfg m seti).1 hst

namespace Placed

variable {q s : Nat}

theorem slotsIn (h : Placed cfg q s m m') {st : PageState} (hst : st ≠ .ro) :
    m'.slotsIn cfg st = (m.slotsIn cfg st).erase s := by
  ext c
  rw [mem_slotsIn, Finset.mem_erase, mem_slotsIn]
  by_cases hc : c = s
  · subst hc
    rw [h.state]
    constructor
    · exact fun hcon => absurd hcon.2.symm hst
    · exact fun hcon => absurd rfl hcon.1
  · rw [h.cache c hc]
    exact ⟨fun hin => ⟨hc, hin⟩, fun hin => hin.2⟩

theorem uncached (h : Placed cfg q s m m') {r : Nat} (hr : r < cfg.npages) (hrq : r ≠ q) :
    m'.Uncached cfg r ↔ m.Uncached cfg r ∨ (m.page r).cachei = s := by
  unfold Uncached
  rw [h.other r hr hrq]
  split
  · rename_i heq
    exact iff_of_true (le_refl _) (.inr heq)
  · rename_i hne
    exact ⟨fun hle => .inl hle, fun hor => hor.resolve_right hne⟩

/-- A page that had a valid copy keeps it unless the slot was in use for one. -/
theorem stale (h : Placed cfg q s m m') (hl : Linked cfg m) {r : Nat} (hr : r < cfg.npages)
    (hrq : r ≠ q) (hfree : (m.cache s).state = .unmap ∨ (m.cache s).state = .inv) :
    m'.Stale cfg r ↔ m.Stale cfg r := by
  unfold Stale
  rw [h.uncached hr hrq]
  by_cases hrs : (m.page r).cachei = s
  · have hinv : (m.cache s).state = .inv :=
      hfree.resolve_left ((hl.slot r hr s h.slot).mp hrs).1
    rw [hrs]
    exact iff_of_true (.inl (.inr rfl)) (.inr hinv)
  · have hkeep : (m'.page r).cachei = (m.page r).cachei := by
      rw [h.other r hr hrq, if_neg hrs]
    rw [hkeep, h.cache _ hrs]
    simp only [hrs, or_false]

/-- The faulting page is not touched as long as its slot is not taken. -/
theorem pending (h : Placed cfg q s m m') (hp : Pending cfg m w) (hq : q ≠ w.page)
    (hs : s ≠ w.cachei) : Pending cfg m' w ∧ m'.mem w.page = m.mem w.page := by
  have hkeep : ¬ (m.page w.page).cachei = s := fun heq => hs (heq.symm.trans hp.cachei)
  refine ⟨⟨h.linked, hp.page, ?_, hp.slot, ?_, ?_⟩, h.mem _ (Ne.symm hq)⟩
  · rw [h.other _ hp.page (Ne.symm hq), if_neg hkeep, hp.cachei]
  · rw [h.cache _ (Ne.symm hs), hp.state]
  · rw [h.prot _ hp.page (Ne.symm hq), if_neg hkeep, hp.prot]

end Placed

/-! ## Where the search ends -/

theorem card_slotsIn_eq_zero {st : PageState}
    (h : ∀ c < cfg.cachepages, (m.cache c).state ≠ st) : (m.slotsIn cfg st).card = 0 := by
  rw [Finset.card_eq_zero, Finset.eq_empty_iff_forall_notMem]
  intro c hc
  exact h c (mem_slotsIn.mp hc).1 (mem_slotsIn.mp hc).2

theorem card_slotsIn_erase {st : PageState} {s : Nat} (hs : s < cfg.cachepages)
    (hst : (m.cache s).state = st) :
    ((m.slotsIn cfg st).erase s).card + 1 = (m.slotsIn cfg st).card :=
  Finset.card_erase_add_one (mem_slotsIn.mpr ⟨hs, hst⟩)

/-- Without UNMAP slots a search from an INV slot ends there. -/
theorem findSlot_inv {c : Nat} (hno : ∀ c < cfg.cachepages, (m.cache c).state ≠ .unmap)
    (hc : c < cfg.cachepages) (hst : (m.cache c).state = .inv) : m.findSlot cfg c = c := by
  obtain ⟨k, hk⟩ : ∃ k, cfg.cachepages = k + 1 := Nat.exists_eq_succ_of_ne_zero (by omega)
  have hloop : (m.findLoop cfg cfg.cachepages c none).2 = some c := by
    rw [hk, findLoop, if_neg (by simp [hst]), if_pos ⟨rfl, hst⟩]
    exact findLoop_remembers
  have hend : (m.cache (m.findLoop cfg cfg.cachepages c none).1).state ≠ .unmap := by
    cases findLoop_scan (m := m) cfg.cachepages none hc with
    | found hlt hfound => exact absurd hfound (hno _ hlt)
    | around hend => exact hend ▸ hno _ (Nat.mod_lt _ cfg.cachepages_pos)
  unfold findSlot
  rw [Nat.mod_eq_of_lt hc]
  simp only
  rw [if_pos hend, hloop, Option.getD_some]

/-- Without UNMAP and INV slots a search ends where it starts. -/
theorem findSlot_start {c : Nat} (hno : ∀ c < cfg.cachepages, (m.cache c).state ≠ .unmap)
    (hinv : ∀ c < cfg.cachepages, (m.cache c).state ≠ .inv) (hc : c < cfg.cachepages) :
    m.findSlot cfg c = c := by
  obtain ⟨hlt, hsettles⟩ := findSlot_settles cfg m c
  cases hsettles with
  | unmap hstate => exact absurd hstate (hno _ hlt)
  | inv _ hstate => exact absurd hstate (hinv _ hlt)
  | start _ hs => rw [hs, Nat.mod_eq_of_lt hc]

/-! ## Room is kept -/

section Room

variable {x : ExtraPage} {xs : List ExtraPage} {q s : Nat}

theorem HasRoom.skip (h : ¬ m.Uncached cfg (cfg.pagei x.addr)) :
    HasRoom cfg m (x :: xs) ↔ HasRoom cfg m xs := by
  unfold HasRoom
  rw [fromNth_skip (by simpa using h)]

theorem HasRoom.unmap (hl : Linked cfg m) (hp : Placed cfg q s m m')
    (hst : (m.cache s).state = .unmap) (hun : m.Uncached cfg (cfg.pagei x.addr))
    (hxs : ∀ y ∈ xs, cfg.pagei y.addr < cfg.npages ∧ cfg.pagei y.addr ≠ q) :
    HasRoom cfg m (x :: xs) ↔ HasRoom cfg m' xs := by
  unfold HasRoom
  have hinv : (m'.slotsIn cfg .inv).card = (m.slotsIn cfg .inv).card := by
    rw [hp.slotsIn (by simp), Finset.erase_eq_of_notMem]
    intro hmem
    rw [(mem_slotsIn.mp hmem).2] at hst
    cases hst
  have hcard : (m'.slotsIn cfg .unmap).card + 1 = (m.slotsIn cfg .unmap).card := by
    rw [hp.slotsIn (by simp)]
    exact card_slotsIn_erase hp.slot hst
  have hfrom : fromNth (fun x => decide (m.Uncached cfg (cfg.pagei x.addr)))
      (m'.slotsIn cfg .unmap).card xs =
      fromNth (fun x => decide (m'.Uncached cfg (cfg.pagei x.addr)))
        (m'.slotsIn cfg .unmap).card xs := by
    apply fromNth_congr
    intro y hy
    obtain ⟨hlt, hne⟩ := hxs y hy
    have hfree : (m.page (cfg.pagei y.addr)).cachei ≠ s :=
      fun heq => ((hl.slot _ hlt s hp.slot).mp heq).1 hst
    simp only [hp.uncached hlt hne, hfree, or_false]
  rw [← hcard, fromNth, if_pos (by simpa using hun), hinv, hfrom]
  have hcount : ∀ ys : List ExtraPage, (∀ y ∈ ys, y ∈ xs) →
      ys.countP (fun x => decide (m.Stale cfg (cfg.pagei x.addr))) =
        ys.countP (fun x => decide (m'.Stale cfg (cfg.pagei x.addr))) := by
    intro ys hys
    apply List.countP_congr
    intro y hy
    obtain ⟨hlt, hne⟩ := hxs y (hys y hy)
    simp only [decide_eq_true_eq, hp.stale hl hlt hne (.inl hst)]
  rw [hcount _ fun y hy => fromNth_subset hy]

/-- Without UNMAP slots every page without a valid copy counts. -/
theorem hasRoom_full (hno : (m.slotsIn cfg .unmap).card = 0)
    (hun : m.Uncached cfg (cfg.pagei x.addr)) :
    HasRoom cfg m (x :: xs) ↔
      xs.countP (fun x => decide (m.Stale cfg (cfg.pagei x.addr))) + 1 ≤
        (m.slotsIn cfg .inv).card := by
  have hstale : m.Stale cfg (cfg.pagei x.addr) := .inl hun
  unfold HasRoom
  rw [hno, fromNth, if_pos (by simpa using hun), List.countP_cons_of_pos (by simpa using hstale)]

/-- The page gets an INV slot, and the page that had it is as stale as before. -/
theorem HasRoom.inv (hl : Linked cfg m) (hp : Placed cfg q s m m')
    (hst : (m.cache s).state = .inv) (hno : ∀ c < cfg.cachepages, (m.cache c).state ≠ .unmap)
    (hxs : ∀ y ∈ xs, cfg.pagei y.addr < cfg.npages ∧ cfg.pagei y.addr ≠ q) :
    (m'.slotsIn cfg .unmap).card = 0 ∧
      (m'.slotsIn cfg .inv).card + 1 = (m.slotsIn cfg .inv).card ∧
      xs.countP (fun x => decide (m'.Stale cfg (cfg.pagei x.addr))) =
        xs.countP fun x => decide (m.Stale cfg (cfg.pagei x.addr)) := by
  refine ⟨?_, ?_, ?_⟩
  · rw [hp.slotsIn (by simp), Finset.erase_eq_of_notMem]
    · exact card_slotsIn_eq_zero hno
    · exact fun hmem => hno s hp.slot (mem_slotsIn.mp hmem).2
  · rw [hp.slotsIn (by simp)]
    exact card_slotsIn_erase hp.slot hst
  · apply List.countP_congr
    intro y hy
    obtain ⟨hlt, hne⟩ := hxs y hy
    simp only [decide_eq_true_eq, hp.stale hl hlt hne (.inr hst)]

end Room

/-! ## All extra pages -/

/-- A turn leaves all as it is, or puts the page into the slot the search ends at. -/
theorem installExtra_turn (hl : Linked cfg m) {x : ExtraPage} {q : Nat} (hq : q < cfg.npages)
    (ha : x.addr = cfg.pageAddr q) (seti : Nat) : ∃ m', m.installExtra cfg x seti = .ok m' ∧
      ((m' = m ∧ (m.Uncached cfg q → (m.cache (m.findSlot cfg seti)).state = .rw)) ∨
        (m.Uncached cfg q ∧ (m.cache (m.findSlot cfg seti)).state ≠ .rw ∧
          Placed cfg q (m.findSlot cfg seti) m m' ∧ m'.mem q = x.data)) := by
  by_cases hun : m.Uncached cfg q
  · by_cases hrw : (m.cache (m.findSlot cfg seti)).state = .rw
    · exact ⟨m, installExtra_dropped hrw, .inl ⟨rfl, fun _ => hrw⟩⟩
    · obtain ⟨m', hok, hplaced⟩ := installExtra_placed hl hq ha hun hrw
      exact ⟨m', hok, .inr ⟨hun, hrw, hplaced⟩⟩
  · refine ⟨m, installExtra_cached ?_, .inl ⟨rfl, fun hcon => absurd hcon hun⟩⟩
    rw [ha, cfg.pagei_pageAddr hq]
    exact hun

/-- In a write fault the slot is RW, and no search ends there with success. -/
theorem installExtras_write {xs : List ExtraPage} {rnd : List Nat} (hp : Pending cfg m w)
    (hw : w.writefault = true) (hx : Extras cfg w.page xs) :
    ∃ m', installExtras cfg m xs rnd = .ok m' ∧ Pending cfg m' w ∧
      m'.mem w.page = m.mem w.page := by
  induction xs generalizing m rnd with
  | nil => exact ⟨m, rfl, hp, rfl⟩
  | cons x xs ih =>
      obtain ⟨q, hq, hqp, ha⟩ := hx.pages x List.mem_cons_self
      obtain ⟨m₁, hone, hturn⟩ := installExtra_turn hp.linked hq ha (rnd.headD 0)
      have hp₁ : Pending cfg m₁ w ∧ m₁.mem w.page = m.mem w.page := by
        cases hturn with
        | inl hsame =>
            rw [hsame.1]
            exact ⟨hp, rfl⟩
        | inr hplaced =>
            obtain ⟨-, hrw, hplaced, -⟩ := hplaced
            refine hplaced.pending hp hqp ?_
            intro heq
            rw [heq, hp.state, if_pos hw] at hrw
            exact hrw rfl
      obtain ⟨m', hrest, hp', hmem⟩ := @ih m₁ rnd.tail hp₁.1 hx.tail
      refine ⟨m', ?_, hp', hmem.trans hp₁.2⟩
      rw [installExtras, hone]
      exact hrest

/-- In a read fault the page keeps its slot while there is room. -/
theorem installExtras_room {xs : List ExtraPage} {rnd : List Nat} (hp : Pending cfg m w)
    (hw : w.writefault = false) (hx : Extras cfg w.page xs) (hroom : HasRoom cfg m xs) :
    ∃ m', installExtras cfg m xs rnd = .ok m' ∧ Pending cfg m' w ∧
      m'.mem w.page = m.mem w.page := by
  induction xs generalizing m rnd with
  | nil => exact ⟨m, rfl, hp, rfl⟩
  | cons x xs ih =>
      obtain ⟨q, hq, hqp, ha⟩ := hx.pages x List.mem_cons_self
      have hxs := hx.head_ne hq ha
      have hro : (m.cache w.cachei).state = .ro := by rw [hp.state, if_neg (by simp [hw])]
      have hpage : cfg.pagei x.addr = q := by rw [ha, cfg.pagei_pageAddr hq]
      obtain ⟨hlt, hsettles⟩ := findSlot_settles cfg m (rnd.headD 0)
      obtain ⟨m₁, hone, hturn⟩ := installExtra_turn hp.linked hq ha (rnd.headD 0)
      suffices h₁ : Pending cfg m₁ w ∧ m₁.mem w.page = m.mem w.page ∧ HasRoom cfg m₁ xs by
        obtain ⟨m', hrest, hp', hmem⟩ := @ih m₁ rnd.tail h₁.1 hx.tail h₁.2.2
        refine ⟨m', ?_, hp', hmem.trans h₁.2.1⟩
        rw [installExtras, hone]
        exact hrest
      by_cases hun : m.Uncached cfg q
      · have hun' : m.Uncached cfg (cfg.pagei x.addr) := hpage ▸ hun
        cases hsettles with
        | unmap hst =>
            have hplaced : Placed cfg q (m.findSlot cfg (rnd.headD 0)) m m₁ := by
              cases hturn with
              | inl hsame => rw [hsame.2 hun] at hst; cases hst
              | inr hplaced => exact hplaced.2.2.1
            obtain ⟨hp₁, hmem⟩ := hplaced.pending hp hqp fun heq => by
              rw [heq, hro] at hst
              cases hst
            exact ⟨hp₁, hmem, (HasRoom.unmap hp.linked hplaced hst hun' hxs).mp hroom⟩
        | inv hno hst =>
            have hplaced : Placed cfg q (m.findSlot cfg (rnd.headD 0)) m m₁ := by
              cases hturn with
              | inl hsame => rw [hsame.2 hun] at hst; cases hst
              | inr hplaced => exact hplaced.2.2.1
            obtain ⟨hp₁, hmem⟩ := hplaced.pending hp hqp fun heq => by
              rw [heq, hro] at hst
              cases hst
            obtain ⟨hno', hinv, hcount⟩ := HasRoom.inv hp.linked hplaced hst hno hxs
            rw [hasRoom_full (card_slotsIn_eq_zero hno) hun'] at hroom
            refine ⟨hp₁, hmem, ?_⟩
            have hle : (fromNth (fun x => decide (m₁.Uncached cfg (cfg.pagei x.addr)))
                (m₁.slotsIn cfg .unmap).card xs).countP
                (fun x => decide (m₁.Stale cfg (cfg.pagei x.addr))) ≤ _ := countP_fromNth_le
            show _ ≤ _
            omega
        | start hno hs =>
            have hinv := card_slotsIn_eq_zero fun c hc => (hno c hc).2
            rw [hasRoom_full (card_slotsIn_eq_zero fun c hc => (hno c hc).1) hun', hinv] at hroom
            omega
      · cases hturn with
        | inl hsame =>
            rw [hsame.1]
            exact ⟨hp, rfl, (HasRoom.skip (hpage ▸ hun)).mp hroom⟩
        | inr hplaced => exact absurd hplaced.1 hun

/-- Page `p` has lost its slot and its mapping. -/
structure Gone (cfg : Config) (m : MemState) (p : Nat) : Prop where
  linked : Linked cfg m
  uncached : m.Uncached cfg p
  prot : m.prot p = .unmapped

theorem installExtras_gone {xs : List ExtraPage} {rnd : List Nat} {p : Nat} (hg : Gone cfg m p)
    (hp : p < cfg.npages) (hx : Extras cfg p xs) :
    ∃ m', installExtras cfg m xs rnd = .ok m' ∧ Gone cfg m' p := by
  induction xs generalizing m rnd with
  | nil => exact ⟨m, rfl, hg⟩
  | cons x xs ih =>
      obtain ⟨q, hq, hqp, ha⟩ := hx.pages x List.mem_cons_self
      obtain ⟨m₁, hone, hturn⟩ := installExtra_turn hg.linked hq ha (rnd.headD 0)
      have hg₁ : Gone cfg m₁ p := by
        cases hturn with
        | inl hsame => exact hsame.1 ▸ hg
        | inr hplaced =>
            have hplaced := hplaced.2.2.1
            have hne : ¬ (m.page p).cachei = m.findSlot cfg (rnd.headD 0) := by
              intro heq
              have hfree : cfg.cachepages ≤ (m.page p).cachei := hg.uncached
              have hlt := hplaced.slot
              omega
            refine ⟨hplaced.linked, ?_, ?_⟩
            · rw [hplaced.uncached hp (Ne.symm hqp)]
              exact .inl hg.uncached
            · rw [hplaced.prot p hp (Ne.symm hqp), if_neg hne, hg.prot]
      obtain ⟨m', hrest, hg'⟩ := @ih m₁ rnd.tail hg₁ hx.tail
      refine ⟨m', ?_, hg'⟩
      rw [installExtras, hone]
      exact hrest

/-- Without room some choices of `replacei` take the slot of the page. -/
theorem exists_installExtras_gone {xs : List ExtraPage} (hp : Pending cfg m w)
    (hw : w.writefault = false) (hx : Extras cfg w.page xs) (hroom : ¬ HasRoom cfg m xs) :
    ∃ rnd m', installExtras cfg m xs rnd = .ok m' ∧ Gone cfg m' w.page := by
  induction xs generalizing m with
  | nil =>
      exfalso
      apply hroom
      unfold HasRoom
      cases (m.slotsIn cfg .unmap).card <;> exact Nat.zero_le _
  | cons x xs ih =>
      obtain ⟨q, hq, hqp, ha⟩ := hx.pages x List.mem_cons_self
      have hxs := hx.head_ne hq ha
      have hro : (m.cache w.cachei).state = .ro := by rw [hp.state, if_neg (by simp [hw])]
      have hpage : cfg.pagei x.addr = q := by rw [ha, cfg.pagei_pageAddr hq]
      -- one choice for this page, and the others as the induction gives them
      suffices h₁ : ∃ seti m₁, m.installExtra cfg x seti = .ok m₁ ∧
          (Gone cfg m₁ w.page ∨ (Pending cfg m₁ w ∧ ¬ HasRoom cfg m₁ xs)) by
        obtain ⟨seti, m₁, hone, hcase⟩ := h₁
        have hrest : ∃ rnd m', installExtras cfg m₁ xs rnd = .ok m' ∧ Gone cfg m' w.page := by
          cases hcase with
          | inl hg => exact ⟨[], installExtras_gone hg hp.page hx.tail⟩
          | inr hnext => exact ih hnext.1 hx.tail hnext.2
        obtain ⟨rnd, m', hrest, hg⟩ := hrest
        refine ⟨seti :: rnd, m', ?_, hg⟩
        rw [installExtras, List.headD_cons, List.tail_cons, hone]
        exact hrest
      by_cases hun : m.Uncached cfg q
      · have hun' : m.Uncached cfg (cfg.pagei x.addr) := hpage ▸ hun
        have hplace : ∀ seti, (m.cache (m.findSlot cfg seti)).state ≠ .rw →
            ∃ m₁, m.installExtra cfg x seti = .ok m₁ ∧
              Placed cfg q (m.findSlot cfg seti) m m₁ := by
          intro seti hst
          obtain ⟨m₁, hone, hplaced, -⟩ := installExtra_placed hp.linked hq ha hun hst
          exact ⟨m₁, hone, hplaced⟩
        have hother : ∀ {s : Nat} {m₁ : MemState}, Placed cfg q s m m₁ →
            (m.cache s).state ≠ .ro → Pending cfg m₁ w := by
          intro s m₁ hplaced hst
          refine (hplaced.pending hp hqp ?_).1
          intro heq
          rw [heq] at hst
          exact hst hro
        by_cases hunmap : ∃ c < cfg.cachepages, (m.cache c).state = .unmap
        · -- an UNMAP slot goes first, wherever the search starts
          obtain ⟨c, hc, hcst⟩ := hunmap
          have hst : (m.cache (m.findSlot cfg 0)).state = .unmap := by
            cases (findSlot_settles cfg m 0).2 with
            | unmap hst => exact hst
            | inv hno => exact absurd hcst (hno c hc)
            | start hno => exact absurd hcst (hno c hc).1
          obtain ⟨m₁, hone, hplaced⟩ := hplace 0 (by simp [hst])
          refine ⟨0, m₁, hone, .inr ⟨hother hplaced (by simp [hst]), ?_⟩⟩
          rwa [← HasRoom.unmap hp.linked hplaced hst hun' hxs]
        · have hno : ∀ c < cfg.cachepages, (m.cache c).state ≠ .unmap :=
            fun c hc hst => hunmap ⟨c, hc, hst⟩
          rw [hasRoom_full (card_slotsIn_eq_zero hno) hun', not_le] at hroom
          by_cases hinv : ∃ c < cfg.cachepages, (m.cache c).state = .inv
          · -- take the INV slot of the first page to come that has no valid copy
            have hpos : 0 < (m.slotsIn cfg .inv).card := by
              obtain ⟨c, hc, hst⟩ := hinv
              exact Finset.card_pos.mpr ⟨c, mem_slotsIn.mpr ⟨hc, hst⟩⟩
            have hsome : 0 < xs.countP fun x => decide (m.Stale cfg (cfg.pagei x.addr)) := by omega
            obtain ⟨pre, z, post, hcut, hz, hpre⟩ := exists_first hsome
            have hzmem : z ∈ xs := by
              rw [hcut]
              exact List.mem_append_right _ List.mem_cons_self
            obtain ⟨hzlt, hzq⟩ := hxs z hzmem
            have hchoice : ∃ seti, (m.cache (m.findSlot cfg seti)).state = .inv ∧
                (m.Uncached cfg (cfg.pagei z.addr) ∨
                  (m.page (cfg.pagei z.addr)).cachei = m.findSlot cfg seti) := by
              by_cases hzun : m.Uncached cfg (cfg.pagei z.addr)
              · obtain ⟨c, hc, hst⟩ := hinv
                exact ⟨c, by rw [findSlot_inv hno hc hst, hst], .inl hzun⟩
              · have hzinv := (of_decide_eq_true hz).resolve_left hzun
                have hslot := findSlot_inv hno (not_le.mp hzun) hzinv
                exact ⟨_, by rw [hslot, hzinv], .inr hslot.symm⟩
            obtain ⟨seti, hst, hzun⟩ := hchoice
            obtain ⟨m₁, hone, hplaced⟩ := hplace seti (by simp [hst])
            obtain ⟨hno', hinv', hcount⟩ := HasRoom.inv hp.linked hplaced hst hno hxs
            refine ⟨seti, m₁, hone, .inr ⟨hother hplaced (by simp [hst]), ?_⟩⟩
            have hall : (fromNth (fun x => decide (m₁.Uncached cfg (cfg.pagei x.addr))) 0
                xs).countP (fun x => decide (m₁.Stale cfg (cfg.pagei x.addr))) =
                xs.countP (fun x => decide (m₁.Stale cfg (cfg.pagei x.addr))) := by
              rw [hcut]
              apply countP_fromNth_first
              · intro y hy
                have hymem : y ∈ xs := by
                  rw [hcut]
                  exact List.mem_append_left _ hy
                obtain ⟨hylt, hyq⟩ := hxs y hymem
                have hfresh := hpre y hy
                simp only [decide_eq_false_iff_not] at hfresh ⊢
                rwa [hplaced.stale hp.linked hylt hyq (.inr hst)]
              · exact decide_eq_true ((hplaced.uncached hzlt hzq).mpr hzun)
              · intro y _ hy
                exact decide_eq_true (.inl (of_decide_eq_true hy))
            unfold HasRoom
            rw [hno', hall]
            omega
          · -- every slot has a valid copy: start at the slot of the faulting page
            have hstart := findSlot_start hno (fun c hc hst => hinv ⟨c, hc, hst⟩) hp.slot
            obtain ⟨m₁, hone, hplaced⟩ := hplace w.cachei (by rw [hstart, hro]; simp)
            rw [hstart] at hplaced
            refine ⟨w.cachei, m₁, hone, .inl ⟨hplaced.linked, ?_, ?_⟩⟩
            · rw [hplaced.uncached hp.page (Ne.symm hqp)]
              exact .inr hp.cachei
            · rw [hplaced.prot _ hp.page (Ne.symm hqp), if_pos hp.cachei]
      · refine ⟨0, m, installExtra_cached (hpage ▸ hun), .inr ⟨hp, ?_⟩⟩
        rwa [← HasRoom.skip (hpage ▸ hun)]

/-! ## Faults and replies -/

/-- The fault handler has taken a slot and made the page writable. -/
theorem cacheFault_pending (hl : Linked cfg m) {p seti : Nat} {out : Out} (hp : p < cfg.npages)
    (h : m.cacheFault cfg p seti = .ok (m', w, out)) : Pending cfg m' w ∧ w.page = p := by
  obtain ⟨m₁, s, hslot, rfl, rfl⟩ := (cacheFault_eq_ok cfg m).mp h
  refine ⟨?_, rfl⟩
  have hentry : ∀ c, (m.faultEntry cfg p c).state = if m.writefault p then .rw else .ro := by
    intro c
    unfold faultEntry
    split <;> rfl
  have haddr := fun c => (faultEntry_spec cfg m p c).1
  have hused : ∀ c, (m.faultEntry cfg p c).state ≠ .unmap := by
    intro c
    rw [hentry]
    split <;> simp
  rcases faultSlot_cases cfg m hslot with ⟨hlt, rfl, -, wait, rfl, -⟩ | ⟨hfree, m₂, hfind, rfl, -⟩
  · have hholds := (hl.slot p hp _ hlt).mp rfl
    refine ⟨?_, hp, rfl, hlt, ?_, by simp⟩
    · apply hl.congr
      · exact fun q => rfl
      · intro c
        rw [setCache_cache, upd_apply]
        split
        · rename_i hc
          rw [haddr, hc, hholds.2]
        · rfl
      · intro c
        rw [setCache_cache, upd_apply]
        split
        · rename_i hc
          rw [hc]
          exact iff_of_false (hused _) hholds.1
        · rfl
    · rw [setCache_cache, upd_same, hentry]
  · obtain ⟨rfl, hrw, -⟩ := findposition_some hfind
    obtain ⟨m₁, hfind', hl₁, hstate, hnone⟩ := findposition_placed hl hfree hrw
    rw [hfind', Option.some.injEq, Prod.mk.injEq] at hfind
    obtain ⟨-, rfl⟩ := hfind
    have hlt := (findSlot_settles cfg m seti).1
    refine ⟨?_, hp, ?_, hlt, ?_, ?_⟩
    · refine hl₁.link hp hlt hstate hnone ?_ ?_ ?_ ?_ ?_
      · intro r hrp
        simp [memmap, hrp]
      · simp [memmap]
      · intro d hd
        simp [memmap, hd]
      · rw [setCache_cache, upd_same]
        exact hused _
      · rw [setCache_cache, upd_same]
        exact haddr _
    · simp [memmap]
    · rw [setCache_cache, upd_same, hentry]
    · simp [memmap]

/-- The pages the home adds come after the requested one, in order. -/
theorem prefetchLoop_increasing {pid lo k p num : Nat} {acc ps : List Nat}
    (hacc : acc.Pairwise (· < ·)) (hlt : ∀ a ∈ acc, lo < a ∧ a < p) (hlo : lo < p)
    (h : prefetchLoop cfg pid k m p num acc = .ok (m', ps)) :
    ps.Pairwise (· < ·) ∧ ∀ a ∈ ps, lo < a := by
  induction k generalizing m p num acc with
  | zero =>
      simp only [prefetchLoop, Except.ok.injEq, Prod.mk.injEq] at h
      obtain ⟨-, rfl⟩ := h
      exact ⟨hacc, fun a ha => (hlt a ha).1⟩
  | succ k ih =>
      simp only [prefetchLoop, bind_eq_ok] at h
      obtain ⟨-, -, h⟩ := h
      have hsnoc : (acc ++ [p]).Pairwise (· < ·) := by
        rw [List.pairwise_append]
        refine ⟨hacc, List.pairwise_singleton _ _, ?_⟩
        intro a ha b hb
        rw [List.mem_singleton.mp hb]
        exact (hlt a ha).2
      have hbound : ∀ a ∈ acc ++ [p], lo < a ∧ a < p + 1 := by
        intro a ha
        cases List.mem_append.mp ha with
        | inl hmem => exact ⟨(hlt a hmem).1, Nat.lt_succ_of_lt (hlt a hmem).2⟩
        | inr hone =>
            rw [List.mem_singleton.mp hone]
            exact ⟨hlo, Nat.lt_succ_self p⟩
      split at h
      · simp only [bind_eq_ok] at h
        obtain ⟨-, -, -, -, h⟩ := h
        split at h
        · simp only [pure, Except.pure, Except.ok.injEq, Prod.mk.injEq] at h
          obtain ⟨-, rfl⟩ := h
          exact ⟨hsnoc, fun a ha => (hbound a ha).1⟩
        · exact ih hsnoc hbound (Nat.lt_succ_of_lt hlo) h
      · exact ih hacc (fun a ha => ⟨(hlt a ha).1, Nat.lt_succ_of_lt (hlt a ha).2⟩)
          (Nat.lt_succ_of_lt hlo) h

/-- What a home sends with page `p`. -/
theorem getpserver_sends {pid src p : Nat} {temp : Bool} {out : Out} (ht : m.HomeTables cfg pid)
    (hp : p < cfg.npages) (h : m.getpserver cfg pid src (cfg.pageAddr p) temp = .ok (m', out)) :
    ∃ wv data xs, out = [(src, .getpgrant (cfg.pageAddr p) wv data xs)] ∧ Extras cfg p xs := by
  obtain ⟨-, m₁, m₂, m₃, ps, pg, xs, wv, data, hrenew, hpre, -, hpages, hout⟩ := getpserver_steps h
  refine ⟨wv, data, xs, hout, ?_⟩
  have hmap := (still_copyPages hpages).2
  have hstill := still_renewTwin hrenew
  have hinc : (ps.Pairwise (· < ·) ∧ ∀ q ∈ ps, p < q) ∧ ∀ q ∈ ps, (m₁.page q).homei < Homepages := by
    rw [cfg.pagei_pageAddr hp] at hpre
    unfold prefetch at hpre
    split at hpre
    · refine ⟨prefetchLoop_increasing .nil (fun a ha => by cases ha) (Nat.lt_succ_self p) hpre, ?_⟩
      intro q hq
      cases (prefetchLoop_ok hpre).2 q hq with
      | inl hnil => cases hnil
      | inr hown => exact hown.2.1
    · simp only [Except.ok.injEq, Prod.mk.injEq] at hpre
      rw [← hpre.2]
      exact ⟨⟨.nil, fun a ha => by cases ha⟩, fun a ha => by cases ha⟩
  obtain ⟨hinc, hhomei⟩ := hinc
  have hps : ∀ q ∈ ps, q < cfg.npages := by
    intro q hq
    have hi := hhomei q hq
    rw [hstill.home.homei] at hi
    by_contra hle
    rw [ht.outside q (not_lt.mp hle)] at hi
    exact absurd hi (lt_irrefl _)
  constructor
  · intro x hx
    have hmem : x.addr ∈ ps.map cfg.pageAddr := hmap ▸ List.mem_map_of_mem hx
    obtain ⟨q, hq, ha⟩ := List.mem_map.mp hmem
    exact ⟨q, hps q hq, Nat.ne_of_gt (hinc.2 q hq), ha.symm⟩
  · rw [hmap]
    refine List.Nodup.map_on ?_ hinc.1.nodup
    intro q hq r hr heq
    exact cfg.pageAddr_inj (hps q hq) (hps r hr) heq

/-! ## The waiting fault handler -/

/-- The page is there with contents `pg`, and the fault handler goes on with it. -/
structure Delivered (cfg : Config) (w : FaultWait) (pg : Page) (m : MemState) : Prop where
  cachei : (m.page w.page).cachei = w.cachei
  prot : m.prot w.page = .readWrite
  mem : m.mem w.page = pg
  finishes : ∃ m', m.faultEnd w = .ok m' ∧ m'.mem w.page = pg ∧
    if w.writefault then (m'.cache w.cachei).twin = some pg else m'.prot w.page = .read

theorem Pending.delivered (hp : Pending cfg m w) : Delivered cfg w (m.mem w.page) m := by
  refine ⟨hp.cachei, hp.prot, rfl, ?_⟩
  unfold faultEnd
  cases hw : w.writefault with
  | true => exact ⟨_, rfl, rfl, by simp⟩
  | false =>
      refine ⟨m.setProt w.page .read, ?_, rfl, by simp⟩
      exact memprotect_eq_ok.mpr ⟨by simp [hp.prot], rfl⟩

/-- What the reply puts into the page. -/
def received (cfg : Config) (m : MemState) (p : Nat) (wv : BitVec Wvbits) (data : Page) : Page :=
  if cfg.wVec ∧ wv ≠ WVFULL then maskPage wv data (m.mem p) else data

theorem getpgrantserver_pending (hp : Pending cfg m w) (wv : BitVec Wvbits) (data : Page)
    (xs : List ExtraPage) (rnd : List Nat) :
    m.getpgrantserver cfg (cfg.pageAddr w.page) wv data xs rnd = (do
      let m ← installExtras cfg (m.setMem w.page (received cfg m w.page wv data)) xs rnd
      return { m with getpwait := false }) := by
  unfold getpgrantserver
  simp only [cfg.pagei_pageAddr hp.page]
  rw [defined, if_pos hp.prot]
  rfl

theorem Pending.setMem (hp : Pending cfg m w) (pg : Page) : Pending cfg (m.setMem w.page pg) w :=
  ⟨⟨hp.linked.slot, hp.linked.page⟩, hp.page, hp.cachei, hp.slot, hp.state, hp.prot⟩

theorem getpgrantserver_delivered {xs : List ExtraPage} (wv : BitVec Wvbits) (data : Page)
    (hp : Pending cfg m w) (hx : Extras cfg w.page xs)
    (hcond : w.writefault = true ∨ HasRoom cfg m xs) (rnd : List Nat) :
    ∃ m', m.getpgrantserver cfg (cfg.pageAddr w.page) wv data xs rnd = .ok m' ∧
      Delivered cfg w (received cfg m w.page wv data) m' := by
  have hset := hp.setMem (received cfg m w.page wv data)
  have hinst : ∃ m₁, installExtras cfg (m.setMem w.page (received cfg m w.page wv data)) xs rnd =
      .ok m₁ ∧ Pending cfg m₁ w ∧
      m₁.mem w.page = (m.setMem w.page (received cfg m w.page wv data)).mem w.page := by
    cases hw : w.writefault with
    | true => exact installExtras_write hset hw hx
    | false =>
        have hroom : HasRoom cfg m xs := hcond.resolve_left (by simp [hw])
        exact installExtras_room hset hw hx hroom
  obtain ⟨m₁, hinst, hp₁, hmem₁⟩ := hinst
  have hmem : (m.setMem w.page (received cfg m w.page wv data)).mem w.page =
      received cfg m w.page wv data := by simp
  refine ⟨{ m₁ with getpwait := false }, ?_, ?_⟩
  · rw [getpgrantserver_pending hp, hinst]
    rfl
  · rw [← hmem, ← hmem₁]
    have hend : Pending cfg { m₁ with getpwait := false } w :=
      ⟨⟨hp₁.linked.slot, hp₁.linked.page⟩, hp₁.page, hp₁.cachei, hp₁.slot, hp₁.state, hp₁.prot⟩
    exact hend.delivered

theorem exists_getpgrantserver_gone {xs : List ExtraPage} (wv : BitVec Wvbits) (data : Page)
    (hp : Pending cfg m w) (hw : w.writefault = false) (hx : Extras cfg w.page xs)
    (hroom : ¬ HasRoom cfg m xs) :
    ∃ rnd m', m.getpgrantserver cfg (cfg.pageAddr w.page) wv data xs rnd = .ok m' ∧
      m'.Uncached cfg w.page := by
  have hset := hp.setMem (received cfg m w.page wv data)
  obtain ⟨rnd, m₁, hinst, hgone⟩ := exists_installExtras_gone hset hw hx hroom
  refine ⟨rnd, { m₁ with getpwait := false }, ?_, hgone.uncached⟩
  rw [getpgrantserver_pending hp, hinst]
  rfl

theorem Delivered.cached {pg : Page} (h : Delivered cfg w pg m') (hp : Pending cfg m w) :
    ¬ m'.Uncached cfg w.page := by
  have hlt := hp.slot
  unfold Uncached
  rw [h.cachei]
  omega

/-! ## A full cache -/

instance (xs : List ExtraPage) : Decidable (m.HasRoom cfg xs) :=
  inferInstanceAs (Decidable (_ ≤ _))

/-- The host reads page `p` of another host. -/
def readPage (cfg : Config) (m : MemState) (p : Nat) : Result MemState := do
  let (m, w, _) ← m.cacheFault cfg p 0
  let m ← m.getpgrantserver cfg (cfg.pageAddr p) WVFULL zeroPage [] []
  m.faultEnd w

theorem linked_readPage (hl : Linked cfg m) {p : Nat} (hp : p < cfg.npages)
    (h : m.readPage cfg p = .ok m') : Linked cfg m' := by
  simp only [readPage, bind_eq_ok, Prod.exists] at h
  obtain ⟨m₁, w, out, hfault, m₂, hgrant, hend⟩ := h
  have hl₁ := (cacheFault_pending hl hp hfault).1.linked
  simp only [getpgrantserver, installExtras, bind_eq_ok, pure, Except.pure,
    Except.ok.injEq] at hgrant
  obtain ⟨-, -, m₃, rfl, rfl⟩ := hgrant
  unfold faultEnd at hend
  split at hend
  · simp only [pure, Except.pure, Except.ok.injEq] at hend
    subst hend
    refine hl₁.congr (fun _ => rfl) ?_ ?_
    all_goals
      intro c
      rw [setCache_cache, upd_apply]
      split
      · rename_i hc
        subst hc
        rfl
      · rfl
  · obtain ⟨-, rfl⟩ := memprotect_eq_ok.mp hend
    exact ⟨hl₁.slot, hl₁.page⟩

theorem linked_readPages {ps : List Nat} (hl : Linked cfg m) (hps : ∀ p ∈ ps, p < cfg.npages)
    (h : ps.foldlM (readPage cfg) m = .ok m') : Linked cfg m' := by
  induction ps generalizing m with
  | nil =>
      obtain rfl := Except.ok.inj h
      exact hl
  | cons p ps ih =>
      rw [List.foldlM_cons, bind_eq_ok] at h
      obtain ⟨m₁, hone, h⟩ := h
      have hl₁ := linked_readPage hl (hps p List.mem_cons_self) hone
      exact ih hl₁ (fun q hq => hps q (List.mem_cons_of_mem _ hq)) h

/-- Host 0 has read the pages `ps` of host 1 and faults on page `p`. -/
def readThenFault (ps : List Nat) (p : Nat) : Result (MemState × FaultWait × Out) := do
  let m ← ps.foldlM (readPage .fivePages) (initmem .fivePages 0)
  m.cacheFault .fivePages p 0

theorem readThenFault_pending {ps : List Nat} {p : Nat} {r : MemState × FaultWait × Out}
    (hps : ∀ q ∈ ps, q < 5) (hp : p < 5) (h : readThenFault ps p = .ok r) :
    Pending .fivePages r.1 r.2.1 ∧ r.2.1.page = p := by
  simp only [readThenFault, bind_eq_ok] at h
  obtain ⟨m, hread, hfault⟩ := h
  have hl := linked_readPages (cacheInverse_initmem 0).toLinked hps hread
  exact cacheFault_pending hl hp hfault

end MemState

end Jiajia
