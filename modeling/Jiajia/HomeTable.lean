import Jiajia.Migrate
import Mathlib.Data.Finset.Card

/-!
# Compaction of the home table

`migarrangehome` moves the entries of `home[]` to the front and takes the number
of home pages from its loop variable.
-/

namespace Jiajia

namespace MemState

/-- The two entries are about the same page, with the same bits and vectors. -/
structure SameEntry (wVec : Bool) (e e' : HomeEntry) : Prop where
  addr : e'.addr = e.addr
  wtnt : e'.wtnt = e.wtnt
  rdnt : e'.rdnt = e.rdnt
  vectors : wVec = true → e'.wtvect = e.wtvect ∧ e'.wvfull = e.wvfull

variable (cfg : Config) (m m' : MemState)

/-- `page[].homei` is inverse to `home[].addr`. -/
structure HomeInverse : Prop where
  entry : ∀ i < Homepages, (m.home i).addr ≠ 0 →
    ∃ p < cfg.npages, (m.home i).addr = cfg.pageAddr p ∧ (m.page p).homei = i
  page : ∀ p < cfg.npages, (m.page p).homei < Homepages →
    (m.home (m.page p).homei).addr = cfg.pageAddr p

/-- The entries of `home[]` in use. -/
def occupied : Finset Nat := (Finset.range Homepages).filter fun i => (m.home i).addr ≠ 0

/-- The entries in use were moved: none is lost, none is new. -/
structure Moved : Prop where
  kept : ∀ j ∈ m.occupied, ∃ i ∈ m'.occupied, SameEntry cfg.wVec (m.home j) (m'.home i)
  only : ∀ i ∈ m'.occupied, ∃ j ∈ m.occupied, SameEntry cfg.wVec (m.home j) (m'.home i)
  card : m'.occupied.card = m.occupied.card
  inverse : m'.HomeInverse cfg

/-- The pages of the table stand in its first entries, each with its own bits and
vectors, and `homesize` counts them. -/
structure Compacted : Prop where
  kept : ∀ j ∈ m.occupied, ∃ i < m.occupied.card, SameEntry cfg.wVec (m.home j) (m'.home i)
  only : ∀ i < m.occupied.card, ∃ j ∈ m.occupied, SameEntry cfg.wVec (m.home j) (m'.home i)
  inverse : m'.HomeInverse cfg
  empty : ∀ i < Homepages, m.occupied.card ≤ i → (m'.home i).addr = 0
  homesize : m'.homesize = m.occupied.card * Pagesize

variable {cfg m m'} {m'' : MemState}

theorem SameEntry.refl {wVec : Bool} (e : HomeEntry) : SameEntry wVec e e :=
  ⟨rfl, rfl, rfl, fun _ => ⟨rfl, rfl⟩⟩

theorem SameEntry.trans {wVec : Bool} {e e' e'' : HomeEntry} (h : SameEntry wVec e e')
    (h' : SameEntry wVec e' e'') : SameEntry wVec e e'' where
  addr := h'.addr.trans h.addr
  wtnt := h'.wtnt.trans h.wtnt
  rdnt := h'.rdnt.trans h.rdnt
  vectors hv := ⟨(h'.vectors hv).1.trans (h.vectors hv).1, (h'.vectors hv).2.trans (h.vectors hv).2⟩

theorem mem_occupied {i : Nat} : i ∈ m.occupied ↔ i < Homepages ∧ (m.home i).addr ≠ 0 := by
  rw [occupied, Finset.mem_filter, Finset.mem_range]

theorem Moved.refl (h : m.HomeInverse cfg) : Moved cfg m m :=
  ⟨fun j hj => ⟨j, hj, .refl _⟩, fun i hi => ⟨i, hi, .refl _⟩, rfl, h⟩

theorem Moved.trans (h : Moved cfg m m') (h' : Moved cfg m' m'') : Moved cfg m m'' where
  kept j hj := by
    obtain ⟨i, hi, hsame⟩ := h.kept j hj
    obtain ⟨k, hk, hsame'⟩ := h'.kept i hi
    exact ⟨k, hk, hsame.trans hsame'⟩
  only k hk := by
    obtain ⟨i, hi, hsame'⟩ := h'.only k hk
    obtain ⟨j, hj, hsame⟩ := h.only i hi
    exact ⟨j, hj, hsame.trans hsame'⟩
  card := h'.card.trans h.card
  inverse := h'.inverse

/-! ## One move -/

section Move

variable {i j : Nat}

theorem moveHome_home_from (i j : Nat) : ((m.moveHome cfg i j).home j).addr = 0 := by
  simp [moveHome]

theorem moveHome_home_to (hij : i < j) :
    SameEntry cfg.wVec (m.home j) ((m.moveHome cfg i j).home i) := by
  have hne : i ≠ j := Nat.ne_of_lt hij
  unfold moveHome
  simp only [setHome_home, upd_of_ne _ _ hne, upd_same]
  refine ⟨rfl, rfl, rfl, ?_⟩
  intro hv
  simp [hv]

theorem moveHome_home_other {k : Nat} (hki : k ≠ i) (hkj : k ≠ j) :
    (m.moveHome cfg i j).home k = m.home k := by
  unfold moveHome
  simp only [setHome_home, setPage_home, upd_of_ne _ _ hki, upd_of_ne _ _ hkj]

theorem moveHome_page {p : Nat} (hp : p < cfg.npages) (ha : (m.home j).addr = cfg.pageAddr p)
    (q : Nat) : ((m.moveHome cfg i j).page q).homei = if q = p then i else (m.page q).homei := by
  unfold moveHome
  simp only [ha, cfg.pagei_pageAddr hp, setHome_page, setPage_page, upd_apply]
  split <;> rfl

/-- Which entries are in use after a move. -/
theorem occupied_moveHome (hij : i < j) (hj : j < Homepages) (hnext : (m.home j).addr ≠ 0) :
    (m.moveHome cfg i j).occupied = insert i (m.occupied.erase j) := by
  ext k
  rw [mem_occupied, Finset.mem_insert, Finset.mem_erase, mem_occupied]
  by_cases hki : k = i
  · subst hki
    rw [(moveHome_home_to hij).addr]
    exact ⟨fun _ => .inl rfl, fun _ => ⟨by omega, hnext⟩⟩
  · by_cases hkj : k = j
    · subst hkj
      simp [moveHome_home_from i _, hki]
    · rw [moveHome_home_other hki hkj]
      simp [hki, hkj]

/-- The page of the moved entry names its new place, every other page its old one. -/
theorem moveHome_inverse (h : m.HomeInverse cfg) (hij : i < j) (hj : j < Homepages)
    (hfree : (m.home i).addr = 0) (hnext : (m.home j).addr ≠ 0) :
    (m.moveHome cfg i j).HomeInverse cfg := by
  obtain ⟨p, hp, ha, hpj⟩ := h.entry j hj hnext
  have hpage := moveHome_page (i := i) hp ha
  have hto : ((m.moveHome cfg i j).home i).addr = cfg.pageAddr p :=
    (moveHome_home_to hij).addr.trans ha
  constructor
  · intro k hk hne
    by_cases hki : k = i
    · subst hki
      refine ⟨p, hp, hto, ?_⟩
      rw [hpage, if_pos rfl]
    · by_cases hkj : k = j
      · subst hkj
        exact absurd (moveHome_home_from i _) hne
      · rw [moveHome_home_other hki hkj] at hne ⊢
        obtain ⟨q, hq, haq, hqk⟩ := h.entry k hk hne
        have hqp : q ≠ p := by
          intro heq
          subst heq
          exact hkj (hqk.symm.trans hpj)
        refine ⟨q, hq, haq, ?_⟩
        rw [hpage, if_neg hqp]
        exact hqk
  · intro q hq hlt
    rw [hpage] at hlt ⊢
    by_cases hqp : q = p
    · subst hqp
      rw [if_pos rfl]
      exact hto
    · rw [if_neg hqp] at hlt ⊢
      have haq := h.page q hq hlt
      -- neither the free entry nor the moved one is that of another page
      have hqi : (m.page q).homei ≠ i := by
        intro heq
        rw [heq, hfree] at haq
        exact cfg.pageAddr_ne_zero hq haq.symm
      have hqj : (m.page q).homei ≠ j := by
        intro heq
        rw [heq, ha] at haq
        exact hqp (cfg.pageAddr_inj hq hp haq.symm)
      rw [moveHome_home_other hqi hqj]
      exact haq

theorem moveHome_moved (h : m.HomeInverse cfg) (hij : i < j) (hj : j < Homepages)
    (hfree : (m.home i).addr = 0) (hnext : (m.home j).addr ≠ 0) :
    Moved cfg m (m.moveHome cfg i j) := by
  have hocc : (m.moveHome cfg i j).occupied = insert i (m.occupied.erase j) :=
    occupied_moveHome hij hj hnext
  have hmem : j ∈ m.occupied := mem_occupied.mpr ⟨hj, hnext⟩
  have hnot : i ∉ m.occupied := fun hi => (mem_occupied.mp hi).2 hfree
  have hother : ∀ k ∈ m.occupied, k ≠ j →
      SameEntry cfg.wVec (m.home k) ((m.moveHome cfg i j).home k) := by
    intro k hk hkj
    have hki : k ≠ i := by
      intro heq
      exact hnot (heq ▸ hk)
    rw [moveHome_home_other hki hkj]
    exact .refl _
  constructor
  · intro k hk
    rw [hocc]
    by_cases hkj : k = j
    · subst hkj
      exact ⟨i, Finset.mem_insert_self _ _, moveHome_home_to hij⟩
    · exact ⟨k, Finset.mem_insert_of_mem (Finset.mem_erase.mpr ⟨hkj, hk⟩), hother k hk hkj⟩
  · intro k hk
    rw [hocc, Finset.mem_insert, Finset.mem_erase] at hk
    cases hk with
    | inl heq =>
        subst heq
        exact ⟨j, hmem, moveHome_home_to hij⟩
    | inr hold => exact ⟨k, hold.2, hother k hold.2 hold.1⟩
  · have hpos := Finset.card_pos.mpr ⟨j, hmem⟩
    rw [hocc, Finset.card_insert_of_notMem fun hi => hnot (Finset.mem_of_mem_erase hi),
      Finset.card_erase_of_mem hmem]
    omega
  · exact moveHome_inverse h hij hj hfree hnext

end Move

/-! ## The loop -/

/-- The entries below `n` are in use and no others. -/
def Front (m : MemState) (n : Nat) : Prop :=
  n ≤ Homepages ∧ (∀ i < n, (m.home i).addr ≠ 0) ∧
    ∀ i, n ≤ i → i < Homepages → (m.home i).addr = 0

theorem Front.occupied {n : Nat} (h : m.Front n) : m.occupied = Finset.range n := by
  ext i
  rw [mem_occupied, Finset.mem_range]
  constructor
  · rintro ⟨hi, hne⟩
    by_contra hle
    exact hne (h.2.2 i (by omega) hi)
  · intro hi
    exact ⟨by have := h.1; omega, h.2.1 i hi⟩

/-- Where the loop ends: in the middle, one past the first free entry, or after a table
without free entries. -/
def Ends (r : MemState × Nat) : Prop :=
  ∃ n, r.1.Front n ∧ ((n < Homepages ∧ r.2 = n + 1) ∨ (n = Homepages ∧ r.2 = Homepages))

theorem arrangeLoop_front {k i : Nat} (h : m.HomeInverse cfg) (hk : i + k = Homepages)
    (hused : ∀ j < i, (m.home j).addr ≠ 0) :
    Moved cfg m (arrangeLoop cfg k i m).1 ∧ Ends (arrangeLoop cfg k i m) := by
  revert h hused
  refine arrangeLoop_induct (Q := fun i m r => m.HomeInverse cfg →
    (∀ j < i, (m.home j).addr ≠ 0) → Moved cfg m r.1 ∧ Ends r) ?_ ?_ ?_ ?_ hk
  · intro m h hused
    refine ⟨.refl h, Homepages, ⟨le_refl _, hused, ?_⟩, .inr ⟨rfl, rfl⟩⟩
    intro i hle hlt
    omega
  · intro i j m r hij hj hfree hnext ih h hused
    have hmove := moveHome_moved h hij hj hfree hnext
    have haddr : ∀ l, l ≠ j → ((m.moveHome cfg i j).home l).addr =
        if l = i then (m.home j).addr else (m.home l).addr := by
      intro l hlj
      by_cases hli : l = i
      · rw [if_pos hli, hli]
        exact (moveHome_home_to hij).addr
      · rw [if_neg hli, moveHome_home_other hli hlj]
    have hrest := ih hmove.inverse (moveHome_used hij hnext haddr hused)
    exact ⟨hmove.trans hrest.1, hrest.2⟩
  · intro i m hi hfree h hused
    exact ⟨.refl h, i, ⟨by omega, hused, hfree⟩, .inl ⟨hi, rfl⟩⟩
  · intro i m r _ hi ih h hused
    exact ih h (used_succ hi hused)

/-- What `migarrangehome` leaves for every table; with a full one the count is one short. -/
theorem migarrangehome_spec (h : m.HomeInverse cfg) :
    Moved cfg m (m.migarrangehome cfg) ∧ (m.migarrangehome cfg).Front m.occupied.card ∧
      (m.migarrangehome cfg).homesize = (if m.occupied.card < Homepages then m.occupied.card
        else Homepages - 1) * Pagesize := by
  obtain ⟨hmoved, n, hfront, hend⟩ := arrangeLoop_front (k := Homepages) (i := 0) h rfl (by omega)
  have hcard : m.occupied.card = n := by
    rw [← hmoved.card, hfront.occupied, Finset.card_range]
  have hinv := hmoved.inverse
  refine ⟨⟨hmoved.kept, hmoved.only, hmoved.card, ⟨hinv.entry, hinv.page⟩⟩, ?_, ?_⟩
  · rw [hcard]
    exact hfront
  · rw [hcard]
    show ((arrangeLoop cfg Homepages 0 m).2 - 1) * Pagesize = _
    cases hend with
    | inl hlt => rw [if_pos hlt.1, hlt.2, Nat.add_sub_cancel]
    | inr hfull => rw [if_neg (by omega), hfull.2]

/-- The table is compacted, and its size counted, when an entry is free. -/
theorem migarrangehome_compacts_iff (h : m.HomeInverse cfg) :
    Compacted cfg m (m.migarrangehome cfg) ↔ m.occupied.card < Homepages := by
  obtain ⟨hmoved, hfront, hsize⟩ := migarrangehome_spec h
  constructor
  · intro hc
    by_contra hfull
    have hcount := hsize.symm.trans hc.homesize
    rw [if_neg hfull] at hcount
    have hle : Homepages ≤ m.occupied.card := by omega
    have hmul := Nat.mul_le_mul_right Pagesize hle
    simp only [Homepages, Pagesize] at hcount hmul
    omega
  · intro hlt
    refine ⟨?_, ?_, hmoved.inverse, ?_, ?_⟩
    · intro j hj
      obtain ⟨i, hi, hsame⟩ := hmoved.kept j hj
      rw [hfront.occupied, Finset.mem_range] at hi
      exact ⟨i, hi, hsame⟩
    · intro i hi
      apply hmoved.only
      rw [hfront.occupied, Finset.mem_range]
      exact hi
    · intro i hi hle
      exact hfront.2.2 i hle hi
    · rw [hsize, if_pos hlt]

/-! ## Concrete tables -/

/-- A table whose entry `i` is that of page `i` where `P` holds, and free elsewhere. -/
def tableOf (cfg : Config) (P : Nat → Bool) : MemState :=
  { initmem cfg 0 with
    home := fun i => ⟨1, true, if P i then cfg.pageAddr i else 0, fun _ => WVFULL, none, true⟩
    page := fun p => ⟨cfg.cachepages, if P p then p else Homepages, 0⟩ }

theorem tableOf_inverse {P : Nat → Bool} (hP : ∀ i, P i = true → i < cfg.npages) :
    (tableOf cfg P).HomeInverse cfg := by
  constructor
  · intro i _ hne
    by_cases hi : P i = true
    · exact ⟨i, hP i hi, by simp [tableOf, hi], by simp [tableOf, hi]⟩
    · exact absurd (by simp [tableOf, hi]) hne
  · intro p _ hlt
    by_cases hp : P p = true
    · simp [tableOf, hp]
    · simp [tableOf, hp] at hlt

theorem tableOf_addr_ne_zero {P : Nat → Bool} (hP : ∀ i, P i = true → i < cfg.npages) (i : Nat) :
    ((tableOf cfg P).home i).addr ≠ 0 ↔ P i = true := by
  constructor
  · intro hne
    by_contra hi
    exact hne (if_neg hi)
  · intro hi
    have haddr : ((tableOf cfg P).home i).addr = cfg.pageAddr i := if_pos hi
    rw [haddr]
    exact cfg.pageAddr_ne_zero (hP i hi)

theorem slots_range : 0 < 4 ∧ 4 < 2 ^ 16 := by decide

theorem half_lt : 8192 < Homepages ∧ 8192 < Homepages := by decide

/-- As many pages as `home[]` has entries. -/
def allHome : Config := Config.twoHosts 4 8192 8192 true slots_range half_lt

/-- Four entries with holes before, between and behind them, and different write bits. -/
def holes : MemState :=
  let m := tableOf allHome (· ∈ [1, 3, 4, 9])
  { m with home := fun i => { m.home i with wtnt := BitVec.ofNat 8 i } }

theorem migarrangehome_compacts_holes :
    holes.occupied = {1, 3, 4, 9} ∧ Compacted allHome holes (holes.migarrangehome allHome) := by
  have hP : ∀ i, decide (i ∈ [1, 3, 4, 9]) = true → i < allHome.npages := by
    intro i hi
    have hlt : ∀ i ∈ [1, 3, 4, 9], i < allHome.npages := by decide
    exact hlt i (of_decide_eq_true hi)
  have hinv := tableOf_inverse hP
  have hholes : holes.HomeInverse allHome := ⟨hinv.entry, hinv.page⟩
  have hused : holes.occupied = {1, 3, 4, 9} := by
    ext i
    rw [mem_occupied]
    have haddr : (holes.home i).addr ≠ 0 ↔ decide (i ∈ [1, 3, 4, 9]) = true :=
      tableOf_addr_ne_zero hP i
    have hlt : ∀ i ∈ [1, 3, 4, 9], i < Homepages := by decide
    rw [haddr, decide_eq_true_iff, and_iff_right_of_imp (hlt i)]
    simp
  refine ⟨hused, (migarrangehome_compacts_iff hholes).mpr ?_⟩
  rw [hused]
  decide

/-- Every entry in use: the size is one page short. -/
theorem full_table_short :
    ¬ Compacted allHome (tableOf allHome (decide <| · < Homepages))
      ((tableOf allHome (decide <| · < Homepages)).migarrangehome allHome) := by
  have hP : ∀ i, decide (i < Homepages) = true → i < allHome.npages := by
    intro i hi
    exact of_decide_eq_true hi
  have hall : (tableOf allHome (decide <| · < Homepages)).occupied = Finset.range Homepages := by
    ext i
    rw [mem_occupied, Finset.mem_range]
    constructor
    · exact fun hi => hi.1
    · exact fun hi => ⟨hi, (tableOf_addr_ne_zero hP i).mpr (decide_eq_true hi)⟩
  intro hc
  have hsize := (migarrangehome_spec (tableOf_inverse hP)).2.2
  rw [hc.homesize, hall, Finset.card_range, if_neg (lt_irrefl _)] at hsize
  exact absurd hsize (by decide)

end MemState

end Jiajia
