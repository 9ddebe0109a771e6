import Jiajia.Fetch

/-!
# Prefetched pages and home pages

`getpserver` adds pages to its answer by its own `page[].homepid`, and
`getpgrantserver` puts them into the cache without looking at the home.  A host
that has become the home of such a page in the meantime loses what it stored.
-/

namespace Jiajia

open Fifo Transition Host MemState

variable {cfg : Config}

namespace MemState

variable {pid : Nat} {m m' m'' : MemState}

/-! ## Home pages are not in the cache -/

/-- No page of which host `pid` is the home has a slot of the cache. -/
def Apart (cfg : Config) (pid : Nat) (m : MemState) : Prop :=
  ∀ p < cfg.npages, (m.page p).homepid = pid → cfg.cachepages ≤ (m.page p).cachei

/-- What a step may do to slots and homes: `new` tells which pages may get a slot. -/
structure Slots (cfg : Config) (new : Nat → Prop) (m m' : MemState) : Prop where
  homepid : ∀ q, (m'.page q).homepid = (m.page q).homepid
  slot : ∀ q, (m'.page q).cachei < cfg.cachepages → (m.page q).cachei < cfg.cachepages ∨ new q

theorem Slots.apart {new : Nat → Prop} (hs : Slots cfg new m m') (ha : m.Apart cfg pid)
    (hnew : ∀ q < cfg.npages, new q → (m.page q).homepid ≠ pid) : m'.Apart cfg pid := by
  intro q hq hpid
  rw [hs.homepid] at hpid
  by_contra hlt
  rcases hs.slot q (not_le.mp hlt) with hold | hn
  · exact absurd (ha q hq hpid) (not_le.mpr hold)
  · exact hnew q hq hn hpid

theorem slots_of_same {new : Nat → Prop} (hpid : ∀ q, (m'.page q).homepid = (m.page q).homepid)
    (hc : ∀ q, (m'.page q).cachei = (m.page q).cachei) : Slots cfg new m m' :=
  ⟨hpid, fun q hq => Or.inl (hc q ▸ hq)⟩

theorem Still.slots {new : Nat → Prop} (h : Still m m') : Slots cfg new m m' :=
  slots_of_same h.home.homepid h.cache.cachei

theorem Flagged.slots {new : Nat → Prop} (h : Flagged m m') : Slots cfg new m m' :=
  slots_of_same h.homepid h.cache.cachei

theorem Slots.trans {new : Nat → Prop} (h : Slots cfg new m m') (h' : Slots cfg new m' m'') :
    Slots cfg new m m'' where
  homepid q := (h'.homepid q).trans (h.homepid q)
  slot q hq := (h'.slot q hq).elim (fun hm => h.slot q hm) Or.inr

theorem Slots.mono {new new' : Nat → Prop} (h : Slots cfg new m m') (hn : ∀ q, new q → new' q) :
    Slots cfg new' m m' :=
  ⟨h.homepid, fun q hq => (h.slot q hq).imp id (hn q)⟩

theorem slots_flushpage (c : Nat) : Slots cfg (fun _ => False) m (m.flushpage cfg c) where
  homepid := (flushpage_sameHome c).homepid
  slot q hq := by
    simp only [flushpage, setCache_page, setPage_page, upd_apply, memunmap, setProt_page] at hq
    split at hq
    · exact absurd hq (lt_irrefl _)
    · exact Or.inl hq

/-- Page `p` gets a slot, and no other. -/
theorem slots_setPage (p s : Nat) :
    Slots cfg (fun q => q = p) m (m.setPage p { m.page p with cachei := s }) where
  homepid q := by
    by_cases hq : q = p
    · simp [hq]
    · simp [hq]
  slot q hq := by
    by_cases hqp : q = p
    · exact Or.inr hqp
    · rw [setPage_page, upd_of_ne _ _ hqp] at hq
      exact Or.inl hq

theorem slots_findposition {p seti s : Nat} (h : m.findposition cfg p seti = some (s, m')) :
    Slots cfg (fun q => q = p) m m' := by
  obtain ⟨-, -, m₁, rfl, hm₁⟩ := findposition_cases h
  rcases hm₁ with ⟨rfl, -⟩ | rfl
  · exact slots_setPage p _
  · have hflush : Slots cfg (fun q => q = p) m (m.flushpage cfg s) :=
      (slots_flushpage s).mono fun _ hf => hf.elim
    exact hflush.trans (slots_setPage p _)

/-- A fault gives a slot to the page it is about. -/
theorem slots_cacheFault {p seti : Nat} {w : FaultWait} {out : Out}
    (h : m.cacheFault cfg p seti = .ok (m', w, out)) : Slots cfg (fun q => q = p) m m' := by
  obtain ⟨m₁, s, hslot, rfl, rfl⟩ := (cacheFault_eq_ok cfg m).mp h
  have hone : Slots cfg (fun q => q = p) m m₁ := by
    rcases faultSlot_cases cfg m hslot with ⟨-, -, -, wait, rfl, -⟩ | ⟨-, m₂, hfind, rfl, -⟩
    · exact slots_of_same (fun _ => rfl) fun _ => rfl
    · obtain ⟨hpid, hs⟩ := slots_findposition hfind
      exact ⟨hpid, hs⟩
  exact ⟨hone.homepid, hone.slot⟩

/-! ## Installing prefetched pages -/

/-- What installing pages does: the pages in `new` may get a slot and contents. -/
structure Installs (cfg : Config) (new : Nat → Prop) (m m' : MemState) : Prop where
  slots : Slots cfg new m m'
  mem : ∀ q, ¬ new q → m'.mem q = m.mem q

theorem Installs.trans {new : Nat → Prop} (h : Installs cfg new m m')
    (h' : Installs cfg new m' m'') : Installs cfg new m m'' :=
  ⟨h.slots.trans h'.slots, fun q hq => (h'.mem q hq).trans (h.mem q hq)⟩

theorem findposition_mem {p seti s : Nat} (h : m.findposition cfg p seti = some (s, m')) :
    m'.mem = m.mem := by
  obtain ⟨-, -, m₁, rfl, hm₁⟩ := findposition_cases h
  rcases hm₁ with ⟨rfl, -⟩ | rfl
  · rfl
  · rfl

theorem installs_extra {x : ExtraPage} {seti : Nat} (h : m.installExtra cfg x seti = .ok m') :
    Installs cfg (fun q => q = cfg.pagei x.addr) m m' := by
  unfold installExtra at h
  simp only at h
  split at h
  · obtain rfl := Except.ok.inj h
    exact ⟨slots_of_same (fun _ => rfl) fun _ => rfl, fun _ _ => rfl⟩
  · split at h
    · obtain rfl := Except.ok.inj h
      exact ⟨slots_of_same (fun _ => rfl) fun _ => rfl, fun _ _ => rfl⟩
    · rename_i s m₁ hfind
      obtain ⟨-, rfl⟩ := memprotect_eq_ok.mp h
      obtain ⟨hpid, hs⟩ := slots_findposition hfind
      refine ⟨⟨hpid, hs⟩, ?_⟩
      intro q hq
      have hmem := congrFun (findposition_mem hfind) q
      simp only [setProt_mem, setCache_mem, setMem_mem, memmap, upd_of_ne _ _ hq]
      exact hmem

theorem installs_extras {xs : List ExtraPage} {rnd : List Nat}
    (h : installExtras cfg m xs rnd = .ok m') :
    Installs cfg (fun q => ∃ x ∈ xs, q = cfg.pagei x.addr) m m' := by
  induction xs generalizing m rnd with
  | nil =>
      obtain rfl := Except.ok.inj h
      exact ⟨slots_of_same (fun _ => rfl) fun _ => rfl, fun _ _ => rfl⟩
  | cons x xs ih =>
      simp only [installExtras, bind_eq_ok] at h
      obtain ⟨m₁, hone, hrest⟩ := h
      obtain ⟨hs, hmem⟩ := installs_extra hone
      obtain ⟨hs', hmem'⟩ := ih hrest
      refine Installs.trans ⟨hs.mono ?_, fun q hq => hmem q ?_⟩
        ⟨hs'.mono ?_, fun q hq => hmem' q ?_⟩
      · exact fun q hq => ⟨x, List.mem_cons_self, hq⟩
      · exact fun heq => hq ⟨x, List.mem_cons_self, heq⟩
      · rintro q ⟨y, hy, heq⟩
        exact ⟨y, List.mem_cons_of_mem _ hy, heq⟩
      · rintro ⟨y, hy, heq⟩
        exact hq ⟨y, List.mem_cons_of_mem _ hy, heq⟩

/-- `getpgrantserver` writes to the requested page and to the prefetched ones. -/
theorem installs_getpgrant {addr : Addr} {wv : BitVec Wvbits} {data : Page}
    {xs : List ExtraPage} {rnd : List Nat}
    (h : m.getpgrantserver cfg addr wv data xs rnd = .ok m') :
    Slots cfg (fun q => ∃ x ∈ xs, q = cfg.pagei x.addr) m m' ∧
      ∀ q, q ≠ cfg.pagei addr → (∀ x ∈ xs, q ≠ cfg.pagei x.addr) → m'.mem q = m.mem q := by
  simp only [getpgrantserver, bind_eq_ok, defined_eq_ok, pure, Except.pure,
    Except.ok.injEq] at h
  obtain ⟨-, -, m₁, hinst, rfl⟩ := h
  obtain ⟨⟨hpid, hs⟩, hmem⟩ := installs_extras hinst
  refine ⟨⟨hpid, hs⟩, ?_⟩
  intro q hq hxs
  have hnew : ¬ ∃ x ∈ xs, q = cfg.pagei x.addr := by
    rintro ⟨x, hx, heq⟩
    exact hxs x hx heq
  have hkept := hmem q hnew
  rw [setMem_mem, upd_of_ne _ _ hq] at hkept
  exact hkept

/-! ## Migration keeps home pages out of the cache -/

theorem slots_demote {p : Nat} (hp : p < cfg.npages) :
    Slots cfg (fun q => q = p) m (demote cfg m (cfg.pageAddr p)) := by
  unfold demote
  simp only [cfg.pagei_pageAddr hp]
  split
  · have hone : Slots cfg (fun q => q = p) m (if (m.cache (firstIdx (fun i =>
        (m.cache i).state == .unmap || (m.cache i).state == .inv) cfg.cachepages 0)).state = .inv
        then m.flushpage cfg (firstIdx (fun i =>
          (m.cache i).state == .unmap || (m.cache i).state == .inv) cfg.cachepages 0) else m) := by
      split
      · exact (slots_flushpage _).mono fun _ hf => hf.elim
      · exact slots_of_same (fun _ => rfl) fun _ => rfl
    refine hone.trans ?_
    refine Slots.trans ?_ (slots_setPage p _)
    exact slots_of_same (fun _ => rfl) fun _ => rfl
  · exact slots_of_same (fun _ => rfl) fun _ => rfl

theorem apart_migpage (ha : m.Apart cfg pid) {p modifypid : Nat} (hp : p < cfg.npages)
    (h : m.migpage cfg pid (cfg.pageAddr p) (m.page p).homepid modifypid = .ok m') :
    m'.Apart cfg pid := by
  simp only [migpage, bind_eq_ok, pure, Except.pure, Except.ok.injEq,
    cfg.pagei_pageAddr hp] at h
  obtain ⟨m₁, hrole, rfl⟩ := h
  -- the other pages keep their homes, and the page gets its slot only where it leaves
  have hother : ∀ q, q ≠ p → ((m₁.setPage p { m₁.page p with homepid := modifypid }).page q) =
      m₁.page q := by
    intro q hq
    simp [hq]
  unfold migRole at hrole
  intro q hq hpid
  by_cases hqp : q = p
  · subst hqp
    have hpid' : modifypid = pid := by simpa using hpid
    have hslot : ((m₁.setPage q { m₁.page q with homepid := modifypid }).page q).cachei =
        (m₁.page q).cachei := by simp
    rw [hslot]
    split at hrole
    · obtain ⟨idx, -, -, -, hpage, -⟩ := migNewHome_fields hp hrole
      simp [hpage]
    · rename_i hnew
      split at hrole
      · rename_i hold
        exact absurd hpid' hold.1
      · obtain rfl := Except.ok.inj hrole
        apply ha q hq
        by_contra hne
        exact hnew ⟨hpid', hne⟩
  · rw [hother q hqp] at hpid ⊢
    split at hrole
    · obtain ⟨idx, -, -, -, hpage, -⟩ := migNewHome_fields hp hrole
      rw [hpage, if_neg hqp] at hpid ⊢
      exact ha q hq hpid
    · split at hrole
      · obtain ⟨-, -, hpage, -⟩ := migOldHome_fields hp hrole
        rw [hpage, if_neg hqp] at hpid ⊢
        have hs : Slots cfg (fun q => q = p) m (demote cfg m (cfg.pageAddr p)) := slots_demote hp
        rw [hs.homepid] at hpid
        by_contra hlt
        rcases hs.slot q (not_le.mp hlt) with hold | heq
        · exact absurd (ha q hq hpid) (not_le.mpr hold)
        · exact hqp heq
      · obtain rfl := Except.ok.inj hrole
        exact ha q hq hpid

theorem slots_invalidateCopy {n : GrantNotice} (h : Host.invalidateCopy cfg pid m n = .ok m') :
    Slots cfg (fun _ => False) m m' := by
  unfold Host.invalidateCopy at h
  simp only at h
  split at h
  · obtain ⟨-, rfl⟩ := memprotect_eq_ok.mp h
    exact slots_of_same (fun _ => rfl) fun _ => rfl
  · obtain rfl := Except.ok.inj h
    exact slots_of_same (fun _ => rfl) fun _ => rfl

theorem apart_invalidate {lock : Nat} {ns : List GrantNotice} (ha : m.Apart cfg pid)
    (hpages : ∀ n ∈ ns, cfg.IsPage n.addr) (h : Host.invalidate cfg pid lock m ns = .ok m') :
    m'.Apart cfg pid := by
  induction ns generalizing m with
  | nil =>
      obtain rfl := Except.ok.inj h
      exact ha
  | cons n ns ih =>
      simp only [Host.invalidate, bind_eq_ok] at h
      obtain ⟨m₁, hone, hrest⟩ := h
      refine ih ?_ (fun x hx => hpages x (List.mem_cons_of_mem _ hx)) hrest
      simp only [Host.invalidateNotice, bind_eq_ok] at hone
      obtain ⟨m₂, hcopy, m₃, hmig, hmark⟩ := hone
      have ha₂ := (slots_invalidateCopy hcopy).apart ha fun _ _ hf => hf.elim
      have ha₃ : m₃.Apart cfg pid := by
        unfold Host.migrateNotice at hmig
        split at hmig
        · obtain ⟨p, hp, hn⟩ := hpages n List.mem_cons_self
          rw [hn, homehost, cfg.pagei_pageAddr hp] at hmig
          exact apart_migpage ha₂ hp hmig
        · obtain rfl := Except.ok.inj hmig
          exact ha₂
      have hstill : Slots cfg (fun _ => False) m₃ m₁ := (markRemote_same hmark).slots
      exact hstill.apart ha₃ fun _ _ hf => hf.elim

/-! ## The pages `getpserver` adds -/

/-- The home pages of host `pid` among pages `p` to `q - 1`. -/
def homesIn (pid : Nat) (m : MemState) (p q : Nat) : Nat :=
  (List.range' p (q - p)).countP fun r => (m.page r).homepid = pid

/-- Page `q` goes with page `p` when host `pid` answers a request: it is one of the
next `maxCheckingPages` pages and among the first `prefetchPages` of them whose home
the host is by its own table. -/
def Prefetches (cfg : Config) (pid : Nat) (m : MemState) (p q : Nat) : Prop :=
  cfg.prefetchFlag = true ∧ p < q ∧ (q : Int) ≤ p + cfg.maxCheckingPages ∧
    (m.page q).homepid = pid ∧
    (cfg.prefetchPages < 0 ∨ (m.homesIn pid (p + 1) q : Int) < cfg.prefetchPages)

theorem homesIn_self (p : Nat) : m.homesIn pid p p = 0 := by
  simp [homesIn]

theorem homesIn_succ {p q : Nat} (hpq : p < q) :
    m.homesIn pid p q = m.homesIn pid (p + 1) q + if (m.page p).homepid = pid then 1 else 0 := by
  have hlen : q - p = (q - (p + 1)) + 1 := by omega
  unfold homesIn
  rw [hlen, List.range'_succ, List.countP_cons]
  simp

/-- The loop, with `k` pages left to check from page `p` on and `num` pages found. -/
theorem prefetchLoop_picks {k p num : Nat} {acc ps : List Nat}
    (hk : (num : Int) + k ≤ cfg.maxCheckingPages + 1) (hnum : 0 < num)
    (hfound : cfg.prefetchPages < 0 ∨ (num : Int) ≤ cfg.prefetchPages)
    (h : prefetchLoop cfg pid k m p num acc = .ok (m', ps)) :
    ∀ q, q ∈ ps ↔ q ∈ acc ∨ (p ≤ q ∧ q < p + k ∧ (m.page q).homepid = pid ∧
      (cfg.prefetchPages < 0 ∨ (num : Int) + m.homesIn pid p q ≤ cfg.prefetchPages)) := by
  induction k generalizing m p num acc with
  | zero =>
      simp only [prefetchLoop, Except.ok.injEq, Prod.mk.injEq] at h
      obtain ⟨rfl, rfl⟩ := h
      intro q
      constructor
      · exact Or.inl
      · rintro (hq | ⟨h₁, h₂, -⟩)
        · exact hq
        · omega
  | succ k ih =>
      simp only [prefetchLoop, bind_eq_ok, defined_eq_ok] at h
      obtain ⟨-, -, h⟩ := h
      split at h
      · rename_i hp
        simp only [bind_eq_ok, defined_eq_ok] at h
        obtain ⟨-, -, -, -, h⟩ := h
        split at h
        · -- the last page
          rename_i hlast
          simp only [pure, Except.pure, Except.ok.injEq, Prod.mk.injEq] at h
          obtain ⟨rfl, rfl⟩ := h
          intro q
          rw [List.mem_append, List.mem_singleton]
          refine or_congr Iff.rfl ?_
          constructor
          · rintro rfl
            rw [homesIn_self]
            exact ⟨le_rfl, by omega, hp.1, by omega⟩
          · rintro ⟨hle, -, -, hpicked⟩
            by_contra hne
            have hlt : p < q := by omega
            rw [homesIn_succ hlt, if_pos hp.1] at hpicked
            omega
        · rename_i hmore
          have hrest := ih (by push_cast at hk ⊢; omega) (Nat.succ_pos num)
            (by push_cast at hmore ⊢; omega) h
          intro q
          rw [hrest q, List.mem_append, List.mem_singleton, or_assoc]
          refine or_congr Iff.rfl ?_
          constructor
          · rintro (rfl | ⟨hle, hlt, hq, hpicked⟩)
            · rw [homesIn_self]
              exact ⟨le_rfl, by omega, hp.1, by omega⟩
            · refine ⟨by omega, by omega, hq, ?_⟩
              rw [homesIn_succ (show p < q by omega), if_pos hp.1]
              change cfg.prefetchPages < 0 ∨
                ((num + 1 : Nat) : Int) + m.homesIn pid (p + 1) q ≤ cfg.prefetchPages at hpicked
              push_cast at hpicked ⊢
              omega
          · rintro ⟨hle, hlt, hq, hpicked⟩
            by_cases hqp : q = p
            · exact Or.inl hqp
            · right
              rw [homesIn_succ (show p < q by omega), if_pos hp.1] at hpicked
              refine ⟨by omega, by omega, hq, ?_⟩
              change cfg.prefetchPages < 0 ∨
                ((num + 1 : Nat) : Int) + m.homesIn pid (p + 1) q ≤ cfg.prefetchPages
              push_cast at hpicked ⊢
              omega
      · rename_i hp
        have hnot : (m.page p).homepid ≠ pid := by
          intro heq
          exact hp ⟨heq, by push_cast at hk; omega⟩
        have hrest := ih (by push_cast at hk; omega) hnum hfound h
        intro q
        rw [hrest q]
        refine or_congr Iff.rfl ?_
        constructor
        · rintro ⟨hle, hlt, hq, hpicked⟩
          rw [homesIn_succ (show p < q by omega), if_neg hnot]
          exact ⟨by omega, by omega, hq, hpicked⟩
        · rintro ⟨hle, hlt, hq, hpicked⟩
          have hqp : q ≠ p := by
            rintro rfl
            exact hnot hq
          rw [homesIn_succ (show p < q by omega), if_neg hnot] at hpicked
          exact ⟨by omega, by omega, hq, hpicked⟩

/-- `getpserver` adds exactly these pages. -/
theorem mem_prefetch {p : Nat} {ps : List Nat} (h : m.prefetch cfg pid p = .ok (m', ps)) (q : Nat) :
    q ∈ ps ↔ Prefetches cfg pid m p q := by
  unfold prefetch at h
  unfold Prefetches
  split at h
  · rename_i hon
    by_cases hmax : 0 ≤ cfg.maxCheckingPages
    · have hpicks := prefetchLoop_picks (by push_cast; omega) Nat.one_pos (by omega) h q
      rw [hpicks]
      constructor
      · rintro (hq | ⟨hle, hlt, hq, hpicked⟩)
        · cases hq
        · exact ⟨hon.1, by omega, by omega, hq, by omega⟩
      · rintro ⟨-, hlt, hle, hq, hpicked⟩
        exact Or.inr ⟨by omega, by omega, hq, by omega⟩
    · have hzero : cfg.maxCheckingPages.toNat = 0 := by omega
      simp only [hzero, prefetchLoop, Except.ok.injEq, Prod.mk.injEq] at h
      obtain ⟨rfl, rfl⟩ := h
      constructor
      · intro hq
        cases hq
      · rintro ⟨-, hlt, hle, -⟩
        omega
  · rename_i hoff
    simp only [Except.ok.injEq, Prod.mk.injEq] at h
    obtain ⟨rfl, rfl⟩ := h
    constructor
    · intro hq
      cases hq
    · rintro ⟨hon, -, -, -, hpicked⟩
      refine absurd ⟨hon, ?_⟩ hoff
      omega

theorem prefetch_homei {p q : Nat} {ps : List Nat} (h : m.prefetch cfg pid p = .ok (m', ps))
    (hq : q ∈ ps) : (m.page q).homei < Homepages := by
  unfold prefetch at h
  split at h
  · exact (((prefetchLoop_ok h).2 q hq).resolve_left List.not_mem_nil).2.1
  · simp only [Except.ok.injEq, Prod.mk.injEq] at h
    rw [← h.2] at hq
    cases hq

theorem Prefetches.congr {p q : Nat} (hpid : ∀ r, (m'.page r).homepid = (m.page r).homepid)
    (h : Prefetches cfg pid m' p q) : Prefetches cfg pid m p q := by
  obtain ⟨hon, hlt, hle, hq, hpicked⟩ := h
  have hcount : m'.homesIn pid (p + 1) q = m.homesIn pid (p + 1) q := by
    simp only [homesIn, hpid]
  rw [hcount] at hpicked
  exact ⟨hon, hlt, hle, hpid q ▸ hq, hpicked⟩

/-- The pages in the answer of `getpserver`. -/
theorem getpserver_extras {src : Nat} {addr : Addr} {temp : Bool} {out : Out}
    (h : m.getpserver cfg pid src addr temp = .ok (m', out)) :
    ∃ wv data xs, out = [(src, .getpgrant addr wv data xs)] ∧ ∀ x ∈ xs, ∃ q,
      x.addr = cfg.pageAddr q ∧ (m.page q).homei < Homepages ∧
        Prefetches cfg pid m (cfg.pagei addr) q := by
  obtain ⟨-, m₁, m₂, m₃, ps, pg, xs, wv, data, htwin, hpre, -, hpages, rfl⟩ := getpserver_steps h
  refine ⟨wv, data, xs, rfl, ?_⟩
  obtain ⟨-, hmap⟩ := still_copyPages hpages
  intro x hx
  have hmem : x.addr ∈ ps.map cfg.pageAddr := by
    rw [← hmap]
    exact List.mem_map_of_mem hx
  obtain ⟨q, hq, heq⟩ := List.mem_map.mp hmem
  have hpicked := (mem_prefetch hpre q).mp hq
  have hstill := still_renewTwin htwin
  refine ⟨q, heq.symm, ?_, hpicked.congr hstill.home.homepid⟩
  have hi := prefetch_homei hpre hq
  rw [← hstill.home.homei]
  exact hi

end MemState

/-! ## Hosts -/

section Host

variable {pid src : Nat} {rnd : List Nat} {msg : Msg} {h h' : Host} {out : Out}

/-- The page a main thread waits for inside the fault handler has another home. -/
def Host.Abroad (cfg : Config) (pid : Nat) (h : Host) : Prop :=
  ∀ w, h.pc = .fault w → w.page < cfg.npages ∧ (h.m.page w.page).homepid ≠ pid

theorem startCache_page {m m' : MemState} (h : startCache cfg m = .ok m') : m'.page = m.page := by
  simp only [startCache, bind_eq_ok, jiaAssert_eq_ok, pure, Except.pure, Except.ok.injEq] at h
  obtain ⟨-, -, rfl⟩ := h
  rfl

/-- Main threads put pages of other hosts into the cache. -/
theorem main_slots {a : Act} (hm : Main cfg pid h a h' out) :
    Slots cfg (fun q => (h.m.page q).homepid ≠ pid) h.m h'.m := by
  have hid : h'.m = h.m → Slots cfg (fun q => (h.m.page q).homepid ≠ pid) h.m h'.m := by
    intro heq
    rw [heq]
    exact slots_of_same (fun _ => rfl) fun _ => rfl
  have hstart : ∀ {m₁ m₂ : MemState} {barr : Bool}, startCache cfg h.m = .ok m₁ →
      startHomes cfg barr m₁ = .ok m₂ → h'.m = m₂ →
      Slots cfg (fun q => (h.m.page q).homepid ≠ pid) h.m h'.m := by
    intro m₁ m₂ barr h₁ h₂ heq
    have hpage := startCache_page h₁
    have hstill := still_startHomes h₂
    rw [heq]
    refine slots_of_same ?_ ?_
    · intro q
      rw [hstill.home.homepid, hpage]
    · intro q
      rw [hstill.cache.cachei, hpage]
  cases hm with
  | load hpc => exact hid rfl
  | store hpc hp hprot => exact slots_of_same (fun _ => rfl) fun _ => rfl
  | homeFault hpc hp hfault hhome hm => exact (still_homeFault hm).slots
  | cacheFault hpc hp hfault hhome hm =>
      refine (slots_cacheFault hm).mono ?_
      rintro q rfl
      exact hhome
  | faultEnd hpc hwait hm =>
      unfold MemState.faultEnd at hm
      split at hm
      · obtain rfl := Except.ok.inj hm
        exact slots_of_same (fun _ => rfl) fun _ => rfl
      · exact (still_memprotect hm).slots
  | single hpc => exact hid rfl
  | start hpc hhost ha hop hm =>
      obtain ⟨y, dm, -, -, rfl⟩ := endinterval_ok hm
      exact slots_of_same (fun _ => rfl) fun _ => rfl
  | scan hpc hi hm =>
      have hs := scanHome_spec hm
      refine slots_of_same ?_ ?_
      · intro q
        rw [hs.page]
      · intro q
        rw [hs.page]
  | scanEnd hpc => exact hid rfl
  | acquire hpc => exact hid rfl
  | acquired hpc hwait hm =>
      obtain ⟨m₁, m₂, h₁, h₂, rfl⟩ := startinterval_ok hm
      exact hstart h₁ h₂ rfl
  | release hpc hwait hout hm =>
      obtain ⟨m₁, m₂, h₁, h₂, rfl⟩ := startinterval_ok hm
      exact hstart h₁ h₂ rfl
  | arrive hpc hwait hm =>
      obtain ⟨cs, -, -, rfl⟩ := arrive_ok hm
      exact hid rfl
  | barrsync hpc => exact hid rfl
  | leave hpc hm =>
      obtain ⟨m₁, m₂, h₁, h₂, rfl⟩ := leaveBarrier_ok hm
      exact hstart h₁ h₂ rfl
  | wait hpc => exact hid rfl
  | waited hpc => exact hid rfl
  | stay hpc => exact hid rfl

/-- The fault handler asks for pages of other hosts only. -/
theorem main_abroad {a : Act} (ht : h.m.Tables cfg pid) (hm : Main cfg pid h a h' out) :
    h'.Abroad cfg pid := by
  intro w' hw'
  cases hm with
  | load hpc => rw [hpc] at hw'; cases hw'
  | store hpc hp hprot => rw [show _ = Pc.app from hpc] at hw'; cases hw'
  | homeFault hpc hp hfault hhome hm => rw [show _ = Pc.app from hpc] at hw'; cases hw'
  | cacheFault hpc hp hfault hhome hm =>
      obtain ⟨hsh, -, -, hpage, -⟩ := cacheFault_ok ht.cache hp hm
      obtain rfl := Pc.fault.inj hw'
      rw [hpage]
      refine ⟨hp, ?_⟩
      rw [hsh.homepid]
      exact hhome
  | faultEnd hpc hwait hm => cases hw'
  | single hpc => rw [hpc] at hw'; cases hw'
  | start hpc hhost ha hop hm =>
      obtain ⟨y, dm, -, -, rfl⟩ := endinterval_ok hm
      cases hw'
  | scan hpc hi hm => cases hw'
  | scanEnd hpc => cases hw'
  | acquire hpc => cases hw'
  | acquired hpc hwait hm => cases hw'
  | release hpc hwait hout hm => cases hw'
  | arrive hpc hwait hm =>
      obtain ⟨cs, -, -, rfl⟩ := arrive_ok hm
      cases hw'
  | barrsync hpc => cases hw'
  | leave hpc hm =>
      obtain ⟨m₁, m₂, -, -, rfl⟩ := leaveBarrier_ok hm
      cases hw'
  | wait hpc => cases hw'
  | waited hpc => cases hw'
  | stay hpc => rw [hpc] at hw'; cases hw'

/-- Server threads put pages into the cache that come with an answer. -/
theorem served_apart (ht : h.m.Tables cfg pid) (hp : msg.Pages cfg) (hin : Routed cfg src pid msg)
    (ha : h.m.Apart cfg pid)
    (hxs : ∀ addr wv data xs, msg = .getpgrant addr wv data xs → ∀ x ∈ xs,
      (h.m.page (cfg.pagei x.addr)).homepid ≠ pid)
    (hs : Served cfg pid h src rnd msg h' out) : h'.m.Apart cfg pid := by
  have hsame : Slots cfg (fun _ => False) h.m h'.m → h'.m.Apart cfg pid :=
    fun hslots => hslots.apart ha fun _ _ hf => hf.elim
  cases hs with
  | diff hm => exact hsame (still_applyDiffs hm).slots
  | getp hm => exact hsame (getpserver_ok hm).flagged.slots
  | getpgrant hm =>
      refine (installs_getpgrant hm).1.apart ha ?_
      rintro q hq ⟨x, hx, rfl⟩
      exact hxs _ _ _ _ rfl x hx
  | acqgrant hm => exact apart_invalidate ha hp.1 hm
  | invld hm => exact apart_invalidate ha hp.1 hm
  | @barrgrant l scope ns _ hm =>
      obtain rfl : l = hidelock := hin
      obtain ⟨m, hinv, rfl⟩ := barrgrantserver_ok hm
      have hinvd := apart_invalidate ha hp.1 hinv
      by_cases hmig : cfg.hMig = true
      · have hns := notices_of_invalidate ht hp hinv
        obtain ⟨harr, -⟩ := migarrangehome_ok hns.tables.home
        simp only [hmig, if_true]
        exact (slots_of_same harr.homepid harr.cache.cachei).apart hinvd fun _ _ hf => hf
      · simp only [if_neg hmig]
        exact hinvd
  | _ => exact hsame (slots_of_same (fun _ => rfl) fun _ => rfl)

end Host

/-! ## Runs -/

/-- The page a message asks for. -/
def Msg.asks : Msg → Option Addr
  | .getp addr _ => some addr
  | _ => none

/-- Host `dst` adds no page to its answer to `src` whose home `src` is by its own
table. -/
def AddsNoHome (cfg : Config) (s : State) (src dst : Nat) (addr : Addr) : Prop :=
  ∀ q, Prefetches cfg dst (s.host dst).m (cfg.pagei addr) q → ((s.host src).m.page q).homepid ≠ src

/-- The condition on a step: the server that is about to answer a request adds no
home page of the requester. -/
def RequesterAway (cfg : Config) (s : State) : Event → Prop
  | .main _ _ => True
  | .deliver src dst _ => ∀ addr ∈ (s.net src dst).head?.bind Msg.asks, AddsNoHome cfg s src dst addr

/-- What holds while every step meets the condition. -/
structure Spared (cfg : Config) (s : State) : Prop where
  apart : ∀ h, (s.host h).m.Apart cfg h
  abroad : ∀ h, (s.host h).Abroad cfg h
  replies : ∀ {a h addr wv data xs}, Msg.getpgrant addr wv data xs ∈ s.net a h →
    ∀ x ∈ xs, ((s.host h).m.page (cfg.pagei x.addr)).homepid ≠ h

theorem spared_init : Spared cfg (initState cfg) where
  apart h p hp hpid := by
    change cfg.cachepages ≤ ((initmem cfg h).page p).cachei
    simp [initmem]
  abroad h w hw := by cases hw
  replies hm := by cases hm

section Steps

variable {s : State} {hst : Host} {out : Out}

theorem spared_main {i : Nat} {a : Act} (hok : Spared cfg s) (hall : AllPages cfg s)
    (hstack : StackOk (s.host i)) (hm : Main cfg i (s.host i) a hst out) :
    Spared cfg (s.put i hst out) := by
  have hslots := main_slots hm
  refine ⟨?_, ?_, ?_⟩
  · intro h
    by_cases hh : h = i
    · subst hh
      rw [State.put_host_same]
      exact hslots.apart (hok.apart h) fun _ _ hn => hn
    · rw [State.put_host_of_ne _ _ _ hh]
      exact hok.apart h
  · intro h
    by_cases hh : h = i
    · subst hh
      rw [State.put_host_same]
      exact main_abroad (hall.host h).tables hm
    · rw [State.put_host_of_ne _ _ _ hh]
      exact hok.abroad h
  · intro a h addr wv data xs hmem x hx
    have hold : Msg.getpgrant addr wv data xs ∈ s.net a h := by
      rw [State.put_net] at hmem
      rcases mem_send.mp hmem with hold | ⟨rfl, hnew⟩
      · exact hold
      · have hreq := (main_routed hstack hm hnew).1
        cases hreq
    have haway := hok.replies hold x hx
    by_cases hh : h = i
    · subst hh
      rw [State.put_host_same, hslots.homepid]
      exact haway
    · rwa [State.put_host_of_ne _ _ _ hh]

theorem spared_served {src dst : Nat} {rnd : List Nat} {msg : Msg} {rest : List Msg}
    (hok : Spared cfg s) (hreach : (system cfg).Reach s) (hnet : s.net src dst = msg :: rest)
    (hcond : RequesterAway cfg s (.deliver src dst rnd))
    (hs : Served cfg dst (s.host dst) src rnd msg hst out) :
    Spared cfg ({ s with net := drop s.net src dst }.put dst hst out) := by
  have hall := reach_pages hreach
  have hmsg : msg ∈ s.net src dst := by
    rw [hnet]
    exact List.mem_cons_self
  have hin := reach_routed hreach hmsg
  have htables := (hall.host dst).tables
  have hmem := served_mem htables (hall.net hmsg) hin hs
  obtain ⟨hpc', -, -⟩ := served_stack hs
  -- homes move inside barriers only, where a host waits for no page
  have hhome : (∀ q, (hst.m.page q).homepid = ((s.host dst).m.page q).homepid) ∨
      (s.host dst).pc = .barrwait := by
    by_cases hdown : Barrier.down msg = true
    · exact Or.inr ((reach_stackOk hreach dst).barrwait (reach_down_waiting hreach hnet hdown).2)
    · rw [Bool.not_eq_true] at hdown
      exact Or.inl (homeKept_served hmem hdown).homepid
  refine ⟨?_, ?_, ?_⟩
  · intro h
    by_cases hh : h = dst
    · subst hh
      rw [State.put_host_same]
      refine served_apart htables (hall.net hmsg) hin (hok.apart h) ?_ hs
      rintro addr wv data xs rfl
      exact hok.replies hmsg
    · rw [State.put_host_of_ne _ _ _ hh]
      exact hok.apart h
  · intro h
    by_cases hh : h = dst
    · subst hh
      rw [State.put_host_same]
      intro w hw
      rw [hpc'] at hw
      rcases hhome with hsame | hwaits
      · rw [hsame]
        exact hok.abroad h w hw
      · rw [hwaits] at hw
        cases hw
    · rw [State.put_host_of_ne _ _ _ hh]
      exact hok.abroad h
  · intro a h addr wv data xs hm x hx
    -- a reply that was on its way already
    have hold : Msg.getpgrant addr wv data xs ∈ drop s.net src dst a h →
        ((({ s with net := drop s.net src dst }.put dst hst out).host h).m.page
          (cfg.pagei x.addr)).homepid ≠ h := by
      intro hdrop
      have hin' : Msg.getpgrant addr wv data xs ∈ s.net a h := mem_of_mem_drop hdrop
      have haway := hok.replies hin' x hx
      by_cases hh : h = dst
      · subst hh
        rw [State.put_host_same]
        rcases hhome with hsame | hwaits
        · rwa [hsame]
        · obtain ⟨w, hw, -⟩ := (reach_fetching hreach h).reply hin'
          rw [hwaits] at hw
          cases hw
      · rwa [State.put_host_of_ne _ _ _ hh]
    rw [State.put_net] at hm
    rcases mem_send.mp hm with hdrop | ⟨rfl, hnew⟩
    · exact hold hdrop
    · -- only `getpserver` sends pages
      cases hmem with
      | still hstill hout => exact absurd rfl (hout _ hnew addr wv data xs)
      | install addr' wv' data' xs' hmsg' hout => rw [hout] at hnew; cases hnew
      | drop hre hwait hout => rw [hout] at hnew; cases hnew
      | invld ns hmsg' hout => rw [hout] at hnew; cases hnew
      | barrgrant scope ns hmsg' hout => rw [hout] at hnew; cases hnew
      | serve addr' temp hmsg' hserves =>
          subst hmsg'
          cases hs with
          | getp hget =>
              obtain ⟨wv', data', xs', rfl, hxs⟩ := getpserver_extras hget
              obtain ⟨rfl, hm'⟩ := Prod.mk.inj (List.mem_singleton.mp hnew)
              obtain ⟨-, -, -, rfl⟩ := Msg.getpgrant.inj hm'
              obtain ⟨q, hq, hidx, hpicked⟩ := hxs x hx
              have hlt : q < cfg.npages := by
                by_contra hge
                have hout := htables.home.outside q (not_lt.mp hge)
                omega
              rw [hq, cfg.pagei_pageAddr hlt]
              have haway := hcond addr' (by rw [hnet]; rfl) q hpicked
              by_cases hh : h = a
              · subst hh
                rw [State.put_host_same]
                have hsame := (getpserver_ok hget).flagged.homepid q
                rwa [hsame]
              · rwa [State.put_host_of_ne _ _ _ hh]

end Steps

theorem reach_spared {s : State} (hs : ((system cfg).restrict (RequesterAway cfg)).Reach s) :
    Spared cfg s := by
  refine hs.invariant (I := Spared cfg) spared_init ?_
  rintro s e s' hreach hok ⟨hcond, hnext⟩
  have hr := hreach.unrestrict
  rcases step_view hnext with ⟨i, a, hst, out, rfl, hi, hm, -, rfl⟩ |
    ⟨src, dst, rnd, msg, rest, hst, out, rfl, hnet, hm, -, rfl⟩
  · exact spared_main hok (reach_pages hr) (reach_stackOk hr i) hm
  · exact spared_served hok hr hnet hcond hm

/-- No page is a home page and in the cache of one host, and pages that arrive leave
the home pages of a host alone. -/
structure HomesSpared (cfg : Config) (s : State) : Prop where
  apart : ∀ h, ∀ p < cfg.npages, ((s.host h).m.page p).homepid = h →
    cfg.cachepages ≤ ((s.host h).m.page p).cachei
  extras : ∀ {a h addr wv data xs rest}, s.net a h = .getpgrant addr wv data xs :: rest →
    ∀ x ∈ xs, ((s.host h).m.page (cfg.pagei x.addr)).homepid ≠ h
  stores : ∀ {a h addr wv data xs rest rnd m}, s.net a h = .getpgrant addr wv data xs :: rest →
    (s.host h).m.getpgrantserver cfg addr wv data xs rnd = .ok m →
    ∀ p, ((s.host h).m.page p).homepid = h → m.mem p = (s.host h).m.mem p

/-- While no server adds a page to an answer that the requester has become the home
of, home pages are safe from prefetching. -/
theorem prefetch_spares_homes {s : State}
    (hs : ((system cfg).restrict (RequesterAway cfg)).Reach s) : HomesSpared cfg s := by
  have hok := reach_spared hs
  have hreach := hs.unrestrict
  refine ⟨hok.apart, ?_, ?_⟩
  · intro a h addr wv data xs rest hnet
    apply hok.replies (a := a)
    rw [hnet]
    exact List.mem_cons_self
  · intro a h addr wv data xs rest rnd m hnet hm p hpid
    have hmem : Msg.getpgrant addr wv data xs ∈ s.net a h := by
      rw [hnet]
      exact List.mem_cons_self
    refine (installs_getpgrant hm).2 p ?_ ?_
    · -- the requested page has another home
      rintro rfl
      obtain ⟨w, hpc, -, haddr⟩ := (reach_fetching hreach h).reply hmem
      obtain ⟨hlt, haway⟩ := hok.abroad h w hpc
      rw [haddr, cfg.pagei_pageAddr hlt] at hpid
      exact haway hpid
    · rintro x hx rfl
      exact hok.replies hmem x hx hpid

/-- The condition on a step where only the page after the requested one can be added,
as a test. -/
def nextPageAway (s : State) : Event → Bool
  | .main _ _ => true
  | .deliver src dst _ =>
      match (s.net src dst).head?.bind Msg.asks with
      | none => true
      | some addr => ((s.host src).m.page (Config.prefetchPair.pagei addr + 1)).homepid != src

theorem requesterAway_of_nextPageAway {s : State} {e : Event} (h : nextPageAway s e = true) :
    RequesterAway .prefetchPair s e := by
  cases e with
  | main i a => trivial
  | deliver src dst rnd =>
      intro addr hasks q hq
      have hnext : q = Config.prefetchPair.pagei addr + 1 := by
        have hle := hq.2.2.1
        have hlt := hq.2.1
        have hone : Config.prefetchPair.maxCheckingPages = 1 := rfl
        omega
      unfold nextPageAway at h
      simp only [Option.mem_def.mp hasks] at h
      rw [hnext]
      exact bne_iff_ne.mp h

/-- A step of a run in which the condition is tested. -/
def awayStep (s : State) (e : Event) : Result State := do
  await (nextPageAway s e = true)
  step .prefetchPair s e

theorem awayStep_next {s s' : State} {e : Event} (h : awayStep s e = .ok s') :
    ((system .prefetchPair).restrict (RequesterAway .prefetchPair)).next s e s' := by
  rw [awayStep, bind_eq_ok] at h
  obtain ⟨_, haway, hstep⟩ := h
  exact ⟨requesterAway_of_nextPageAway (await_eq_ok.mp haway), hstep⟩

/-- A run in which the condition holds: host 0 asks for a page of host 2, which sends
the next one along. -/
theorem prefetch_spares_homes_onePrefetch :
    ∃ s, ((system .prefetchPair).restrict (RequesterAway .prefetchPair)).Reach s ∧
      HomesSpared .prefetchPair s ∧ (s.host 0).m.Cached .prefetchPair 1 := by
  obtain ⟨s, hrun, hcached⟩ : ∃ s, System.execBy awayStep
      [.main 0 (.fault 0 false 0), .deliver 0 2 [], .deliver 2 0 [], .main 0 .go]
      (system .prefetchPair).start = .ok s ∧ (s.host 0).m.Cached .prefetchPair 1 :=
    ⟨_, rfl, by decide⟩
  have hs := System.Reach.start.execBy (fun _ _ _ => awayStep_next) hrun
  exact ⟨s, hs, prefetch_spares_homes hs, hcached⟩

/-! ## A store that is lost -/

/-- Host 0 writes a page of host 2 and becomes its home at a barrier.  Host 2 has not
heard of that yet when it sends the page along with another one. -/
def lostStore : List Event :=
  [.main 0 (.fault 1 true 0), .deliver 0 2 [], .deliver 2 0 [], .main 0 .go,
    .main 0 (.fault 1 true 0), .main 0 .go, .main 0 (.store 1 Config.unit0 7),
    .main 0 .barrier, .deliver 0 2 [], .deliver 2 0 [], .main 0 .go, .main 0 .go,
    .main 1 .barrier, .main 1 .go, .main 1 .go, .main 2 .barrier, .main 2 .go, .main 2 .go,
    .main 2 .go, .main 2 .go, .deliver 0 1 [], .deliver 1 1 [], .deliver 2 1 [],
    .deliver 1 0 [], .main 0 .go, .main 0 (.fault 1 true 0),
    .main 0 (.store 1 Config.unit0 8), .main 0 (.fault 0 false 0), .deliver 0 2 []]

/-- Host 0 has stored 8 in its page, and the answer of host 2 puts 7 there. -/
def storeLost (s : State) : Bool :=
  match step .prefetchPair s (.deliver 2 0 []) with
  | .ok s' => decide (((s.host 0).m.page 1).homepid = 0 ∧ (s.host 0).m.mem 1 Config.unit0 = 8 ∧
      ((s'.host 0).m.page 1).homepid = 0 ∧ (s'.host 0).m.mem 1 Config.unit0 = 7 ∧
      ((s'.host 0).m.page 1).cachei < 4)
  | .error _ => false

theorem lostStore_overwritten :
    ∃ s s', (system .prefetchPair).Reach s ∧ (system .prefetchPair).next s (.deliver 2 0 []) s' ∧
      ((s.host 0).m.page 1).homepid = 0 ∧ (s.host 0).m.mem 1 Config.unit0 = 8 ∧
      ((s'.host 0).m.page 1).homepid = 0 ∧ (s'.host 0).m.mem 1 Config.unit0 = 7 ∧
      ¬ HomesSpared .prefetchPair s' := by
  obtain ⟨s, hs, hcheck⟩ := System.exists_execBy (S := system .prefetchPair)
    (fun s e s' h => (h : step .prefetchPair s e = .ok s')) lostStore storeLost (by decide +kernel)
  unfold storeLost at hcheck
  split at hcheck
  · rename_i s' hstep
    obtain ⟨hhome, hstored, hhome', hlost, hslot⟩ := of_decide_eq_true hcheck
    refine ⟨s, s', hs, hstep, hhome, hstored, hhome', hlost, ?_⟩
    intro hspared
    exact absurd (hspared.apart 0 1 (by decide) hhome') (not_le.mpr hslot)
  · cases hcheck

end Jiajia
