import Jiajia.Fetch

/-!
# Page contents and the diff counter

Page contents change in four places: a store, a fresh mapping in the fault handler,
`diffserver` and `getpgrantserver`.  `diffwait` changes in `endinterval` and
`diffgrantserver`.
-/

namespace Jiajia

open Fifo Transition Host

variable {cfg : Config}

def Msg.isDiff : Msg → Bool
  | .diff _ => true
  | _ => false

/-- The answers of `diffserver` and `getpserver`. -/
def Msg.isAnswer : Msg → Bool
  | .diffgrant => true
  | .getpgrant _ _ _ _ => true
  | _ => false

namespace MemState

/-- The operation leaves page contents and the diff counter alone. -/
structure Inert (m m' : MemState) : Prop where
  mem : m'.mem = m.mem
  diffwait : m'.diffwait = m.diffwait

variable {pid : Nat} {m m' m'' : MemState}

theorem Inert.refl (m : MemState) : Inert m m := ⟨rfl, rfl⟩

theorem Inert.trans (h : Inert m m') (h' : Inert m' m'') : Inert m m'' :=
  ⟨h'.mem.trans h.mem, h'.diffwait.trans h.diffwait⟩

theorem inert_memprotect {p : Nat} {pr : Prot} (h : m.memprotect p pr = .ok m') : Inert m m' := by
  obtain ⟨-, rfl⟩ := memprotect_eq_ok.mp h
  exact ⟨rfl, rfl⟩

theorem inert_homeFault {p : Nat} (h : m.homeFault cfg p = .ok m') : Inert m m' := by
  simp only [homeFault, bind_eq_ok, defined_eq_ok, pure, Except.pure, Except.ok.injEq] at h
  obtain ⟨m₁, hprot, -, -, rfl⟩ := h
  exact (inert_memprotect hprot).trans ⟨rfl, rfl⟩

theorem inert_findposition {p seti s : Nat} (h : m.findposition cfg p seti = some (s, m')) :
    Inert m m' := by
  obtain ⟨-, -, m₁, rfl, hm₁⟩ := findposition_cases h
  rcases hm₁ with ⟨rfl, -⟩ | rfl
  · exact ⟨rfl, rfl⟩
  · exact ⟨rfl, rfl⟩

theorem inert_faultEnd {w : FaultWait} (h : m.faultEnd w = .ok m') : Inert m m' := by
  unfold faultEnd at h
  split at h
  · exact Except.ok.inj h ▸ ⟨rfl, rfl⟩
  · exact inert_memprotect h

/-! ## Intervals -/

theorem inert_vectorHome {i : Nat} (h : vectorHome cfg pid m i = .ok m') : Inert m m' := by
  unfold vectorHome at h
  simp only at h
  split at h
  · split at h
    · cases h
    · exact Except.ok.inj h ▸ ⟨rfl, rfl⟩
  · exact Except.ok.inj h ▸ Inert.refl m

theorem inert_scanHome {h h' : Host} {op : SynOp} {i : Nat}
    (hs : h.scanHome cfg pid op i = .ok h') : Inert h.m h'.m := by
  unfold scanHome at hs
  split at hs
  · simp only [bind_eq_ok, pure, Except.pure, Except.ok.injEq] at hs
    obtain ⟨m, hvec, rfl⟩ := hs
    refine Inert.trans ?_ (inert_vectorHome hvec)
    unfold saveHome
    split
    · split
      · exact ⟨rfl, rfl⟩
      · exact Inert.refl _
    · exact Inert.refl _
  · exact Except.ok.inj hs ▸ Inert.refl _

theorem inert_startCache (h : startCache cfg m = .ok m') : Inert m m' := by
  simp only [startCache, bind_eq_ok, pure, Except.pure, Except.ok.injEq] at h
  obtain ⟨-, -, rfl⟩ := h
  exact ⟨rfl, rfl⟩

theorem inert_twinHome (m : MemState) (i : Nat) : Inert m (twinHome cfg m i) := by
  unfold twinHome
  simp only
  split
  · exact ⟨rfl, rfl⟩
  · exact Inert.refl m

theorem inert_startHomeAdwd {i : Nat} (h : startHomeAdwd cfg m i = .ok m') : Inert m m' := by
  unfold startHomeAdwd at h
  simp only at h
  split at h
  · exact Except.ok.inj h ▸ Inert.refl m
  · cases h
  · cases h
  · split at h
    · simp only [bind_eq_ok, pure, Except.pure, Except.ok.injEq] at h
      obtain ⟨m₁, hprot, rfl⟩ := h
      refine ((inert_memprotect hprot).trans ?_).trans (inert_twinHome _ i)
      exact ⟨rfl, rfl⟩
    · exact Except.ok.inj h ▸ ⟨rfl, rfl⟩
  · split at h
    · exact Except.ok.inj h ▸ inert_twinHome m i
    · refine Inert.trans ?_ (inert_memprotect h)
      exact ⟨rfl, rfl⟩
  · refine Inert.trans ?_ (inert_memprotect h)
    exact ⟨rfl, rfl⟩
  · exact Except.ok.inj h ▸ ⟨rfl, rfl⟩

theorem inert_startHomesAdwd {is : List Nat} (h : startHomesAdwd cfg m is = .ok m') :
    Inert m m' := by
  induction is generalizing m with
  | nil =>
      simp only [startHomesAdwd, Except.ok.injEq] at h
      exact h ▸ Inert.refl m
  | cons i is ih =>
      simp only [startHomesAdwd, bind_eq_ok] at h
      obtain ⟨m₁, h₁, hrest⟩ := h
      exact (inert_startHomeAdwd h₁).trans (ih hrest)

theorem inert_startHomes {barr : Bool} (h : startHomes cfg barr m = .ok m') : Inert m m' := by
  unfold startHomes at h
  split at h
  · exact inert_startHomesAdwd h
  · simp only [startHome, bind_eq_ok, pure, Except.pure, Except.ok.injEq] at h
    obtain ⟨-, -, rfl⟩ := h
    exact ⟨rfl, rfl⟩

/-! ## Serving pages -/

theorem inert_copyPage {p : Nat} {pg : Page} (h : m.copyPage cfg pid p = .ok (m', pg)) :
    Inert m m' ∧ pg = m.mem p := by
  unfold copyPage at h
  split at h
  · simp only [pure, Except.pure, Except.ok.injEq, Prod.mk.injEq] at h
    obtain ⟨rfl, rfl⟩ := h
    exact ⟨Inert.refl m, rfl⟩
  · simp only [bind_eq_ok, pure, Except.pure, Except.ok.injEq, Prod.mk.injEq] at h
    obtain ⟨-, -, m₁, hf, rfl, rfl⟩ := h
    have hi := inert_homeFault hf
    exact ⟨hi, congrFun hi.mem p⟩

theorem inert_copyUnless {c : Prop} [Decidable c] {p : Nat} {pg : Page}
    (h : (if c then .ok (m, zeroPage) else m.copyPage cfg pid p) = .ok (m', pg)) :
    Inert m m' ∧ (¬ c → pg = m.mem p) := by
  by_cases hc : c
  · rw [if_pos hc, Except.ok.injEq, Prod.mk.injEq] at h
    exact ⟨h.1 ▸ Inert.refl m, fun hno => absurd hc hno⟩
  · rw [if_neg hc] at h
    exact ⟨(inert_copyPage h).1, fun _ => (inert_copyPage h).2⟩

theorem inert_renewTwin {homei : Nat} (h : m.renewTwin cfg pid homei = .ok m') : Inert m m' := by
  unfold renewTwin at h
  split at h
  · simp only [bind_eq_ok, Prod.exists, pure, Except.pure, Except.ok.injEq] at h
    obtain ⟨m₁, twin, hcopy, rfl⟩ := h
    have hi := (inert_copyPage hcopy).1
    exact ⟨hi.mem, hi.diffwait⟩
  · exact Except.ok.inj h ▸ Inert.refl m

theorem inert_copyPages {ps : List Nat} {xs : List ExtraPage}
    (h : m.copyPages cfg pid ps = .ok (m', xs)) : Inert m m' := by
  induction ps generalizing m xs with
  | nil =>
      simp only [copyPages, Except.ok.injEq, Prod.mk.injEq] at h
      exact h.1 ▸ Inert.refl m
  | cons p ps ih =>
      simp only [copyPages, bind_eq_ok, Prod.exists, pure, Except.pure, Except.ok.injEq,
        Prod.mk.injEq] at h
      obtain ⟨m₁, pg, hcopy, m₂, rest, hrest, rfl, rfl⟩ := h
      exact (inert_copyPage hcopy).1.trans (ih hrest)

theorem inert_prefetchLoop {k p num : Nat} {acc ps : List Nat}
    (h : prefetchLoop cfg pid k m p num acc = .ok (m', ps)) : Inert m m' := by
  induction k generalizing m p num acc with
  | zero =>
      simp only [prefetchLoop, Except.ok.injEq, Prod.mk.injEq] at h
      exact h.1 ▸ Inert.refl m
  | succ k ih =>
      simp only [prefetchLoop, bind_eq_ok, defined_eq_ok] at h
      obtain ⟨-, -, h⟩ := h
      split at h
      · simp only [bind_eq_ok, defined_eq_ok] at h
        obtain ⟨-, -, -, -, h⟩ := h
        have hset : Inert m (m.setHome (m.page p).homei
            { m.home (m.page p).homei with rdnt := true }) := ⟨rfl, rfl⟩
        split at h
        · simp only [pure, Except.pure, Except.ok.injEq, Prod.mk.injEq] at h
          exact h.1 ▸ hset
        · exact hset.trans (ih h)
      · exact ih h

theorem inert_prefetch {p : Nat} {ps : List Nat} (h : m.prefetch cfg pid p = .ok (m', ps)) :
    Inert m m' := by
  unfold prefetch at h
  split at h
  · exact inert_prefetchLoop h
  · simp only [Except.ok.injEq, Prod.mk.injEq] at h
    exact h.1 ▸ Inert.refl m

theorem inert_getpserver {src : Nat} {addr : Addr} {temp : Bool} {out : Out}
    (h : m.getpserver cfg pid src addr temp = .ok (m', out)) : Inert m m' := by
  obtain ⟨-, m₁, m₂, m₃, ps, pg, xs, wv, data, htwin, hpre, hcopy, hxs, -⟩ := getpserver_steps h
  have h₁ := inert_renewTwin htwin
  have hset : Inert m₁ (m₁.setHome (m.homepage cfg addr)
      { m₁.home (m.homepage cfg addr) with rdnt := true }) := ⟨rfl, rfl⟩
  have h₂ := hset.trans (inert_prefetch hpre)
  have h₃ : Inert m₂ m₃ := (inert_copyUnless hcopy).1
  exact ((h₁.trans h₂).trans h₃).trans (inert_copyPages hxs)

/-! ## Notices -/

theorem inert_invalidateCopy {n : GrantNotice} (h : invalidateCopy cfg pid m n = .ok m') :
    Inert m m' := by
  unfold invalidateCopy at h
  simp only at h
  split at h
  · refine Inert.trans ?_ (inert_memprotect h)
    exact ⟨rfl, rfl⟩
  · exact Except.ok.inj h ▸ Inert.refl m

theorem inert_migpage {addr : Addr} {homepid modifypid : Nat}
    (h : m.migpage cfg pid addr homepid modifypid = .ok m') : Inert m m' := by
  simp only [migpage, bind_eq_ok, pure, Except.pure, Except.ok.injEq] at h
  obtain ⟨m₁, hrole, rfl⟩ := h
  have hset : Inert m₁ (m₁.setPage (cfg.pagei addr)
      { m₁.page (cfg.pagei addr) with homepid := modifypid }) := ⟨rfl, rfl⟩
  refine Inert.trans ?_ hset
  unfold migRole at hrole
  split at hrole
  · simp only [migNewHome, bind_eq_ok, pure, Except.pure, Except.ok.injEq] at hrole
    obtain ⟨-, -, -, -, rfl⟩ := hrole
    split
    · exact ⟨rfl, rfl⟩
    · exact ⟨rfl, rfl⟩
  · split at hrole
    · simp only [migOldHome, bind_eq_ok, pure, Except.pure, Except.ok.injEq] at hrole
      obtain ⟨-, -, rfl⟩ := hrole
      split
      · split
        · split
          · exact ⟨rfl, rfl⟩
          · exact ⟨rfl, rfl⟩
        · exact ⟨rfl, rfl⟩
      · split
        · split
          · exact ⟨rfl, rfl⟩
          · exact ⟨rfl, rfl⟩
        · exact ⟨rfl, rfl⟩
    · exact Except.ok.inj hrole ▸ Inert.refl m

theorem inert_invalidateNotice {lock : Nat} {n : GrantNotice}
    (h : invalidateNotice cfg pid lock m n = .ok m') : Inert m m' := by
  simp only [invalidateNotice, bind_eq_ok] at h
  obtain ⟨m₁, hcopy, m₂, hmig, hmark⟩ := h
  have h₂ : Inert m₁ m₂ := by
    unfold migrateNotice at hmig
    split at hmig
    · exact inert_migpage hmig
    · exact Except.ok.inj hmig ▸ Inert.refl m₁
  have h₃ : Inert m₂ m' := by
    unfold markRemote at hmark
    split at hmark
    · simp only [bind_eq_ok, defined_eq_ok, pure, Except.pure, Except.ok.injEq] at hmark
      obtain ⟨-, -, rfl⟩ := hmark
      exact ⟨rfl, rfl⟩
    · exact Except.ok.inj hmark ▸ Inert.refl m₂
  exact ((inert_invalidateCopy hcopy).trans h₂).trans h₃

theorem inert_invalidate {lock : Nat} {ns : List GrantNotice}
    (h : invalidate cfg pid lock m ns = .ok m') : Inert m m' := by
  induction ns generalizing m with
  | nil =>
      simp only [invalidate, Except.ok.injEq] at h
      exact h ▸ Inert.refl m
  | cons n ns ih =>
      simp only [invalidate, bind_eq_ok] at h
      obtain ⟨m₁, h₁, hrest⟩ := h
      exact (inert_invalidateNotice h₁).trans (ih hrest)

theorem inert_arrangeLoop (k i : Nat) (m : MemState) :
    Inert m (arrangeLoop cfg k i m).1 := by
  induction k generalizing i m with
  | zero => exact Inert.refl m
  | succ k ih =>
      simp only [arrangeLoop]
      split
      · split
        · refine Inert.trans ?_ (ih _ _)
          exact ⟨rfl, rfl⟩
        · exact Inert.refl m
      · exact ih _ _

theorem inert_migarrangehome (m : MemState) : Inert m (m.migarrangehome cfg) :=
  (inert_arrangeLoop Homepages 0 m).trans ⟨rfl, rfl⟩

/-! ## The steps that change contents -/

theorem diffwait_applyDiffs {src : Nat} {ds : List PageDiff}
    (h : applyDiffs cfg src m ds = .ok m') : m'.diffwait = m.diffwait := by
  induction ds generalizing m with
  | nil =>
      simp only [applyDiffs, Except.ok.injEq] at h
      rw [h]
  | cons d ds ih =>
      simp only [applyDiffs, bind_eq_ok] at h
      obtain ⟨m₁, hd, hrest⟩ := h
      exact (ih hrest).trans (applyDiff_ok hd).diffwait

theorem diffwait_installExtras {xs : List ExtraPage} {rnd : List Nat}
    (h : installExtras cfg m xs rnd = .ok m') : m'.diffwait = m.diffwait := by
  induction xs generalizing m rnd with
  | nil =>
      simp only [installExtras, Except.ok.injEq] at h
      rw [h]
  | cons x xs ih =>
      simp only [installExtras, bind_eq_ok] at h
      obtain ⟨m₁, hone, hrest⟩ := h
      refine (ih hrest).trans ?_
      unfold installExtra at hone
      simp only at hone
      split at hone
      · exact Except.ok.inj hone ▸ rfl
      · split at hone
        · exact Except.ok.inj hone ▸ rfl
        · rename_i s m₂ hfind
          exact (inert_memprotect hone).diffwait.trans (inert_findposition hfind).diffwait

theorem diffwait_getpgrantserver {addr : Addr} {wv : BitVec Wvbits} {data : Page}
    {xs : List ExtraPage} {rnd : List Nat}
    (h : m.getpgrantserver cfg addr wv data xs rnd = .ok m') : m'.diffwait = m.diffwait := by
  simp only [getpgrantserver, bind_eq_ok, defined_eq_ok, pure, Except.pure, Except.ok.injEq] at h
  obtain ⟨-, -, m₁, hinst, rfl⟩ := h
  have hwait : m₁.diffwait = (m.setMem (cfg.pagei addr) (if cfg.wVec = true ∧ wv ≠ WVFULL then
      maskPage wv data (m.mem (cfg.pagei addr)) else data)).diffwait := diffwait_installExtras hinst
  exact hwait

/-- Without write vectors and prefetching a reply is one whole page. -/
theorem getpgrantserver_one {addr : Addr} {wv : BitVec Wvbits} {data : Page} {rnd : List Nat}
    (hvec : cfg.wVec = false) (h : m.getpgrantserver cfg addr wv data [] rnd = .ok m') :
    m' = { m.setMem (cfg.pagei addr) data with getpwait := false } := by
  simp only [getpgrantserver, installExtras, bind_eq_ok, defined_eq_ok, pure, Except.pure,
    Except.ok.injEq] at h
  obtain ⟨-, -, m₁, rfl, rfl⟩ := h
  rw [hvec, if_neg (by simp)]

/-- A fault on a page of another host maps a fresh page unless it has a slot. -/
theorem cacheFault_contents {p seti : Nat} {w : FaultWait} {out : Out}
    (h : m.cacheFault cfg p seti = .ok (m', w, out)) :
    m'.mem = (if (m.page p).cachei < cfg.cachepages then m.mem else upd m.mem p zeroPage) ∧
      m'.diffwait = m.diffwait := by
  obtain ⟨m₁, s, hslot, rfl, -⟩ := (cacheFault_eq_ok cfg m).mp h
  rcases faultSlot_cases cfg m hslot with ⟨hc, -, -, wait, rfl, -⟩ | ⟨hc, m₂, hpos, rfl, -⟩
  · rw [if_pos hc]
    exact ⟨rfl, rfl⟩
  · have hi := inert_findposition hpos
    rw [if_neg (by omega), ← hi.mem]
    exact ⟨rfl, hi.diffwait⟩

end MemState

namespace Host

variable {pid src : Nat} {rnd : List Nat} {h h' : Host} {out : Out}

/-- The page contents of host `pid` after an action. -/
def contentsAfter (cfg : Config) (pid : Nat) (m : MemState) : Act → Nat → Page
  | .store p u v => upd m.mem p fun u' => if u' = u then v else m.mem p u'
  | .fault p _ _ =>
      if (m.page p).homepid = pid ∨ (m.page p).cachei < cfg.cachepages then m.mem
      else upd m.mem p zeroPage
  | _ => m.mem

theorem isDiff_wtntMsgs {l d : Nat} {cs : List (List WtntEntry)} {last : List StackNotice → Msg}
    (hlast : ∀ ns, (last ns).isDiff = false) :
    ∀ y ∈ (wtntMsgs l last cs).map (fun msg => (d, msg)), y.2.isDiff = false := by
  intro y hy
  obtain ⟨msg, hmsg, rfl⟩ := List.mem_map.mp hy
  obtain ⟨c, -, rfl | rfl⟩ := mem_chunkMsgs hmsg
  · rfl
  · exact hlast _

theorem countP_isDiff_eq_zero (hout : ∀ y ∈ out, y.2.isDiff = false) :
    (out.countP fun y => y.2.isDiff) = 0 := by
  rw [List.countP_eq_zero]
  intro y hy
  simp [hout y hy]

theorem countP_senddiffs (dm : Nat → List PageDiff) :
    ((senddiffs cfg dm).countP fun y => y.2.isDiff) = (senddiffs cfg dm).length := by
  rw [List.countP_eq_length]
  intro y hy
  obtain ⟨k, -, -, rfl⟩ := mem_senddiffs.mp hy
  rfl

/-- What a step of the main thread does to the contents and the counter. -/
theorem main_contents {a : Act} (hm : Main cfg pid h a h' out) :
    h'.m.mem = contentsAfter cfg pid h.m a ∧
      h'.m.diffwait = h.m.diffwait + out.countP fun y => y.2.isDiff := by
  have hinert : MemState.Inert h.m h'.m → (∀ y ∈ out, y.2.isDiff = false) →
      contentsAfter cfg pid h.m a = h.m.mem → h'.m.mem = contentsAfter cfg pid h.m a ∧
        h'.m.diffwait = h.m.diffwait + out.countP fun y => y.2.isDiff := by
    intro hi hout ha
    rw [countP_isDiff_eq_zero hout, ha]
    exact ⟨hi.mem, hi.diffwait⟩
  have hstart : ∀ {m₁ m₂ : MemState} {barr : Bool}, startCache cfg h.m = .ok m₁ →
      startHomes cfg barr m₁ = .ok m₂ → MemState.Inert h.m m₂ :=
    fun h₁ h₂ => (MemState.inert_startCache h₁).trans (MemState.inert_startHomes h₂)
  cases hm with
  | load => exact hinert (.refl _) (by simp) rfl
  | store => exact ⟨rfl, rfl⟩
  | homeFault hpc hp hfault hhome hm =>
      exact hinert (MemState.inert_homeFault hm) (by simp) (if_pos (Or.inl hhome))
  | @cacheFault p seti write m w out hpc hp hfault hhome hm =>
      obtain ⟨hmem, hwait⟩ := MemState.cacheFault_contents hm
      have hquiet : ∀ y ∈ out, y.2.isDiff = false := by
        rcases cacheFault_out hm with rfl | ⟨temp, rfl⟩
        · simp
        · simp [Msg.isDiff]
      rw [countP_isDiff_eq_zero hquiet]
      refine ⟨?_, hwait⟩
      simp only [contentsAfter, hhome, false_or]
      exact hmem
  | faultEnd hpc hwait hm => exact hinert (MemState.inert_faultEnd hm) (by simp) rfl
  | single hpc hhost ha =>
      refine hinert (.refl _) (by simp) ?_
      cases a <;> first | rfl | simp [Act.starts] at ha
  | start hpc hhost ha hop hm =>
      obtain ⟨y, dm, -, rfl, rfl⟩ := endinterval_ok hm
      rw [countP_senddiffs]
      refine ⟨?_, rfl⟩
      cases a <;> first | rfl | cases ha
  | @scan op i n h₁ hpc hi hm =>
      have hscan : MemState.Inert h.m h₁.m := MemState.inert_scanHome hm
      exact hinert hscan (by simp) rfl
  | scanEnd => exact hinert (.refl _) (by simp) rfl
  | acquire => exact hinert (.refl _) (by simp [Msg.isDiff]) rfl
  | acquired hpc hwait hm =>
      obtain ⟨m₁, m₂, h₁, h₂, rfl⟩ := startinterval_ok hm
      exact hinert (hstart h₁ h₂) (by simp) rfl
  | release hpc hwait hout hm =>
      obtain ⟨m₁, m₂, h₁, h₂, rfl⟩ := startinterval_ok hm
      obtain ⟨cs, -, rfl⟩ := sendwtnts_ok hout
      exact hinert (hstart h₁ h₂) (isDiff_wtntMsgs fun _ => rfl) rfl
  | arrive hpc hwait hm =>
      obtain ⟨cs, -, rfl, rfl⟩ := arrive_ok hm
      exact hinert (.refl _) (isDiff_wtntMsgs fun _ => rfl) rfl
  | barrsync => exact hinert (.refl _) (by simp [Msg.isDiff]) rfl
  | leave hpc hm =>
      obtain ⟨m₁, m₂, h₁, h₂, rfl⟩ := leaveBarrier_ok hm
      exact hinert (hstart h₁ h₂) (by simp) rfl
  | wait => exact hinert (.refl _) (by simp [Msg.isDiff]) rfl
  | waited => exact hinert (.refl _) (by simp) rfl
  | stay => exact hinert (.refl _) (by simp) rfl

/-! ## Messages -/

theorem isAnswer_bcastserver {root level : Nat} {msg : Msg} (hb : msg.Broadcast) :
    ∀ y ∈ bcastserver cfg pid root level msg, y.2.isAnswer = false := by
  intro y hy
  have hy' : (y.1, y.2) ∈ bcastserver cfg pid root level msg := hy
  rw [mem_bcastserver hy']
  split
  · cases hb <;> rfl
  · rfl

theorem isAnswer_broadcast {msg : Msg} (hb : msg.Broadcast) :
    ∀ y ∈ broadcast cfg pid msg, y.2.isAnswer = false := by
  intro y hy
  unfold broadcast at hy
  split at hy
  · exact isAnswer_bcastserver hb y hy
  · obtain ⟨j, -, rfl⟩ := List.mem_map.mp hy
    cases hb <;> rfl

theorem isAnswer_grantFirst {l : Nat} (hg : h.grantFirst cfg l = .ok out) :
    ∀ y ∈ out, y.2.isAnswer = false := by
  intro y hy
  obtain ⟨cs, -, rfl⟩ := grantFirst_ok hg
  obtain ⟨msg, hmsg, rfl⟩ := List.mem_map.mp hy
  obtain ⟨c, -, rfl | rfl⟩ := mem_chunkMsgs hmsg <;> rfl

/-- What a message does to the contents and the counter of a host, and the answers
it calls for. -/
inductive ServedContents (cfg : Config) (pid src : Nat) (rnd : List Nat) (m : MemState) :
    Msg → MemState → Out → Prop
  | inert {msg : Msg} {m' : MemState} {out : Out} (hi : MemState.Inert m m')
      (hmsg : msg.isDiff = false) (hans : msg.isAnswer = false)
      (hgetp : ∀ addr temp, msg ≠ .getp addr temp) (hout : ∀ y ∈ out, y.2.isAnswer = false) :
      ServedContents cfg pid src rnd m msg m' out
  | diff {ds : List PageDiff} {m' : MemState} (hm : MemState.applyDiffs cfg src m ds = .ok m')
      (hwait : m'.diffwait = m.diffwait) :
      ServedContents cfg pid src rnd m (.diff ds) m' [(src, .diffgrant)]
  | diffgrant : ServedContents cfg pid src rnd m .diffgrant m.diffgrantserver []
  | getp {addr : Addr} {temp : Bool} {m' : MemState} {out : Out}
      (hm : m.getpserver cfg pid src addr temp = .ok (m', out)) (hi : MemState.Inert m m') :
      ServedContents cfg pid src rnd m (.getp addr temp) m' out
  | getpgrant {addr : Addr} {wv : BitVec Wvbits} {data : Page} {xs : List ExtraPage}
      {m' : MemState} (hm : m.getpgrantserver cfg addr wv data xs rnd = .ok m')
      (hwait : m'.diffwait = m.diffwait) :
      ServedContents cfg pid src rnd m (.getpgrant addr wv data xs) m' []

theorem served_contents {msg : Msg} (hin : Routed cfg src pid msg)
    (hs : Served cfg pid h src rnd msg h' out) :
    ServedContents cfg pid src rnd h.m msg h'.m out := by
  cases hs with
  | diff hm => exact .diff hm (MemState.diffwait_applyDiffs hm)
  | diffgrant => exact .diffgrant
  | getp hm => exact .getp hm (MemState.inert_getpserver hm)
  | getpgrant hm => exact .getpgrant hm (MemState.diffwait_getpgrantserver hm)
  | acqFirst hl hc hout => exact .inert (.refl _) rfl rfl (by simp) (isAnswer_grantFirst hout)
  | acqQueue hl hc => exact .inert (.refl _) rfl rfl (by simp) (by simp)
  | relNext hl hsrc hc hout =>
      exact .inert (.refl _) rfl rfl (by simp) (isAnswer_grantFirst hout)
  | relLast hl hsrc hc => exact .inert (.refl _) rfl rfl (by simp) (by simp)
  | acqgrant hm => exact .inert (MemState.inert_invalidate hm) rfl rfl (by simp) (by simp)
  | invld hm => exact .inert (MemState.inert_invalidate hm) rfl rfl (by simp) (by simp)
  | wtnt hl => exact .inert (.refl _) rfl rfl (by simp) (by simp)
  | barrCount hl hc => exact .inert (.refl _) rfl rfl (by simp) (by simp)
  | barrLast hl hc hout =>
      refine .inert (.refl _) rfl rfl (by simp) ?_
      intro y hy
      obtain ⟨cs, -, rfl⟩ := grantbarr_ok hout
      obtain ⟨msg, hmsg, hy⟩ := List.mem_flatMap.mp hy
      obtain ⟨c, -, rfl | rfl⟩ := mem_chunkMsgs hmsg
      · exact isAnswer_broadcast (.invld _) y hy
      · exact isAnswer_broadcast (.barrgrant _ _) y hy
  | barrgrant hm =>
      obtain ⟨m, hinv, rfl⟩ := barrgrantserver_ok hm
      refine .inert ?_ rfl rfl (by simp) (by simp)
      have hi := MemState.inert_invalidate hinv
      simp only
      split
      · exact hi.trans (MemState.inert_migarrangehome m)
      · exact hi
  | waitCount hc => exact .inert (.refl _) rfl rfl (by simp) (by simp)
  | waitLast hc => exact .inert (.refl _) rfl rfl (by simp) (isAnswer_broadcast .waitgrant)
  | waitgrant => exact .inert (.refl _) rfl rfl (by simp) (by simp)
  | bcast => exact .inert (.refl _) rfl rfl (by simp) (isAnswer_bcastserver hin)

end Host

end Jiajia
