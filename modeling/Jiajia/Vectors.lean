import Jiajia.HostRuns

/-!
# Write vectors

A vector starts full, `addwtvect` adds blocks to it and `setwtvect` fills it.
Nothing takes a block out again, so a home never sends less than the whole page.
-/

namespace Jiajia

open Transition Host

namespace MemState

variable {cfg : Config} {pid : Nat} {m m' : MemState}

/-- Every vector of the home table has all its blocks. -/
def FullVectors (cfg : Config) (m : MemState) : Prop :=
  ∀ i, ∀ k < cfg.hostc, (m.home i).wtvect k = WVFULL

theorem fullVectors_initmem (pid : Nat) : FullVectors cfg (initmem cfg pid) := fun _ _ _ => rfl

namespace FullVectors

theorem congr (hf : FullVectors cfg m) (h : ∀ i, (m'.home i).wtvect = (m.home i).wtvect) :
    FullVectors cfg m' := by
  intro i k hk
  rw [h]
  exact hf i k hk

theorem of_home (hf : FullVectors cfg m) (h : m'.home = m.home) : FullVectors cfg m' :=
  hf.congr fun i => by rw [h]

theorem setHome (hf : FullVectors cfg m) {i : Nat} {e : HomeEntry}
    (he : ∀ k < cfg.hostc, e.wtvect k = WVFULL) : FullVectors cfg (m.setHome i e) := by
  intro j k hk
  by_cases hj : j = i
  · rw [hj, setHome_home, upd_same]
    exact he k hk
  · rw [setHome_home, upd_of_ne _ _ hj]
    exact hf j k hk

/-! ## The vectors themselves -/

theorem addwtvect (hf : FullVectors cfg m) (homei : Nat) (wv : BitVec Wvbits) (src : Nat) :
    FullVectors cfg (m.addwtvect cfg homei wv src) := by
  apply hf.setHome
  intro k hk
  simp only [hf homei k hk]
  split
  · exact BitVec.allOnes_or
  · rfl

theorem setwtvect (hf : FullVectors cfg m) (homei : Nat) :
    FullVectors cfg (m.setwtvect cfg homei WVFULL) := by
  apply hf.setHome
  intro k hk
  simp only [if_pos hk]

/-! ## The main thread -/

theorem memprotect (hf : FullVectors cfg m) {p : Nat} {pr : Prot}
    (h : m.memprotect p pr = .ok m') : FullVectors cfg m' :=
  hf.of_home (by rw [(memprotect_eq_ok.mp h).2]; rfl)

theorem homeFault (hf : FullVectors cfg m) {p : Nat} (h : m.homeFault cfg p = .ok m') :
    FullVectors cfg m' := by
  simp only [MemState.homeFault, bind_eq_ok, pure, Except.pure, Except.ok.injEq] at h
  obtain ⟨m₁, hprot, -, -, rfl⟩ := h
  have h₁ := hf.memprotect hprot
  exact h₁.setHome fun k hk => h₁ _ k hk

theorem findposition (hf : FullVectors cfg m) {p seti s : Nat}
    (h : m.findposition cfg p seti = some (s, m')) : FullVectors cfg m' := by
  obtain ⟨-, -, m₁, rfl, hm₁⟩ := findposition_cases h
  cases hm₁ with
  | inl hsame => exact hf.of_home (by rw [hsame.1]; rfl)
  | inr hflush => exact hf.of_home (by rw [hflush]; rfl)

theorem cacheFault (hf : FullVectors cfg m) {p seti : Nat} {w : FaultWait} {out : Out}
    (h : m.cacheFault cfg p seti = .ok (m', w, out)) : FullVectors cfg m' := by
  obtain ⟨m₁, s, hslot, rfl, -⟩ := (cacheFault_eq_ok cfg m).mp h
  suffices h₁ : FullVectors cfg m₁ from h₁.of_home rfl
  rcases faultSlot_cases cfg m hslot with ⟨-, -, -, wait, rfl, -⟩ | ⟨-, m₂, hpos, rfl, -⟩
  · exact hf.of_home rfl
  · exact (hf.findposition hpos).of_home rfl

theorem faultEnd (hf : FullVectors cfg m) {w : FaultWait} (h : m.faultEnd w = .ok m') :
    FullVectors cfg m' := by
  unfold MemState.faultEnd at h
  split at h
  · simp only [pure, Except.pure, Except.ok.injEq] at h
    exact hf.of_home (by rw [← h]; rfl)
  · exact hf.memprotect h

theorem vectorHome (hf : FullVectors cfg m) {i : Nat} (h : Host.vectorHome cfg pid m i = .ok m') :
    FullVectors cfg m' := by
  unfold Host.vectorHome at h
  simp only at h
  split at h
  · split at h
    · cases h
    · exact Except.ok.inj h ▸ hf.addwtvect _ _ _
  · exact Except.ok.inj h ▸ hf

theorem scanHome {h h' : Host} (hf : FullVectors cfg h.m) {op : SynOp} {i : Nat}
    (hs : h.scanHome cfg pid op i = .ok h') : FullVectors cfg h'.m := by
  unfold Host.scanHome at hs
  split at hs
  · simp only [bind_eq_ok, pure, Except.pure, Except.ok.injEq] at hs
    obtain ⟨m, hvec, rfl⟩ := hs
    have hsave : FullVectors cfg (h.saveHome pid op i).m := by
      unfold saveHome
      split
      · simp only
        split
        · exact hf.setHome fun k hk => hf i k hk
        · exact hf
      · exact hf
    exact hsave.vectorHome hvec
  · exact Except.ok.inj hs ▸ hf

theorem twinHome (hf : FullVectors cfg m) (i : Nat) : FullVectors cfg (Host.twinHome cfg m i) := by
  unfold Host.twinHome
  simp only
  split
  · exact hf.setHome fun k hk => hf i k hk
  · exact hf

theorem setWtnt (hf : FullVectors cfg m) (i : Nat) (w : BitVec 8) :
    FullVectors cfg (m.setHome i { m.home i with wtnt := w }) :=
  hf.setHome fun k hk => hf i k hk

theorem startHomeAdwd (hf : FullVectors cfg m) {i : Nat}
    (h : Host.startHomeAdwd cfg m i = .ok m') : FullVectors cfg m' := by
  unfold Host.startHomeAdwd at h
  simp only at h
  split at h
  · exact Except.ok.inj h ▸ hf
  · cases h
  · cases h
  · split at h
    · simp only [bind_eq_ok, pure, Except.pure, Except.ok.injEq] at h
      obtain ⟨m₁, hprot, rfl⟩ := h
      apply twinHome
      have h₁ := hf.memprotect hprot
      exact h₁.setHome fun k hk => hf i k hk
    · exact Except.ok.inj h ▸ hf.setWtnt i _
  · split at h
    · exact Except.ok.inj h ▸ hf.twinHome i
    · exact (hf.setWtnt i _).memprotect h
  · exact (hf.setWtnt i _).memprotect h
  · exact Except.ok.inj h ▸ hf.setWtnt i _

theorem startHomes (hf : FullVectors cfg m) {barr : Bool}
    (h : Host.startHomes cfg barr m = .ok m') : FullVectors cfg m' := by
  unfold Host.startHomes at h
  split at h
  · generalize List.range m.hpages = is at h
    induction is generalizing m with
    | nil =>
        simp only [startHomesAdwd, Except.ok.injEq] at h
        exact h ▸ hf
    | cons i is ih =>
        simp only [startHomesAdwd, bind_eq_ok] at h
        obtain ⟨m₁, hone, h⟩ := h
        exact ih (hf.startHomeAdwd hone) h
  · simp only [startHome, bind_eq_ok, pure, Except.pure, Except.ok.injEq] at h
    obtain ⟨-, -, rfl⟩ := h
    apply hf.congr
    intro i
    simp only
    split <;> rfl

theorem startCache (hf : FullVectors cfg m) (h : Host.startCache cfg m = .ok m') :
    FullVectors cfg m' := by
  simp only [Host.startCache, bind_eq_ok, pure, Except.pure, Except.ok.injEq] at h
  obtain ⟨-, -, rfl⟩ := h
  exact hf.of_home rfl

theorem startinterval {h h' : Host} (hf : FullVectors cfg h.m) {barr : Bool}
    (hs : h.startinterval cfg barr = .ok h') : FullVectors cfg h'.m := by
  obtain ⟨m₁, m₂, hcache, hhomes, rfl⟩ := startinterval_ok hs
  exact (hf.startCache hcache).startHomes hhomes

/-! ## The servers -/

theorem applyDiffs (hf : FullVectors cfg m) {src : Nat} {ds : List PageDiff}
    (h : MemState.applyDiffs cfg src m ds = .ok m') : FullVectors cfg m' := by
  induction ds generalizing m with
  | nil =>
      simp only [MemState.applyDiffs, Except.ok.injEq] at h
      exact h ▸ hf
  | cons d ds ih =>
      simp only [MemState.applyDiffs, applyDiff, bind_eq_ok] at h
      obtain ⟨m₃, ⟨m₁, hopen, -, -, m₂, hnote, hclose⟩, h⟩ := h
      refine ih ?_ h
      have h₁ : FullVectors cfg m₁ := by
        refine hf.of_home ?_
        rw [openHome_ok hopen]
        split <;> rfl
      have h₂ : FullVectors cfg m₂ := by
        unfold noteBlocks at hnote
        split at hnote
        · simp only [bind_eq_ok, pure, Except.pure, Except.ok.injEq] at hnote
          obtain ⟨-, -, rfl⟩ := hnote
          exact (h₁.of_home rfl).addwtvect _ _ _
        · exact Except.ok.inj hnote ▸ h₁.of_home rfl
      refine h₂.of_home ?_
      rw [closeHome_ok hclose]
      split <;> rfl

theorem copyPage (hf : FullVectors cfg m) {p : Nat} {pg : Page}
    (h : m.copyPage cfg pid p = .ok (m', pg)) : FullVectors cfg m' := by
  unfold MemState.copyPage at h
  split at h
  · simp only [pure, Except.pure, Except.ok.injEq, Prod.mk.injEq] at h
    exact h.1 ▸ hf
  · simp only [bind_eq_ok, pure, Except.pure, Except.ok.injEq, Prod.mk.injEq] at h
    obtain ⟨-, -, m₁, hfault, rfl, -⟩ := h
    exact hf.homeFault hfault

theorem copyPages (hf : FullVectors cfg m) {ps : List Nat} {xs : List ExtraPage}
    (h : m.copyPages cfg pid ps = .ok (m', xs)) : FullVectors cfg m' := by
  induction ps generalizing m xs with
  | nil =>
      simp only [MemState.copyPages, Except.ok.injEq, Prod.mk.injEq] at h
      exact h.1 ▸ hf
  | cons p ps ih =>
      simp only [MemState.copyPages, bind_eq_ok, Prod.exists, pure, Except.pure, Except.ok.injEq,
        Prod.mk.injEq] at h
      obtain ⟨m₁, pg, hone, m₂, rest, hrest, rfl, -⟩ := h
      exact ih (hf.copyPage hone) hrest

theorem renewTwin (hf : FullVectors cfg m) {homei : Nat}
    (h : m.renewTwin cfg pid homei = .ok m') : FullVectors cfg m' := by
  unfold MemState.renewTwin at h
  split at h
  · simp only [bind_eq_ok, Prod.exists, pure, Except.pure, Except.ok.injEq] at h
    obtain ⟨m₁, twin, hcopy, rfl⟩ := h
    have hstart : FullVectors cfg (m.setHome homei { m.home homei with wvfull := false }) :=
      hf.setHome fun k hk => hf _ k hk
    have hend := hstart.copyPage hcopy
    exact hend.setHome fun k hk => hend _ k hk
  · exact Except.ok.inj h ▸ hf

theorem prefetchLoop (hf : FullVectors cfg m) {k p num : Nat} {acc ps : List Nat}
    (h : MemState.prefetchLoop cfg pid k m p num acc = .ok (m', ps)) : FullVectors cfg m' := by
  induction k generalizing m p num acc with
  | zero =>
      simp only [MemState.prefetchLoop, Except.ok.injEq, Prod.mk.injEq] at h
      exact h.1 ▸ hf
  | succ k ih =>
      simp only [MemState.prefetchLoop, bind_eq_ok] at h
      obtain ⟨-, -, h⟩ := h
      have hset : FullVectors cfg
          (m.setHome (m.page p).homei { m.home (m.page p).homei with rdnt := true }) :=
        hf.setHome fun k hk => hf _ k hk
      split at h
      · simp only [bind_eq_ok] at h
        obtain ⟨-, -, -, -, h⟩ := h
        split at h
        · simp only [pure, Except.pure, Except.ok.injEq, Prod.mk.injEq] at h
          exact h.1 ▸ hset
        · exact ih hset h
      · exact ih hf h

theorem prefetch (hf : FullVectors cfg m) {p : Nat} {ps : List Nat}
    (h : m.prefetch cfg pid p = .ok (m', ps)) : FullVectors cfg m' := by
  unfold MemState.prefetch at h
  split at h
  · exact hf.prefetchLoop h
  · simp only [Except.ok.injEq, Prod.mk.injEq] at h
    exact h.1 ▸ hf

theorem getpserver (hf : FullVectors cfg m) {src : Nat} {addr : Addr} {temp : Bool} {out : Out}
    (h : m.getpserver cfg pid src addr temp = .ok (m', out)) : FullVectors cfg m' := by
  obtain ⟨-, m₁, m₂, m₃, ps, pg, xs, wv, data, hrenew, hpre, hcopy, hrest, -⟩ := getpserver_steps h
  have h₁ := hf.renewTwin hrenew
  have hset : FullVectors cfg (m₁.setHome (m.homepage cfg addr)
      { m₁.home (m.homepage cfg addr) with rdnt := true }) := h₁.setHome fun k hk => h₁ _ k hk
  have h₂ := hset.prefetch hpre
  have h₃ : FullVectors cfg m₃ := by
    split at hcopy
    · rw [Except.ok.injEq, Prod.mk.injEq] at hcopy
      exact hcopy.1 ▸ h₂
    · exact h₂.copyPage hcopy
  exact h₃.copyPages hrest

theorem installExtra (hf : FullVectors cfg m) {x : ExtraPage} {seti : Nat}
    (h : m.installExtra cfg x seti = .ok m') : FullVectors cfg m' := by
  unfold MemState.installExtra at h
  simp only at h
  split at h
  · exact Except.ok.inj h ▸ hf
  · split at h
    · exact Except.ok.inj h ▸ hf
    · rename_i hpos
      obtain ⟨-, rfl⟩ := memprotect_eq_ok.mp h
      exact (hf.findposition hpos).of_home rfl

theorem getpgrantserver (hf : FullVectors cfg m) {addr : Addr} {wv : BitVec Wvbits} {data : Page}
    {xs : List ExtraPage} {rnd : List Nat}
    (h : m.getpgrantserver cfg addr wv data xs rnd = .ok m') : FullVectors cfg m' := by
  simp only [MemState.getpgrantserver, bind_eq_ok, pure, Except.pure, Except.ok.injEq] at h
  obtain ⟨-, -, m₁, hinst, rfl⟩ := h
  suffices h₁ : FullVectors cfg m₁ from h₁.of_home rfl
  have h₀ : FullVectors cfg (m.setMem (cfg.pagei addr) (if cfg.wVec = true ∧ wv ≠ WVFULL then
      maskPage wv data (m.mem (cfg.pagei addr)) else data)) := hf.of_home rfl
  revert h₀ hinst
  generalize m.setMem (cfg.pagei addr) _ = m₀
  intro hinst h₀
  induction xs generalizing m₀ rnd with
  | nil =>
      simp only [installExtras, Except.ok.injEq] at hinst
      exact hinst ▸ h₀
  | cons x xs ih =>
      simp only [installExtras, bind_eq_ok] at hinst
      obtain ⟨m₂, hone, hinst⟩ := hinst
      exact ih _ hinst (h₀.installExtra hone)

/-! ## Notices and migration -/

theorem migNewHome (hf : FullVectors cfg m) {addr : Addr}
    (h : m.migNewHome cfg addr = .ok m') : FullVectors cfg m' := by
  simp only [MemState.migNewHome, bind_eq_ok, pure, Except.pure, Except.ok.injEq] at h
  obtain ⟨-, -, -, -, rfl⟩ := h
  intro i k hk
  rw [setCache_home, setPage_home]
  generalize firstIdx (fun i => (m.home i).addr == 0) Homepages 0 = homei
  by_cases hv : cfg.wVec = true
  · by_cases hi : i = homei
    · simp [hv, hi, hk, MemState.setwtvect]
    · simp [hv, hi, hf i k hk, MemState.setwtvect]
  · by_cases hi : i = homei
    · simp [hv, hi, hf homei k hk]
    · simp [hv, hi, hf i k hk]

theorem demote (hf : FullVectors cfg m) (addr : Addr) :
    FullVectors cfg (MemState.demote cfg m addr) := by
  refine hf.of_home ?_
  unfold MemState.demote
  simp only
  split
  · split <;> rfl
  · rfl

theorem migOldHome (hf : FullVectors cfg m) {addr : Addr}
    (h : m.migOldHome cfg addr = .ok m') : FullVectors cfg m' := by
  rw [migOldHome_eq] at h
  simp only [bind_eq_ok, pure, Except.pure, Except.ok.injEq] at h
  obtain ⟨-, -, rfl⟩ := h
  have hd := hf.demote addr
  have hretire : FullVectors cfg ((MemState.demote cfg m addr).retire (cfg.pagei addr)
      (m.page (cfg.pagei addr)).homei) := by
    unfold retire
    exact setHome (hd.of_home rfl) fun k hk => hd _ k hk
  split
  · exact hretire.setwtvect _
  · exact hretire

theorem migpage (hf : FullVectors cfg m) {addr : Addr} {homepid modifypid : Nat}
    (h : m.migpage cfg pid addr homepid modifypid = .ok m') : FullVectors cfg m' := by
  simp only [MemState.migpage, bind_eq_ok, pure, Except.pure, Except.ok.injEq] at h
  obtain ⟨m₁, hrole, rfl⟩ := h
  suffices h₁ : FullVectors cfg m₁ from h₁.of_home rfl
  unfold migRole at hrole
  split at hrole
  · exact hf.migNewHome hrole
  · split at hrole
    · exact hf.migOldHome hrole
    · exact Except.ok.inj hrole ▸ hf

theorem invalidate (hf : FullVectors cfg m) {lock : Nat} {ns : List GrantNotice}
    (h : Host.invalidate cfg pid lock m ns = .ok m') : FullVectors cfg m' := by
  induction ns generalizing m with
  | nil =>
      simp only [Host.invalidate, Except.ok.injEq] at h
      exact h ▸ hf
  | cons n ns ih =>
      simp only [Host.invalidate, Host.invalidateNotice, bind_eq_ok] at h
      obtain ⟨m₃, ⟨m₁, hcopy, m₂, hmig, hmark⟩, h⟩ := h
      refine ih ?_ h
      have h₁ : FullVectors cfg m₁ := by
        unfold Host.invalidateCopy at hcopy
        simp only at hcopy
        split at hcopy
        · obtain ⟨-, rfl⟩ := memprotect_eq_ok.mp hcopy
          exact hf.of_home rfl
        · exact Except.ok.inj hcopy ▸ hf
      have h₂ : FullVectors cfg m₂ := by
        unfold Host.migrateNotice at hmig
        split at hmig
        · exact h₁.migpage hmig
        · exact Except.ok.inj hmig ▸ h₁
      unfold Host.markRemote at hmark
      split at hmark
      · simp only [bind_eq_ok, pure, Except.pure, Except.ok.injEq] at hmark
        obtain ⟨-, -, rfl⟩ := hmark
        exact h₂.setWtnt _ _
      · exact Except.ok.inj hmark ▸ h₂

theorem moveHome (hf : FullVectors cfg m) (i homei : Nat) :
    FullVectors cfg (m.moveHome cfg i homei) := by
  unfold MemState.moveHome
  apply setHome
  · apply setHome
    · exact hf.of_home rfl
    · intro k hk
      simp only
      split
      · exact hf homei k hk
      · exact hf i k hk
  · intro k hk
    simp only
    split
    · exact hf i k hk
    · exact hf homei k hk

theorem migarrangehome (hf : FullVectors cfg m) : FullVectors cfg (m.migarrangehome cfg) := by
  suffices h : FullVectors cfg (arrangeLoop cfg Homepages 0 m).1 from h.of_home rfl
  revert hf
  refine arrangeLoop_induct (Q := fun _ m r => FullVectors cfg m → FullVectors cfg r.1)
    ?_ ?_ ?_ ?_ (by rfl)
  · intro m hf
    exact hf
  · intro i j m r _ _ _ _ ih hf
    exact ih (hf.moveHome i j)
  · intro i m _ _ hf
    exact hf
  · intro i m r _ _ ih hf
    exact ih hf

end FullVectors

end MemState

open MemState

variable {cfg : Config} {pid : Nat} {h h' : Host} {out : Out}

/-! ## Runs of a home -/

theorem main_fullVectors {a : Act} (hf : FullVectors cfg h.m) (hm : Main cfg pid h a h' out) :
    FullVectors cfg h'.m := by
  cases hm with
  | load => exact hf
  | store => exact hf.of_home rfl
  | homeFault hpc hp hfault hhome hm => exact hf.homeFault hm
  | cacheFault hpc hp hfault hhome hm => exact hf.cacheFault hm
  | faultEnd hpc hwait hm => exact hf.faultEnd hm
  | single => exact hf
  | start hpc hhost ha hop hm =>
      obtain ⟨y, dm, -, -, rfl⟩ := endinterval_ok hm
      exact hf.of_home rfl
  | scan hpc hi hm =>
      have hscan := hf.scanHome hm
      exact hscan
  | scanEnd => exact hf
  | acquire => exact hf
  | acquired hpc hwait hm =>
      have hstart := hf.startinterval hm
      exact hstart
  | release hpc hwait hout hm =>
      have hstart := hf.startinterval hm
      exact hstart
  | arrive hpc hwait hm =>
      obtain ⟨cs, -, -, rfl⟩ := arrive_ok hm
      exact hf
  | barrsync => exact hf
  | leave hpc hm =>
      obtain ⟨m₁, m₂, hcache, hhomes, rfl⟩ := leaveBarrier_ok hm
      exact (hf.startCache hcache).startHomes hhomes
  | wait => exact hf
  | waited => exact hf
  | stay => exact hf

theorem served_fullVectors {src : Nat} {rnd : List Nat} {msg : Msg} (hf : FullVectors cfg h.m)
    (hs : Served cfg pid h src rnd msg h' out) : FullVectors cfg h'.m := by
  cases hs with
  | diff hm => exact hf.applyDiffs hm
  | diffgrant => exact hf.of_home rfl
  | getp hm => exact hf.getpserver hm
  | getpgrant hm => exact hf.getpgrantserver hm
  | acqgrant hm => exact hf.invalidate hm
  | invld hm => exact hf.invalidate hm
  | barrgrant hm =>
      obtain ⟨m, hinv, rfl⟩ := barrgrantserver_ok hm
      have hm := hf.invalidate hinv
      simp only
      split
      · exact hm.migarrangehome
      · exact hm
  | _ => exact hf

theorem step_fullVectors {e : HostEvent} (hf : FullVectors cfg h.m)
    (hs : hostStep cfg pid h e = .ok (h', out)) : FullVectors cfg h'.m := by
  cases hostStep_view hs with
  | inl hmain =>
      obtain ⟨b, a, -, hm⟩ := hmain
      have hf' : FullVectors (cfg.withAdWd b) h'.m := main_fullVectors hf hm
      exact hf'
  | inr hserved =>
      obtain ⟨b, src, rnd, msg, -, hm⟩ := hserved
      have hf' : FullVectors (cfg.withAdWd b) h'.m := served_fullVectors hf hm
      exact hf'

/-- In every run all vectors of a home are full. -/
theorem reach_fullVectors (hs : (hostSystem cfg pid).Reach h) : FullVectors cfg h.m := by
  apply hs.invariant (I := fun h => FullVectors cfg h.m)
  · exact fullVectors_initmem pid
  · intro h e h' _ hf hnext
    obtain ⟨-, out, hstep⟩ := hnext
    exact step_fullVectors hf hstep

/-! ## What a vector should record -/

/-- Some unit of block `b` of page `p` changes. -/
def Changed (m m' : MemState) (p b : Nat) : Prop :=
  ∃ u : Fin Pageunits, u.val / Blockunits = b ∧ m.mem p u ≠ m'.mem p u

/-- The host whose write the event makes at the home. -/
def HostEvent.writer (pid : Nat) : HostEvent → Nat
  | .main _ _ => pid
  | .serve _ src _ _ => src

/-- The page and the host of a request for a page. -/
def HostEvent.request (cfg : Config) : HostEvent → Option (Nat × Nat)
  | .serve _ src _ (.getp addr _) => some (cfg.pagei addr, src)
  | _ => none

/-- `since p i` are the blocks of page `p` that others have changed since the last answer
to host `i`, `asked` tells whether a host has been answered, and `kept` whether the vectors
have recorded the changes up to now. -/
structure ChangeLog where
  since : Nat → Nat → Option (Nat → Prop)
  asked : Prop
  kept : Prop

def sinceAnswer (cfg : Config) (pid : Nat) (since : Nat → Nat → Option (Nat → Prop)) (m : MemState)
    (e : HostEvent) (m' : MemState) (p i : Nat) : Option (Nat → Prop) :=
  if e.request cfg = some (p, i) then some fun _ => False
  else (since p i).map fun blocks b => blocks b ∨ (e.writer pid ≠ i ∧ Changed m m' p b)

/-- After an answer the vector of a host has a block only if another host has changed it,
and every block that another host has changed; a write of the home itself is recorded at
the end of its interval. -/
def RecordsChanges (cfg : Config) (m : MemState) (since : Nat → Nat → Option (Nat → Prop)) : Prop :=
  ∀ p i blocks, i < cfg.hostc → since p i = some blocks → ∀ b < Wvbits,
    (((m.home (m.page p).homei).wtvect i).getLsbD b = true → blocks b) ∧
      (blocks b → ((m.home (m.page p).homei).wtvect i).getLsbD b = true ∨
        (m.home (m.page p).homei).wtnt &&& 1 = 1)

def changeHistory (cfg : Config) (pid : Nat) : System.Observer Host HostEvent ChangeLog where
  start := ⟨fun _ _ => none, False, True⟩
  obs log h e h' :=
    { since := sinceAnswer cfg pid log.since h.m e h'.m
      asked := log.asked ∨ ∃ p, ∃ i < cfg.hostc, e.request cfg = some (p, i)
      kept := log.kept ∧ RecordsChanges cfg h'.m (sinceAnswer cfg pid log.since h.m e h'.m) }

theorem not_recordsChanges {m m' : MemState} {since : Nat → Nat → Option (Nat → Prop)}
    {e : HostEvent} {p i : Nat} (hf : FullVectors cfg m') (hi : i < cfg.hostc)
    (he : e.request cfg = some (p, i)) :
    ¬ RecordsChanges cfg m' (sinceAnswer cfg pid since m e m') := by
  intro hrec
  have hsince : sinceAnswer cfg pid since m e m' p i = some fun _ => False := if_pos he
  have hbit := (hrec p i _ hi hsince 0 (by decide)).1
  rw [hf _ i hi] at hbit
  exact hbit rfl

theorem recordsChanges_of_none {m : MemState} {since : Nat → Nat → Option (Nat → Prop)}
    (hnone : ∀ p, ∀ i < cfg.hostc, since p i = none) : RecordsChanges cfg m since := by
  intro p i blocks hi hsome
  rw [hnone p i hi] at hsome
  cases hsome

theorem sinceAnswer_none {m m' : MemState} {since : Nat → Nat → Option (Nat → Prop)}
    {e : HostEvent} (hnone : ∀ p, ∀ i < cfg.hostc, since p i = none)
    (he : ¬ ∃ p, ∃ i < cfg.hostc, e.request cfg = some (p, i)) :
    ∀ p, ∀ i < cfg.hostc, sinceAnswer cfg pid since m e m' p i = none := by
  intro p i hi
  have hreq : e.request cfg ≠ some (p, i) := fun heq => he ⟨p, i, hi, heq⟩
  rw [sinceAnswer, if_neg hreq, hnone p i hi, Option.map_none]

/-- The vectors record what changed in the runs that answer no request, and in no others:
with the first answer they are wrong. -/
theorem vectors_record_iff {x : Host × ChangeLog}
    (hx : ((hostSystem cfg pid).withHist (changeHistory cfg pid)).Reach x) :
    x.2.kept ↔ ¬ x.2.asked := by
  have hinv : (x.2.kept ↔ ¬ x.2.asked) ∧
      (¬ x.2.asked → ∀ p, ∀ i < cfg.hostc, x.2.since p i = none) := by
    induction hx with
    | start => exact ⟨by simp [System.withHist, changeHistory], fun _ _ _ _ => rfl⟩
    | @step x x' e hreach hnext ih =>
        obtain ⟨⟨-, out, hstep⟩, hlog⟩ := hnext
        have hf' := step_fullVectors (reach_fullVectors hreach.forget) hstep
        rw [hlog]
        show ((x.2.kept ∧ RecordsChanges cfg x'.1.m _) ↔ ¬ (x.2.asked ∨ _)) ∧ _
        by_cases he : ∃ p, ∃ i < cfg.hostc, e.request cfg = some (p, i)
        · obtain ⟨p, i, hi, hreq⟩ := he
          constructor
          · constructor
            · exact fun hk => absurd hk.2 (not_recordsChanges hf' hi hreq)
            · exact fun hno => absurd (.inr ⟨p, i, hi, hreq⟩) hno
          · exact fun hno => absurd (.inr ⟨p, i, hi, hreq⟩) hno
        · have hasked : (x.2.asked ∨ ∃ p, ∃ i < cfg.hostc, e.request cfg = some (p, i)) ↔
              x.2.asked := or_iff_left he
          rw [hasked]
          constructor
          · constructor
            · exact fun hk => ih.1.mp hk.1
            · intro hno
              exact ⟨ih.1.mpr hno, recordsChanges_of_none (sinceAnswer_none (ih.2 hno) he)⟩
          · intro hno
            exact sinceAnswer_none (ih.2 (fun ha => hno (.inl ha))) he
  exact hinv.1

/-! ## A run -/

/-- Two hosts with write vectors; host 0 is the home of the only page. -/
def onePageVectors : Config := { Config.onePage with wVec := true }

/-- Host 1 asks host 0 for the page. -/
def askPage : HostEvent := .serve false 1 [] (.getp (onePageVectors.pageAddr 0) false)

theorem comes_askPage (h : Host) : Comes onePageVectors 0 h askPage where
  pages := ⟨0, by decide, rfl⟩
  routed := trivial
  barrier hdown := by cases hdown
  clean := .inr fun n hn => by cases hn

theorem request_askPage : askPage.request onePageVectors = some (0, 1) := rfl

theorem askPage_answered :
    (hostStep onePageVectors 0 (initHost onePageVectors 0) askPage).isOk = true := by decide

theorem reach_asked : ∃ x,
    ((hostSystem onePageVectors 0).withHist (changeHistory onePageVectors 0)).Reach x ∧
      x.2.asked := by
  have hok := askPage_answered
  cases hs : hostStep onePageVectors 0 (initHost onePageVectors 0) askPage with
  | error r =>
      rw [hs] at hok
      cases hok
  | ok r =>
      have hstart : ((hostSystem onePageVectors 0).withHist
          (changeHistory onePageVectors 0)).Reach _ := .start
      exact ⟨_, hstart.hist ⟨comes_askPage _, r.2, hs⟩, .inr ⟨0, 1, by decide, request_askPage⟩⟩

theorem vectors_record_asked : ∃ x,
    ((hostSystem onePageVectors 0).withHist (changeHistory onePageVectors 0)).Reach x ∧
      x.2.asked ∧ (x.2.kept ↔ ¬ x.2.asked) := by
  obtain ⟨x, hx, hasked⟩ := reach_asked
  exact ⟨x, hx, hasked, vectors_record_iff hx⟩

/-- After its first answer the home still has all blocks in the vector of the host. -/
theorem vector_stays_full : ¬ ∀ x,
    ((hostSystem onePageVectors 0).withHist (changeHistory onePageVectors 0)).Reach x →
      x.2.kept := by
  intro hall
  have hok := askPage_answered
  cases hs : hostStep onePageVectors 0 (initHost onePageVectors 0) askPage with
  | error r =>
      rw [hs] at hok
      cases hok
  | ok r =>
      have hstart : ((hostSystem onePageVectors 0).withHist
          (changeHistory onePageVectors 0)).Reach _ := .start
      have hkept := hall _ (hstart.hist ⟨comes_askPage _, r.2, hs⟩)
      have hf := step_fullVectors (fullVectors_initmem 0) hs
      exact not_recordsChanges hf (by decide) request_askPage hkept.2

end Jiajia
