import Jiajia.WriteBits
import Jiajia.Lib.Transition

/-!
# A home page while diffs are applied

The main thread stores to a home page, is sent through the fault handler and goes through
`endinterval` and `startinterval`; beside it the server thread applies diffs to the page.
Every look at bit 0 of `wtnt` and every change of it or of the protection is a step of its
own.
-/

namespace Jiajia.OpenWindow

open Transition

/-- Where the main thread is. -/
inductive Main
  | app
  /-- A store has faulted; `sigsegv_handler` is about to grant write right. -/
  | faulted
  /-- The handler is about to set `wtnt`. -/
  | granted
  /-- `endinterval` has looked at the bit. -/
  | ended
  /-- `startinterval` is about to take write right away. -/
  | clearing
  /-- `startinterval` is about to set `wtnt` again. -/
  | arming
deriving DecidableEq

/-- Where the server thread is. -/
inductive Server
  | idle
  /-- `diffserver` is about to open the page. -/
  | opening
  | copying
  /-- A copy has faulted; the handler of the server thread is about to grant write right. -/
  | faulted
  | granted
  /-- `diffserver` is about to close the page. -/
  | closing
deriving DecidableEq

structure PageState where
  prot : Prot
  wtnt : BitVec 8
  main : Main
  server : Server
deriving DecidableEq

/-- A home page that nobody has written. -/
def initPage : PageState := ⟨.read, 0, .app, .idle⟩

inductive PageEvent
  /-- The application tries a store. -/
  | store
  /-- The main thread goes on inside the handler or `startinterval`. -/
  | main
  /-- `endinterval` looks at the bit. -/
  | look
  /-- `startinterval` starts; `adaptive` at a barrier with write detection. -/
  | start (adaptive : Bool)
  /-- The server thread begins with a diff, or goes on. -/
  | serve
  /-- The server thread copies some bytes. -/
  | copy
deriving DecidableEq

def bit0 (s : PageState) : Bool := s.wtnt &&& 1 = 1

/-- One turn of the loop of `startinterval`, up to its first change. -/
def startinterval (adaptive : Bool) (s : PageState) : Result PageState :=
  if adaptive then
    match (s.wtnt &&& 7).toNat with
    | 0 => .ok { s with main := .app }
    | 2 =>
        let swcnt := (s.wtnt >>> 4 &&& 0xf) + 1
        if SWvalve ≤ swcnt.toNat then .ok { s with prot := .readWrite, main := .arming }
        else .ok { s with wtnt := swcnt <<< 4 &&& 0xf0, main := .app }
    | 3 =>
        let swcnt := (s.wtnt >>> 4 &&& 0xf) + 1
        if SWvalve ≤ swcnt.toNat then .ok { s with main := .app }
        else .ok { s with wtnt := swcnt <<< 4 &&& 0xf0, main := .clearing }
    | 4 | 6 => .ok { s with wtnt := 0, main := .app }
    | 7 => .ok { s with wtnt := 0, main := .clearing }
    | _ => .error (.assert "This should not have happened! WTDT")
  else if bit0 s then .ok { s with wtnt := s.wtnt &&& 0xfe, main := .clearing }
  else .ok { s with main := .app }

/-- The main thread inside the handler or `startinterval`. -/
def mainStep (s : PageState) : Result PageState :=
  match s.main with
  | .faulted => .ok { s with prot := .readWrite, main := .granted }
  | .granted => .ok { s with wtnt := s.wtnt ||| 3, main := .app }
  | .clearing => .ok { s with prot := .read, main := .app }
  | .arming => .ok { s with wtnt := s.wtnt ||| 3, main := .app }
  | .app | .ended => .error .blocked

/-- `diffserver` on the page, and the handler when a copy faults. -/
def serveStep (s : PageState) : Result PageState :=
  match s.server with
  | .idle => .ok { s with server := if bit0 s then .copying else .opening }
  | .opening => .ok { s with prot := .readWrite, server := .copying }
  | .copying => .ok { s with server := if bit0 s then .idle else .closing }
  | .faulted => .ok { s with prot := .readWrite, server := .granted }
  | .granted => .ok { s with wtnt := s.wtnt ||| 3, server := .copying }
  | .closing => .ok { s with prot := .read, server := .idle }

def pageStep (s : PageState) : PageEvent → Result PageState
  | .store =>
      if s.main = .app then .ok (if s.prot = .readWrite then s else { s with main := .faulted })
      else .error .blocked
  | .main => mainStep s
  | .look => if s.main = .app then .ok { s with main := .ended } else .error .blocked
  | .start adaptive => if s.main = .ended then startinterval adaptive s else .error .blocked
  | .serve => serveStep s
  | .copy =>
      if s.server = .copying then
        .ok (if s.prot = .readWrite then s else { s with server := .faulted })
      else .error .blocked

def pageSystem : System PageState PageEvent where
  start := initPage
  next s e s' := pageStep s e = .ok s'

/-! ## Stores while the page is open -/

/-- The server thread has the page open. -/
def Open (s : PageState) : Prop :=
  s.server = .copying ∨ s.server = .granted ∨ s.server = .closing

instance (s : PageState) : Decidable (Open s) := inferInstanceAs (Decidable (_ ∨ _ ∨ _))

/-- Since the interval began: the application has stored to the page, and it has done so while
the server thread had it open and bit 0 was clear, without a write fault that was handled
later. -/
structure Stores where
  stored : Bool
  slipped : Bool
deriving DecidableEq

def storeHistory : System.Observer PageState PageEvent Stores where
  start := ⟨false, false⟩
  obs h s e _ :=
    match e with
    | .store =>
        if s.prot = .readWrite then ⟨true, h.slipped || (Open s && !bit0 s)⟩ else h
    | .main => if s.main = .granted then { h with slipped := false } else h
    | .start _ => ⟨false, false⟩
    | .serve => if s.server = .granted then { h with slipped := false } else h
    | .look | .copy => h

/-- The interval's stores are seen. -/
def Seen (s : PageState) (h : Stores) : Prop := h.stored = true → bit0 s = true

/-! ## The invariant -/

/-- The main thread is between two intervals. -/
def Between (s : PageState) : Prop := s.main = .clearing ∨ s.main = .arming

structure Inv (s : PageState) (h : Stores) : Prop where
  /-- A page that may be written without a fault is marked, or open. -/
  open_of_clear : s.prot = .readWrite → bit0 s = false →
    Open s ∨ s.main = .granted ∨ Between s
  seen : h.stored = true → h.slipped = false → bit0 s = true
  slipped : h.slipped = true → h.stored = true ∧ bit0 s = false
  fresh : Between s → h = ⟨false, false⟩

section Steps

variable {s s' : PageState} {h : Stores}

theorem bit0_set (s : PageState) (main : Main) (server : Server) :
    bit0 { s with wtnt := s.wtnt ||| 3, main := main, server := server } = true :=
  decide_eq_true (MemState.bit_or_three s.wtnt)

theorem Inv.store (hi : Inv s h) (hmain : s.main = .app) (hprot : s.prot = .readWrite) :
    Inv s ⟨true, h.slipped || (Open s && !bit0 s)⟩ := by
  have hbetween : ¬ Between s := by
    unfold Between
    rw [hmain]
    decide
  refine ⟨hi.open_of_clear, ?_, ?_, fun hcon => absurd hcon hbetween⟩
  · intro _ hslip
    rw [Bool.or_eq_false_iff] at hslip
    by_contra hclear
    have hbit : bit0 s = false := Bool.not_eq_true _ ▸ hclear
    cases hi.open_of_clear hprot hbit with
    | inl hopen =>
        rw [hbit, decide_eq_true hopen] at hslip
        exact absurd hslip.2 (by decide)
    | inr hother =>
        rw [hmain] at hother
        exact hother.elim nofun hbetween
  · intro hslip
    refine ⟨rfl, ?_⟩
    cases Bool.or_eq_true_iff.mp hslip with
    | inl hold => exact (hi.slipped hold).2
    | inr hnew => exact Bool.not_eq_true' _ ▸ (Bool.and_eq_true_iff.mp hnew).2

/-- A step that leaves the bit and the history alone. -/
theorem Inv.keep (hi : Inv s h) (hwtnt : s'.wtnt = s.wtnt)
    (hopen : s'.prot = .readWrite → bit0 s = false → Open s' ∨ s'.main = .granted ∨ Between s')
    (hfresh : Between s' → Between s) : Inv s' h := by
  have hbit : bit0 s' = bit0 s := by
    unfold bit0
    rw [hwtnt]
  refine ⟨?_, ?_, ?_, fun hb => hi.fresh (hfresh hb)⟩
  · rw [hbit]
    exact hopen
  · rw [hbit]
    exact hi.seen
  · rw [hbit]
    exact hi.slipped

/-- A step that sets the bit. -/
theorem Inv.mark (hi : Inv s h) (hbit : bit0 s' = true) (hfresh : Between s' → Between s) :
    Inv s' { h with slipped := false } where
  open_of_clear _ hclear := absurd hclear (by rw [hbit]; decide)
  seen _ _ := hbit
  slipped hslip := by cases hslip
  fresh hb := by rw [hi.fresh (hfresh hb)]

theorem Inv.main (hi : Inv s h) (hstep : mainStep s = .ok s') :
    Inv s' (if s.main = .granted then { h with slipped := false } else h) := by
  unfold mainStep at hstep
  cases hmain : s.main with
  | app =>
      simp only [hmain] at hstep
      cases hstep
  | ended =>
      simp only [hmain] at hstep
      cases hstep
  | faulted =>
      simp only [hmain, Except.ok.injEq] at hstep
      subst hstep
      rw [if_neg (by decide)]
      exact hi.keep rfl (fun _ _ => .inr (.inl rfl)) fun hb => hb.elim nofun nofun
  | granted =>
      simp only [hmain, Except.ok.injEq] at hstep
      subst hstep
      rw [if_pos rfl]
      exact hi.mark (bit0_set s .app s.server) fun hb => hb.elim nofun nofun
  | clearing =>
      simp only [hmain, Except.ok.injEq] at hstep
      subst hstep
      rw [if_neg (by decide)]
      exact hi.keep rfl (fun hcon _ => by cases hcon) fun _ => .inl hmain
  | arming =>
      simp only [hmain, Except.ok.injEq] at hstep
      subst hstep
      rw [if_neg (by decide)]
      have hnew := hi.fresh (.inr hmain)
      have hmark := hi.mark (bit0_set s .app s.server) fun hb => hb.elim nofun nofun
      rw [hnew] at hmark ⊢
      exact hmark

theorem Inv.serve (hi : Inv s h) (hstep : serveStep s = .ok s') :
    Inv s' (if s.server = .granted then { h with slipped := false } else h) := by
  unfold serveStep at hstep
  cases hserver : s.server with
  | idle =>
      simp only [hserver, Except.ok.injEq] at hstep
      subst hstep
      have hno : ¬ (Server.idle = Server.granted) := by decide
      rw [if_neg hno]
      refine hi.keep rfl (fun hprot hclear => ?_) id
      cases hi.open_of_clear hprot hclear with
      | inl hopen =>
          unfold Open at hopen
          rw [hserver] at hopen
          exact absurd hopen (by decide)
      | inr hother => exact .inr hother
  | opening =>
      simp only [hserver, Except.ok.injEq] at hstep
      subst hstep
      rw [if_neg (by decide)]
      exact hi.keep rfl (fun _ _ => .inl (.inl rfl)) id
  | copying =>
      simp only [hserver, Except.ok.injEq] at hstep
      subst hstep
      have hno : ¬ (Server.copying = Server.granted) := by decide
      rw [if_neg hno]
      refine hi.keep rfl (fun _ hclear => .inl ?_) id
      have hclosing : (if bit0 s = true then Server.idle else .closing) = .closing := by
        rw [hclear]
        rfl
      exact .inr (.inr hclosing)
  | faulted =>
      simp only [hserver, Except.ok.injEq] at hstep
      subst hstep
      rw [if_neg (by decide)]
      exact hi.keep rfl (fun _ _ => .inl (.inr (.inl rfl))) id
  | granted =>
      simp only [hserver, Except.ok.injEq] at hstep
      subst hstep
      rw [if_pos rfl]
      exact hi.mark (bit0_set s s.main .copying) id
  | closing =>
      simp only [hserver, Except.ok.injEq] at hstep
      subst hstep
      rw [if_neg (by decide)]
      exact hi.keep rfl (fun hcon _ => by cases hcon) id

/-- A new interval: what may be written without a fault was open before. -/
theorem Inv.restart (hopen : s'.prot = .readWrite → bit0 s' = false → Open s' ∨ Between s') :
    Inv s' ⟨false, false⟩ where
  open_of_clear hprot hclear := (hopen hprot hclear).imp_right .inr
  seen hcon := by cases hcon
  slipped hcon := by cases hcon
  fresh _ := rfl

theorem Inv.ended (hi : Inv s h) (hmain : s.main = .ended) (hprot : s.prot = .readWrite)
    (hclear : bit0 s = false) : Open s := by
  cases hi.open_of_clear hprot hclear with
  | inl hopen => exact hopen
  | inr hother =>
      unfold Between at hother
      rw [hmain] at hother
      exact absurd hother (by decide)

theorem clear_of_low : ∀ w : BitVec 8, (w &&& 7).toNat = 2 ∨ (w &&& 7).toNat = 4 ∨
    (w &&& 7).toNat = 6 → w &&& 1 ≠ 1 := by decide

theorem Inv.start (hi : Inv s h) (hmain : s.main = .ended) {adaptive : Bool}
    (hstep : startinterval adaptive s = .ok s') : Inv s' ⟨false, false⟩ := by
  have hclear : ∀ n, (s.wtnt &&& 7).toNat = n → n = 2 ∨ n = 4 ∨ n = 6 → bit0 s = false := by
    intro n hn hlow
    apply decide_eq_false
    apply clear_of_low
    rw [hn]
    exact hlow
  unfold startinterval at hstep
  by_cases had : adaptive = true
  · rw [if_pos had] at hstep
    split at hstep
    · -- 0: written by no one
      rw [Except.ok.injEq] at hstep
      subst hstep
      exact Inv.restart fun hprot hbit => .inl (hi.ended hmain hprot hbit)
    · -- 2: written by this host, read-only
      rename_i hlow
      dsimp only at hstep
      split at hstep <;> rw [Except.ok.injEq] at hstep <;> subst hstep
      · exact Inv.restart fun _ _ => .inr (.inr rfl)
      · exact Inv.restart fun hprot _ => .inl (hi.ended hmain hprot (hclear 2 hlow (by decide)))
    · -- 3: written by this host, writable
      dsimp only at hstep
      split at hstep <;> rw [Except.ok.injEq] at hstep <;> subst hstep
      · exact Inv.restart fun hprot hbit => .inl (hi.ended hmain hprot hbit)
      · exact Inv.restart fun _ _ => .inr (.inl rfl)
    · rename_i hlow
      rw [Except.ok.injEq] at hstep
      subst hstep
      exact Inv.restart fun hprot _ => .inl (hi.ended hmain hprot (hclear 4 hlow (by decide)))
    · rename_i hlow
      rw [Except.ok.injEq] at hstep
      subst hstep
      exact Inv.restart fun hprot _ => .inl (hi.ended hmain hprot (hclear 6 hlow (by decide)))
    · -- 7: written by this host and another one, writable
      rw [Except.ok.injEq] at hstep
      subst hstep
      exact Inv.restart fun _ _ => .inr (.inl rfl)
    · cases hstep
  · rw [if_neg had] at hstep
    split at hstep <;> rw [Except.ok.injEq] at hstep <;> subst hstep
    · exact Inv.restart fun _ _ => .inr (.inl rfl)
    · exact Inv.restart fun hprot hbit => .inl (hi.ended hmain hprot hbit)

theorem Inv.step (hi : Inv s h) {e : PageEvent} (hstep : pageStep s e = .ok s') :
    Inv s' (storeHistory.obs h s e s') := by
  cases e with
  | store =>
      rw [pageStep, System.guard_eq_ok, Except.ok.injEq] at hstep
      obtain ⟨hmain, hstep⟩ := hstep
      show Inv s' (if s.prot = .readWrite then ⟨true, h.slipped || (Open s && !bit0 s)⟩ else h)
      by_cases hprot : s.prot = .readWrite
      · rw [if_pos hprot] at hstep ⊢
        subst hstep
        exact hi.store hmain hprot
      · rw [if_neg hprot] at hstep ⊢
        subst hstep
        exact hi.keep rfl (fun hcon _ => absurd hcon hprot) fun hb => hb.elim nofun nofun
  | main => exact hi.main hstep
  | look =>
      rw [pageStep, System.guard_eq_ok, Except.ok.injEq] at hstep
      obtain ⟨hmain, rfl⟩ := hstep
      refine hi.keep rfl (fun hprot hclear => ?_) fun hb => hb.elim nofun nofun
      cases hi.open_of_clear hprot hclear with
      | inl hopen => exact .inl hopen
      | inr hother =>
          unfold Between at hother
          rw [hmain] at hother
          exact absurd hother (by decide)
  | start adaptive =>
      rw [pageStep, System.guard_eq_ok] at hstep
      exact hi.start hstep.1 hstep.2
  | serve => exact hi.serve hstep
  | copy =>
      rw [pageStep, System.guard_eq_ok, Except.ok.injEq] at hstep
      obtain ⟨hserver, hstep⟩ := hstep
      show Inv s' h
      by_cases hprot : s.prot = .readWrite
      · rw [if_pos hprot] at hstep
        exact hstep ▸ hi
      · rw [if_neg hprot] at hstep
        subst hstep
        exact hi.keep rfl (fun hcon _ => absurd hcon hprot) id

end Steps

theorem reach_inv {x : PageState × Stores} (hx : (pageSystem.withHist storeHistory).Reach x) :
    Inv x.1 x.2 := by
  apply hx.invariant (I := fun x => Inv x.1 x.2)
  · exact ⟨nofun, nofun, nofun, fun _ => rfl⟩
  · intro x e x' _ hi hstep
    rw [hstep.2]
    exact hi.step hstep.1

/-- When `endinterval` looks, the stores of the interval are seen exactly if none of them has
slipped through while the page was open. -/
theorem stores_seen_iff {x : PageState × Stores} {s : PageState}
    (hx : (pageSystem.withHist storeHistory).Reach x) (_ : pageStep x.1 .look = .ok s) :
    Seen x.1 x.2 ↔ x.2.slipped = false := by
  have hi := reach_inv hx
  constructor
  · intro hseen
    by_contra hslip
    obtain ⟨hstored, hclear⟩ := hi.slipped (Bool.not_eq_false _ ▸ hslip)
    rw [hseen hstored] at hclear
    cases hclear
  · intro hslip hstored
    exact hi.seen hstored hslip

/-- A store between the two tests of `diffserver`. -/
def slip : List PageEvent := [.serve, .serve, .copy, .store, .serve, .serve]

/-- A store that faults before the page is opened. -/
def faultFirst : List PageEvent := [.store, .serve, .main, .main, .serve, .store, .copy, .serve]

/-- Executing labels together with the history. -/
def turn (x : PageState × Stores) (e : PageEvent) : Result (PageState × Stores) := do
  let s ← pageStep x.1 e
  return (s, storeHistory.obs x.2 x.1 e s)

theorem turn_next (x : PageState × Stores) (e : PageEvent) (x' : PageState × Stores)
    (h : turn x e = .ok x') : (pageSystem.withHist storeHistory).next x e x' := by
  simp only [turn, bind_eq_ok] at h
  obtain ⟨s, hstep, hx⟩ := h
  obtain rfl := Except.ok.inj hx
  exact ⟨hstep, rfl⟩

theorem store_slips : ¬ ∀ (x : PageState × Stores) (s : PageState),
    (pageSystem.withHist storeHistory).Reach x → pageStep x.1 .look = .ok s → Seen x.1 x.2 := by
  intro hall
  obtain ⟨x, hx, hslip⟩ := System.exists_execBy (S := pageSystem.withHist storeHistory) turn_next
    slip (fun x => x.1.main = .app ∧ x.2.stored = true ∧ bit0 x.1 = false) (by decide)
  obtain ⟨hmain, hstored, hclear⟩ := of_decide_eq_true hslip
  rw [hall x _ hx (if_pos hmain) hstored] at hclear
  cases hclear

theorem stores_seen_iff_faultFirst : ∃ x : PageState × Stores,
    (x.1.main = .app ∧ x.2.stored = true) ∧ Seen x.1 x.2 := by
  obtain ⟨x, hx, hfault⟩ := System.exists_execBy (S := pageSystem.withHist storeHistory) turn_next
    faultFirst (fun x => x.1.main = .app ∧ x.2.stored = true ∧ x.2.slipped = false) (by decide)
  obtain ⟨hmain, hstored, hslip⟩ := of_decide_eq_true hfault
  exact ⟨x, ⟨hmain, hstored⟩, (stores_seen_iff hx (if_pos hmain)).mpr hslip⟩

end Jiajia.OpenWindow
