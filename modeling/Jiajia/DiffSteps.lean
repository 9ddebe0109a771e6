import Jiajia.Handling

/-!
# `diffserver` with its steps apart

`diffserver` opens a page, copies the runs of a diff into it one by one and closes it again,
while the other threads run; `system` takes all this as one step.  The runs are the same as
long as the main thread of the host stands still meanwhile.
-/

namespace Jiajia

open Transition Fifo Host

/-! ## One call -/

/-- The page `diffserver` has open, and the runs still to be copied. -/
structure OpenPage where
  homei : Nat
  diff : PageDiff
  left : List DiffRun
deriving DecidableEq

/-- A call of `diffserver`: the diffs it has not begun with, and the page it is at. -/
structure Diffing where
  src : Nat
  diffs : List PageDiff
  page : Option OpenPage
deriving DecidableEq

namespace MemState

variable (cfg : Config)

/-- What `diffserver` does next, and where it stands then. -/
def diffTurn (m : MemState) (w : Diffing) : Result (MemState × Diffing) :=
  match w.page with
  | none =>
      match w.diffs with
      | [] => .error .blocked
      | d :: ds => do
          let homei := m.homepage cfg d.addr
          let m ← m.openHome cfg (cfg.pagei d.addr) homei
          return (m, { w with diffs := ds, page := some ⟨homei, d, d.runs⟩ })
  | some ⟨homei, d, []⟩ => do
      let m ← m.noteBlocks cfg w.src homei d.runs
      let m ← m.closeHome cfg (cfg.pagei d.addr) homei
      return (m, { w with page := none })
  | some ⟨homei, d, r :: left⟩ => do
      let p := cfg.pagei d.addr
      defined (m.prot p = .readWrite) "diff to a page that is not writable"
      return (m.setMem p (r.apply (m.mem p)), { w with page := some ⟨homei, d, left⟩ })

/-- The rest of a call, when nobody else runs. -/
def finishDiffs (m : MemState) (w : Diffing) : Result MemState :=
  match w.page with
  | none => applyDiffs cfg w.src m w.diffs
  | some ⟨homei, d, left⟩ => do
      let p := cfg.pagei d.addr
      defined (left ≠ [] → m.prot p = .readWrite) "diff to a page that is not writable"
      let m ← (m.setMem p (applyRuns left (m.mem p))).noteBlocks cfg w.src homei d.runs
      let m ← m.closeHome cfg p homei
      applyDiffs cfg w.src m w.diffs

variable {cfg} {m m' : MemState} {w w' : Diffing}

theorem setMem_same (m : MemState) (p : Nat) : m.setMem p (m.mem p) = m := by
  rw [setMem, upd_eq_self]

theorem setMem_twice (m : MemState) (p : Nat) (pg pg' : Page) :
    (m.setMem p pg).setMem p pg' = m.setMem p pg' := by
  simp only [setMem, upd_upd]

/-- A turn leaves the same rest to do. -/
theorem finishDiffs_turn (h : m.diffTurn cfg w = .ok (m', w')) :
    w'.src = w.src ∧ m'.finishDiffs cfg w' = m.finishDiffs cfg w := by
  obtain ⟨src, diffs, page⟩ := w
  cases page with
  | none =>
      cases diffs with
      | nil => cases h
      | cons d ds =>
          simp only [diffTurn, bind_eq_ok, pure, Except.pure, Except.ok.injEq, Prod.mk.injEq] at h
          obtain ⟨m₁, hopen, rfl, rfl⟩ := h
          refine ⟨rfl, ?_⟩
          simp only [finishDiffs, applyDiffs, applyDiff, hopen, bind_assoc]
          rfl
  | some at_ =>
      obtain ⟨homei, d, left⟩ := at_
      cases left with
      | nil =>
          simp only [diffTurn, bind_eq_ok, pure, Except.pure, Except.ok.injEq, Prod.mk.injEq] at h
          obtain ⟨m₁, hnote, m₂, hclose, rfl, rfl⟩ := h
          refine ⟨rfl, ?_⟩
          have hdone : defined (([] : List DiffRun) ≠ [] → m.prot (cfg.pagei d.addr) = .readWrite)
              "diff to a page that is not writable" = .ok () := if_pos (absurd rfl)
          simp only [finishDiffs, applyRuns, List.foldl_nil, setMem_same, hdone]
          change _ = m.noteBlocks cfg src homei d.runs >>= _
          rw [hnote]
          change _ = m₁.closeHome cfg (cfg.pagei d.addr) homei >>= _
          rw [hclose]
          rfl
      | cons r left =>
          simp only [diffTurn, bind_eq_ok, defined_eq_ok, pure, Except.pure, Except.ok.injEq,
            Prod.mk.injEq] at h
          obtain ⟨-, hopen, rfl, rfl⟩ := h
          refine ⟨rfl, ?_⟩
          have hlast : applyRuns (r :: left) (m.mem (cfg.pagei d.addr)) =
              applyRuns left (r.apply (m.mem (cfg.pagei d.addr))) := rfl
          simp only [finishDiffs, setMem_twice, setMem_mem, setMem_prot, upd_same, defined,
            hopen, hlast, implies_true, if_true]

/-- Turns of a call with nothing in between. -/
def DiffTurns (cfg : Config) : MemState × Diffing → MemState × Diffing → Prop :=
  Relation.ReflTransGen fun x y => x.1.diffTurn cfg x.2 = .ok y

/-- How many turns a call may still take. -/
def diffTurnsLeft (w : Diffing) : Nat :=
  (w.diffs.map fun d => d.runs.length + 2).sum + (w.page.elim 0 fun pg => pg.left.length + 1)

theorem exists_diffTurn (h : m.finishDiffs cfg w = .ok m') :
    (∃ m₁ w₁, m.diffTurn cfg w = .ok (m₁, w₁) ∧ diffTurnsLeft w₁ < diffTurnsLeft w) ∨
      (w.diffs = [] ∧ w.page = none ∧ m' = m) := by
  obtain ⟨src, diffs, page⟩ := w
  cases page with
  | none =>
      cases diffs with
      | nil =>
          right
          exact ⟨rfl, rfl, (Except.ok.inj h).symm⟩
      | cons d ds =>
          left
          simp only [finishDiffs, applyDiffs, applyDiff, bind_assoc, bind_eq_ok] at h
          obtain ⟨m₁, hopen, -⟩ := h
          refine ⟨m₁, ⟨src, ds, some ⟨m.homepage cfg d.addr, d, d.runs⟩⟩, ?_, ?_⟩
          · simp only [diffTurn, hopen]
            rfl
          · simp only [diffTurnsLeft, List.map_cons, List.sum_cons, Option.elim_some,
              Option.elim_none]
            omega
  | some pg =>
      obtain ⟨homei, d, left⟩ := pg
      simp only [finishDiffs, bind_eq_ok, defined_eq_ok] at h
      obtain ⟨-, hopen, m₁, hnote, m₂, hclose, -⟩ := h
      cases left with
      | nil =>
          left
          rw [applyRuns, List.foldl_nil, setMem_same] at hnote
          refine ⟨m₂, ⟨src, diffs, none⟩, ?_, ?_⟩
          · simp only [diffTurn, bind_eq_ok]
            exact ⟨m₁, hnote, m₂, hclose, rfl⟩
          · simp only [diffTurnsLeft, Option.elim_some, Option.elim_none, List.length_nil]
            omega
      | cons r left =>
          left
          refine ⟨m.setMem (cfg.pagei d.addr) (r.apply (m.mem (cfg.pagei d.addr))),
            ⟨src, diffs, some ⟨homei, d, left⟩⟩, ?_, ?_⟩
          · simp only [diffTurn, defined, if_pos (hopen (List.cons_ne_nil _ _))]
            rfl
          · simp only [diffTurnsLeft, Option.elim_some, List.length_cons]
            omega

theorem exists_diffTurns (h : m.finishDiffs cfg w = .ok m') :
    DiffTurns cfg (m, w) (m', ⟨w.src, [], none⟩) := by
  obtain ⟨n, hn⟩ : ∃ n, diffTurnsLeft w = n := ⟨_, rfl⟩
  induction n using Nat.strong_induction_on generalizing m w with
  | _ n ih =>
      rcases exists_diffTurn h with ⟨m₁, w₁, hturn, hlt⟩ | ⟨hdiffs, hpage, rfl⟩
      · obtain ⟨hsrc, heq⟩ := finishDiffs_turn hturn
        have hturns := ih _ (hn ▸ hlt) (heq.trans h) rfl
        rw [hsrc] at hturns
        exact hturns.head hturn
      · obtain ⟨src, diffs, page⟩ := w
        obtain rfl : diffs = [] := hdiffs
        obtain rfl : page = none := hpage
        exact .refl

theorem finishDiffs_turns {x y : MemState × Diffing} (h : DiffTurns cfg x y) :
    y.1.finishDiffs cfg y.2 = x.1.finishDiffs cfg x.2 := by
  induction h with
  | refl => rfl
  | tail _ hturn ih => exact (finishDiffs_turn hturn).2.trans ih

/-- With nothing in between, the turns are `diffserver`. -/
theorem diffserver_iff_turns {src : Nat} {ds : List PageDiff} :
    m.diffserver cfg src ds = .ok (m', [(src, .diffgrant)]) ↔
      DiffTurns cfg (m, ⟨src, ds, none⟩) (m', ⟨src, [], none⟩) := by
  have hone : m.diffserver cfg src ds = .ok (m', [(src, .diffgrant)]) ↔
      m.finishDiffs cfg ⟨src, ds, none⟩ = .ok m' := by
    simp only [diffserver, bind_eq_ok, pure, Except.pure, Except.ok.injEq, Prod.mk.injEq, and_true]
    constructor
    · rintro ⟨m₁, h, rfl⟩
      exact h
    · intro h
      exact ⟨m', h, rfl⟩
  rw [hone]
  exact ⟨exists_diffTurns, fun h => (finishDiffs_turns h).symm⟩

end MemState

/-! ## The system -/

/-- The hosts and channels, and the calls of `diffserver` under way.  The DIFF stays at the head
of its channel until the call returns. -/
structure DiffingState where
  base : State
  diffing : Nat → Option Diffing

inductive DiffingEvent
  /-- A main thread acts, or a server thread handles a message of another kind. -/
  | other (e : Event)
  /-- The server thread of host `dst` enters `diffserver`. -/
  | take (src dst : Nat)
  | turn (dst : Nat)
  /-- It sends the DIFFGRANT and returns. -/
  | answer (src dst : Nat)
deriving DecidableEq, Repr

/-- A server thread inside `diffserver` handles no other message. -/
def DiffingState.free (x : DiffingState) : Event → Bool
  | .main _ _ => true
  | .deliver src dst _ =>
      (x.diffing dst).isNone && (x.base.net src dst).head?.all fun msg => !msg.isDiff

variable (cfg : Config)

def diffingStep (x : DiffingState) : DiffingEvent → Result DiffingState
  | .other e => do
      await (x.free e = true)
      let s ← step cfg x.base e
      return { x with base := s }
  | .take src dst => do
      await ((x.diffing dst).isNone = true)
      match x.base.net src dst with
      | .diff ds :: _ => return { x with diffing := upd x.diffing dst (some ⟨src, ds, none⟩) }
      | _ => .error .blocked
  | .turn dst =>
      match x.diffing dst with
      | none => .error .blocked
      | some w => do
          let (m, w) ← (x.base.host dst).m.diffTurn cfg w
          return ⟨x.base.put dst { x.base.host dst with m := m } [], upd x.diffing dst (some w)⟩
  | .answer src dst => do
      await (x.diffing dst = some ⟨src, [], none⟩)
      return ⟨{ x.base with net := drop x.base.net src dst }.put dst (x.base.host dst)
        [(src, .diffgrant)], upd x.diffing dst none⟩

/-- The runs of the program with the steps of `diffserver` apart. -/
def diffingSystem : System DiffingState DiffingEvent where
  start := ⟨initState cfg, fun _ => none⟩
  next x e x' := diffingStep cfg x e = .ok x'

/-- The main thread of a host inside `diffserver` stands still. -/
def MainStill (x : DiffingState) : DiffingEvent → Prop
  | .other (.main i _) => x.diffing i = none
  | _ => True

/-- The step of `system` that an event is, if it is one. -/
def DiffingEvent.whole : DiffingEvent → Option Event
  | .other e => some e
  | .answer src dst => some (.deliver src dst [])
  | _ => none

/-- The call `w` on host `i`, seen from a state in which it has not begun. -/
structure Begun (i : Nat) (h : Host) (s : State) (w : Diffing) : Prop where
  host : h = { s.host i with m := h.m }
  rest : ∃ ds rest, s.net w.src i = .diff ds :: rest ∧
    h.m.finishDiffs cfg w = (s.host i).m.applyDiffs cfg w.src ds

/-- `s` is `x` before the calls under way. -/
structure Settles (x : DiffingState) (s : State) : Prop where
  net : x.base.net = s.net
  host : ∀ i, x.diffing i = none → x.base.host i = s.host i
  begun : ∀ i w, x.diffing i = some w → Begun cfg i (x.base.host i) s w

variable {cfg} {s t s' : State} {e : Event} {x x' : DiffingState}

/-- A step looks at the channels and at one host. -/
theorem step_same (hnet : t.net = s.net) (hhost : t.host e.actor = s.host e.actor)
    (h : step cfg s e = .ok s') :
    ∃ hst, s'.host = upd s.host e.actor hst ∧
      step cfg t e = .ok ⟨upd t.host e.actor hst, s'.net⟩ := by
  rcases step_cases h with ⟨i, a, hst, out, rfl, hi, hact, -, rfl⟩ |
    ⟨src, dst, rnd, msg, rest, hst, out, rfl, hcons, hmsg, -, rfl⟩
  · refine ⟨hst, rfl, ?_⟩
    have hact' : (t.host i).act cfg i a = .ok (hst, out) := by
      rw [show t.host i = s.host i from hhost]
      exact hact
    simp only [step, await, if_pos hi, hact']
    change Except.ok (t.put i hst out) = _
    rw [State.put, hnet]
    rfl
  · refine ⟨hst, rfl, ?_⟩
    have hmsg' : (t.host dst).msgHandle cfg dst src rnd msg = .ok (hst, out) := by
      rw [show t.host dst = s.host dst from hhost]
      exact hmsg
    simp only [step, hnet, hcons, hmsg']
    rfl

/-- A channel to a host that does not act keeps its first message. -/
theorem step_head (h : step cfg s e = .ok s') {a b : Nat} (hb : b ≠ e.actor) {msg : Msg}
    {rest : List Msg} (hnet : s.net a b = msg :: rest) : ∃ rest', s'.net a b = msg :: rest' := by
  have hsend : ∀ (n : Net Msg) (i : Nat) (out : Out), n a b = msg :: rest →
      ∃ rest', send n i out a b = msg :: rest' := by
    intro n i out hn
    by_cases ha : a = i
    · subst ha
      exact ⟨rest ++ outboxTo out b, by rw [send_same, hn, List.cons_append]⟩
    · exact ⟨rest, by rw [send_of_ne _ _ _ ha, hn]⟩
  rcases step_cases h with ⟨i, a', hst, out, rfl, -, -, -, rfl⟩ |
    ⟨src, dst, rnd, msg', rest', hst, out, rfl, -, -, -, rfl⟩
  · exact hsend s.net i out hnet
  · have hother : ¬ (a = src ∧ b = dst) := fun hab => hb hab.2
    refine hsend (drop s.net src dst) dst out ?_
    rw [drop_of_ne _ hother, hnet]

theorem Settles.acted (hr : Settles cfg x s) (h : step cfg s e = .ok s')
    (hnet : x'.base.net = s'.net)
    (hhost : x'.base.host = upd x.base.host e.actor (s'.host e.actor))
    (hidle : x'.diffing = upd x.diffing e.actor none) : Settles cfg x' s' := by
  obtain ⟨hst, hupd, -⟩ := step_same rfl rfl h
  refine ⟨hnet, ?_, ?_⟩
  · intro j hj
    by_cases hja : j = e.actor
    · rw [hhost, hja, upd_same]
    · rw [hidle, upd_of_ne _ _ hja] at hj
      rw [hhost, upd_of_ne _ _ hja, hr.host j hj, hupd, upd_of_ne _ _ hja]
  · intro j w hw
    have hja : j ≠ e.actor := by
      rintro rfl
      rw [hidle, upd_same] at hw
      cases hw
    rw [hidle, upd_of_ne _ _ hja] at hw
    obtain ⟨hb, ds, rest, hcons, hrest⟩ := hr.begun j w hw
    obtain ⟨rest', hcons'⟩ := step_head h hja hcons
    have hsame : s'.host j = s.host j := by rw [hupd, upd_of_ne _ _ hja]
    rw [hhost, upd_of_ne _ _ hja]
    exact ⟨hsame ▸ hb, ds, rest', hcons', hsame ▸ hrest⟩

theorem Settles.other (hr : Settles cfg x s) (hidle : x.diffing e.actor = none)
    (hstep : step cfg x.base e = .ok t) :
    ∃ s', step cfg s e = .ok s' ∧ Settles cfg { x with base := t } s' := by
  obtain ⟨hst, hupd, hsame⟩ := step_same hr.net.symm (hr.host _ hidle).symm hstep
  refine ⟨_, hsame, hr.acted hsame rfl ?_ ?_⟩
  · simp only [upd_same]
    exact hupd
  · rw [← hidle, upd_eq_self]

theorem Settles.answer (hr : Settles cfg x s) {src dst : Nat}
    (hw : x.diffing dst = some ⟨src, [], none⟩) :
    ∃ s', step cfg s (.deliver src dst []) = .ok s' ∧
      Settles cfg ⟨{ x.base with net := drop x.base.net src dst }.put dst (x.base.host dst)
        [(src, .diffgrant)], upd x.diffing dst none⟩ s' := by
  obtain ⟨hb, ds, rest, hcons, hrest⟩ := hr.begun dst _ hw
  have hserve : (s.host dst).msgHandle cfg dst src [] (.diff ds) =
      .ok (x.base.host dst, [(src, .diffgrant)]) := by
    rw [hb]
    simp only [msgHandle, onMem, MemState.diffserver, ← hrest, MemState.finishDiffs,
      MemState.applyDiffs]
    rfl
  have hstep : step cfg s (.deliver src dst []) =
      .ok ({ s with net := drop s.net src dst }.put dst (x.base.host dst) [(src, .diffgrant)]) := by
    simp only [step, hcons, hserve]
    rfl
  refine ⟨_, hstep, hr.acted hstep ?_ ?_ rfl⟩
  · simp only [State.put_net, hr.net]
  · simp [State.put, Event.actor]

theorem Settles.take (hr : Settles cfg x s) {src dst : Nat} {ds : List PageDiff} {rest : List Msg}
    (hidle : x.diffing dst = none) (hcons : x.base.net src dst = .diff ds :: rest) :
    Settles cfg { x with diffing := upd x.diffing dst (some ⟨src, ds, none⟩) } s := by
  refine ⟨hr.net, ?_, ?_⟩
  · intro i hi
    dsimp only at hi
    by_cases hid : i = dst
    · exact hid ▸ hr.host dst hidle
    · exact hr.host i (by rwa [upd_of_ne _ _ hid] at hi)
  · intro i w hw
    dsimp only at hw
    by_cases hid : i = dst
    · subst hid
      rw [upd_same, Option.some.injEq] at hw
      subst hw
      have hsame := hr.host i hidle
      refine ⟨?_, ds, rest, ?_, ?_⟩
      · dsimp only
        rw [hsame]
      · rw [← hr.net]
        exact hcons
      · dsimp only
        rw [hsame]
        rfl
    · exact hr.begun i w (by rwa [upd_of_ne _ _ hid] at hw)

theorem Settles.turn (hr : Settles cfg x s) {dst : Nat} {w w' : Diffing} {m : MemState}
    (hw : x.diffing dst = some w)
    (hturn : (x.base.host dst).m.diffTurn cfg w = .ok (m, w')) :
    Settles cfg ⟨x.base.put dst { x.base.host dst with m := m } [],
      upd x.diffing dst (some w')⟩ s := by
  refine ⟨?_, ?_, ?_⟩
  · rw [State.put_net, send_nil]
    exact hr.net
  · intro i hi
    dsimp only at hi ⊢
    have hid : i ≠ dst := by
      rintro rfl
      rw [upd_same] at hi
      cases hi
    rw [upd_of_ne _ _ hid] at hi
    rw [State.put_host_of_ne _ _ _ hid]
    exact hr.host i hi
  · intro i w₁ hw₁
    dsimp only at hw₁ ⊢
    by_cases hid : i = dst
    · subst hid
      rw [upd_same, Option.some.injEq] at hw₁
      subst hw₁
      obtain ⟨hb, ds, rest, hcons, hrest⟩ := hr.begun i w hw
      obtain ⟨hsrc, heq⟩ := MemState.finishDiffs_turn hturn
      rw [State.put_host_same]
      refine ⟨?_, ds, rest, ?_, ?_⟩
      · rw [hb]
      · rw [hsrc]
        exact hcons
      · rw [hsrc]
        exact heq.trans hrest
    · rw [upd_of_ne _ _ hid] at hw₁
      rw [State.put_host_of_ne _ _ _ hid]
      exact hr.begun i w₁ hw₁

theorem settles_start : Settles cfg (diffingSystem cfg).start (system cfg).start where
  net := rfl
  host _ _ := rfl
  begun _ _ hw := by cases hw

/-- An event that is no step of `system` changes nothing there. -/
theorem Settles.silent {e : DiffingEvent} (hr : Settles cfg x s)
    (hstep : diffingStep cfg x e = .ok x') (hwhole : e.whole = none) : Settles cfg x' s := by
  cases e with
  | other e => cases hwhole
  | answer src dst => cases hwhole
  | take src dst =>
      simp only [diffingStep, bind_eq_ok, await_eq_ok, Option.isNone_iff_eq_none] at hstep
      obtain ⟨-, hidle, hstep⟩ := hstep
      split at hstep
      · rename_i ds rest hcons
        obtain rfl := Except.ok.inj hstep
        exact hr.take hidle hcons
      · cases hstep
  | turn dst =>
      simp only [diffingStep] at hstep
      split at hstep
      · cases hstep
      · rename_i w hw
        simp only [bind_eq_ok, Prod.exists, pure, Except.pure, Except.ok.injEq] at hstep
        obtain ⟨m, w', hturn, rfl⟩ := hstep
        exact hr.turn hw hturn

theorem Settles.seen {e : DiffingEvent} {e' : Event} (hr : Settles cfg x s)
    (hstill : MainStill x e) (hstep : diffingStep cfg x e = .ok x') (hwhole : e.whole = some e') :
    ∃ s', step cfg s e' = .ok s' ∧ Settles cfg x' s' := by
  cases e with
  | other e =>
      obtain rfl := Option.some.inj hwhole
      simp only [diffingStep, bind_eq_ok, await_eq_ok, pure, Except.pure, Except.ok.injEq] at hstep
      obtain ⟨-, hfree, t, hbase, rfl⟩ := hstep
      have hidle : x.diffing e.actor = none := by
        cases e with
        | main i a => exact hstill
        | deliver src dst rnd =>
            rw [DiffingState.free, Bool.and_eq_true, Option.isNone_iff_eq_none] at hfree
            exact hfree.1
      exact hr.other hidle hbase
  | answer src dst =>
      obtain rfl := Option.some.inj hwhole
      simp only [diffingStep, bind_eq_ok, await_eq_ok, pure, Except.pure, Except.ok.injEq] at hstep
      obtain ⟨-, hw, rfl⟩ := hstep
      exact hr.answer hw
  | take src dst => cases hwhole
  | turn dst => cases hwhole

/-- A run in which every main thread stands still while its host is inside `diffserver` is a run
with `diffserver` in one step, up to the calls under way. -/
theorem diffing_run {es : List DiffingEvent}
    (h : ((diffingSystem cfg).restrict MainStill).Trace es x) :
    ∃ s, (system cfg).Trace (es.filterMap DiffingEvent.whole) s ∧ Settles cfg x s := by
  have hstart : Settles cfg ((diffingSystem cfg).restrict MainStill).start (system cfg).start :=
    settles_start
  refine h.project DiffingEvent.whole hstart ?_ ?_
  · rintro x s e x' hr ⟨-, hstep⟩ hwhole
    exact hr.silent hstep hwhole
  · rintro x s e e' x' hr ⟨hstill, hstep⟩ hwhole
    exact hr.seen hstill hstep hwhole

theorem diffing_reach (hx : ((diffingSystem cfg).restrict MainStill).Reach x) :
    ∃ s, (system cfg).Reach s ∧ Settles cfg x s := by
  obtain ⟨es, htrace⟩ := hx.trace
  obtain ⟨s, hs, hr⟩ := diffing_run htrace
  exact ⟨s, hs.reach, hr⟩

/-- No turn of `diffserver` fails: a call under way takes its next one, or has come to its end. -/
theorem diff_goes_on (hb : cfg.Basic) (hx : ((diffingSystem cfg).restrict MainStill).Reach x)
    {i : Nat} {w : Diffing} (hw : x.diffing i = some w) :
    (∃ x', diffingStep cfg x (.turn i) = .ok x') ∨
      ∃ x', diffingStep cfg x (.answer w.src i) = .ok x' := by
  obtain ⟨s, hs, hr⟩ := diffing_reach hx
  obtain ⟨-, ds, rest, hcons, hrest⟩ := hr.begun i w hw
  have hmem : Msg.diff ds ∈ s.net w.src i := hcons ▸ List.mem_cons_self
  obtain ⟨r, hserve⟩ := reach_diffserver hb hs hmem
  obtain ⟨m, happly, -⟩ := bind_eq_ok.mp hserve
  rcases MemState.exists_diffTurn (hrest.trans happly) with ⟨m₁, w₁, hturn, -⟩ | ⟨hdiffs, hpage, -⟩
  · left
    simp only [diffingStep, hw, hturn]
    exact ⟨_, rfl⟩
  · right
    obtain ⟨src, diffs, page⟩ := w
    obtain rfl : diffs = [] := hdiffs
    obtain rfl : page = none := hpage
    simp only [diffingStep, await, hw, if_true]
    exact ⟨_, rfl⟩

/-! ## Home pages -/

/-- While a host is in no call of `diffserver`, each of its pages is readable there, and
writable exactly while the write bit of its entry is set. -/
theorem home_pages_mapped (hb : cfg.Basic) (hhost : cfg.hostc ≠ 1)
    (hx : ((diffingSystem cfg).restrict MainStill).Reach x) {p i : Nat} (hp : p < cfg.npages)
    (hown : cfg.layout.owner p = i) (hidle : x.diffing i = none) :
    ((x.base.host i).m.page p).homei < Homepages ∧
      ((x.base.host i).m.home ((x.base.host i).m.page p).homei).addr = cfg.pageAddr p ∧
      (x.base.host i).m.prot p =
        if ((x.base.host i).m.home ((x.base.host i).m.page p).homei).wtnt &&& 1 = 1 then .readWrite
        else .read := by
  obtain ⟨s, hs, hr⟩ := diffing_reach hx
  rw [hr.host i hidle]
  exact reach_homeMapped hb hhost hs hp hown

/-- A step while the main threads stand still. -/
def stillStep (cfg : Config) (x : DiffingState) (e : DiffingEvent) : Result DiffingState :=
  match e with
  | .other (.main i a) => do
      await ((x.diffing i).isNone = true)
      diffingStep cfg x (.other (.main i a))
  | e => diffingStep cfg x e

theorem stillStep_next {e : DiffingEvent} (h : stillStep cfg x e = .ok x') :
    ((diffingSystem cfg).restrict MainStill).next x e x' := by
  unfold stillStep at h
  split at h
  · simp only [bind_eq_ok, await_eq_ok, Option.isNone_iff_eq_none] at h
    obtain ⟨-, hidle, hstep⟩ := h
    exact ⟨hidle, hstep⟩
  · rename_i hno
    refine ⟨?_, h⟩
    unfold MainStill
    split
    · exact absurd rfl (hno _ _)
    · trivial

/-- Host 1 writes page 0 and comes to a barrier; host 0 takes the diff, opens its page and
copies the diff into it. -/
def diffComes : List DiffingEvent :=
  [.main 1 (.fault 0 true 0), .deliver 1 0 [], .deliver 0 1 [], .main 1 .go,
    .main 1 (.fault 0 true 0), .main 1 .go, .main 1 (.store 0 Config.unit0 7), .main 1 .barrier,
    .main 1 .go].map DiffingEvent.other ++ [.take 1 0, .turn 0, .turn 0]

/-- The page is open while its bit is clear, and closed when `diffserver` has returned. -/
theorem home_pages_mapped_diffComes :
    (∃ x, ((diffingSystem .onePage).restrict MainStill).Reach x ∧
      (x.base.host 0).m.prot 0 = .readWrite ∧
      ((x.base.host 0).m.home ((x.base.host 0).m.page 0).homei).wtnt &&& 1 = 0) ∧
    ∃ x, ((diffingSystem .onePage).restrict MainStill).Reach x ∧
      (x.base.host 0).m.mem 0 Config.unit0 = 7 ∧
      (x.base.host 0).m.prot 0 = if ((x.base.host 0).m.home
        ((x.base.host 0).m.page 0).homei).wtnt &&& 1 = 1 then .readWrite else .read := by
  have hnext : ∀ x e x', stillStep .onePage x e = .ok x' →
      ((diffingSystem .onePage).restrict MainStill).next x e x' := fun _ _ _ => stillStep_next
  obtain ⟨x, hx, hcheck⟩ := System.exists_execBy hnext diffComes
    (fun x => decide ((x.base.host 0).m.prot 0 = .readWrite ∧
      ((x.base.host 0).m.home ((x.base.host 0).m.page 0).homei).wtnt &&& 1 = 0))
    (by decide +kernel)
  obtain ⟨y, hy, hcheck'⟩ := System.exists_execBy hnext (diffComes ++ [.turn 0, .answer 1 0])
    (fun y => decide ((y.base.host 0).m.mem 0 Config.unit0 = 7 ∧ y.diffing 0 = none))
    (by decide +kernel)
  obtain ⟨hprot, hbit⟩ := of_decide_eq_true hcheck
  obtain ⟨hmem, hidle⟩ := of_decide_eq_true hcheck'
  have hmapped := home_pages_mapped ⟨rfl, rfl, rfl⟩ (by decide) hy (p := 0) (i := 0) (by decide)
    (by decide) hidle
  exact ⟨⟨x, hx, hprot, hbit⟩, y, hy, hmem, hmapped.2.2⟩

end Jiajia
