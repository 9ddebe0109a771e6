import Jiajia.Basics

/-!
# `getpserver` step by step

Main threads run while a server thread is inside `getpserver`: it sets `home.rdnt`, looks at the
pages that follow, and copies the pages one by one.  A turn of the home loop in `endinterval` stays
one step: the server only ever stores 1 in `home.rdnt`, and such a store between the test and
the clearing acts as one before the turn or after it.
-/

namespace Jiajia

open Fifo Transition Host

/-- Where the server thread stands in `getpserver`. -/
inductive Stage
  /-- Before it looks at `wvfull`. -/
  | twin
  /-- Before `home[homei].rdnt = 1`. -/
  | flag
  /-- In the prefetch loop at page `p`, with `k` pages left to `endaddr`. -/
  | look (k p : Nat) (found : List Nat)
  /-- Before the requested page is copied. -/
  | copy (found : List Nat)
  /-- The reply so far, and the pages to append to it. -/
  | add (wv : BitVec Wvbits) (pg : Page) (xs : List ExtraPage) (left : List Nat)

/-- A call of `getpserver` that has not returned. -/
structure Serving where
  src : Nat
  addr : Addr
  temp : Bool
  homei : Nat
  stage : Stage

namespace Serving

variable (cfg : Config)

/-- `addr[0 .. num - 1]`, from `home[homei].rdnt = 1` on. -/
def addrs (w : Serving) : List Addr :=
  match w.stage with
  | .twin => []
  | .flag => []
  | .look _ _ found => w.addr :: found.map cfg.pageAddr
  | .copy found => w.addr :: found.map cfg.pageAddr
  | .add _ _ xs left => w.addr :: (xs.map ExtraPage.addr ++ left.map cfg.pageAddr)

/-- The reply, once the last page is in it. -/
def reply (w : Serving) : Result Out :=
  match w.stage with
  | .add wv pg xs [] => do
      jiaAssert (Intbytes + Addrbytes + Pagesize + (Addrbytes + Pagesize) * xs.length ≤ Maxmsgsize)
        "Message too large"
      return [(w.src, .getpgrant w.addr wv (MemState.maskPage wv pg zeroPage) xs)]
  | _ => .error .blocked

end Serving

namespace MemState

variable (cfg : Config) (m : MemState)

/-- `getpserver` up to the first access to `home[homei]`. -/
def takeReq (pid src : Nat) (addr : Addr) (temp : Bool) : Result Serving :=
  if cfg.hMig ∧ m.homehost cfg addr ≠ pid then .error (.undefined "copy from address 0")
  else do
    jiaAssert (m.homehost cfg addr = pid) "This should have not been happened!"
    defined (m.homepage cfg addr < Homepages) "home[] out of range"
    return ⟨src, addr, temp, m.homepage cfg addr, .twin⟩

/-- The blocks that `getpserver` sends of the requested page. -/
def sentBlocks (w : Serving) (found : List Nat) : BitVec Wvbits :=
  if cfg.wVec ∧ w.temp then (m.home (m.lastHomei w.homei found)).wtvect w.src else WVFULL

/-- What `getpserver` does next, and where it stands then. -/
def serveTurn (pid : Nat) (w : Serving) : Result (MemState × Stage) :=
  let p := cfg.pagei w.addr
  match w.stage with
  | .twin => do
      let m ← m.renewTwin cfg pid w.homei
      return (m, .flag)
  | .flag =>
      let m := m.setHome w.homei { m.home w.homei with rdnt := true }
      if cfg.prefetchFlag ∧ cfg.prefetchPages ≠ 0 then
        return (m, .look cfg.maxCheckingPages.toNat (p + 1) [])
      else return (m, .copy [])
  | .look 0 _ found => return (m, .copy found)
  | .look (k + 1) q found => do
      defined (q < Maxmempages) "page[] out of range"
      let num := found.length + 1
      if (m.page q).homepid = pid ∧ (num : Int) < cfg.maxCheckingPages + 1 then do
        let homei := (m.page q).homei
        defined (homei < Homepages) "home[] out of range"
        defined (num < 10) "addr[] out of range"
        let m := m.setHome homei { m.home homei with rdnt := true }
        if ((num + 1 : Nat) : Int) = cfg.prefetchPages + 1 then
          return (m, .copy (found ++ [q]))
        else return (m, .look k (q + 1) (found ++ [q]))
      else return (m, .look k (q + 1) found)
  | .copy found => do
      let wv := m.sentBlocks cfg w found
      let (m, pg) ← (if wv = 0 then .ok (m, zeroPage) else m.copyPage cfg pid p)
      return (m, .add wv pg [] found)
  | .add _ _ _ [] => .error .blocked
  | .add wv pg xs (q :: left) => do
      let (m, data) ← m.copyPage cfg pid q
      return (m, .add wv pg (xs ++ [⟨cfg.pageAddr q, data⟩]) left)

end MemState

/-! ## The system -/

/-- The hosts and channels, and the calls of `getpserver` under way.  The request stays at the
head of its channel until the call returns. -/
structure ServingState where
  base : State
  serving : Nat → Option Serving

inductive ServingEvent
  /-- A main thread acts, or a server thread handles a message of another kind. -/
  | other (e : Event)
  /-- The server thread of host `dst` enters `getpserver`. -/
  | take (src dst : Nat)
  | turn (dst : Nat)
  /-- It sends the reply and returns. -/
  | answer (dst : Nat)
deriving DecidableEq, Repr

/-- A server thread inside `getpserver` handles no other message. -/
def ServingState.free (x : ServingState) : Event → Bool
  | .main _ _ => true
  | .deliver src dst _ =>
      (x.serving dst).isNone && (x.base.net src dst).head?.all fun msg => !msg.isGetp

variable (cfg : Config)

def servingStep (x : ServingState) : ServingEvent → Result ServingState
  | .other e => do
      await (x.free e = true)
      let s ← step cfg x.base e
      return { x with base := s }
  | .take src dst => do
      await ((x.serving dst).isNone = true)
      match x.base.net src dst with
      | .getp addr temp :: _ => do
          let w ← (x.base.host dst).m.takeReq cfg dst src addr temp
          return { x with serving := upd x.serving dst (some w) }
      | _ => .error .blocked
  | .turn dst =>
      match x.serving dst with
      | none => .error .blocked
      | some w => do
          let (m, stage) ← (x.base.host dst).m.serveTurn cfg dst w
          return ⟨x.base.put dst { x.base.host dst with m := m } [],
            upd x.serving dst (some { w with stage := stage })⟩
  | .answer dst =>
      match x.serving dst with
      | none => .error .blocked
      | some w => do
          let out ← w.reply
          return ⟨{ x.base with net := drop x.base.net w.src dst }.put dst (x.base.host dst) out,
            upd x.serving dst none⟩

/-- The runs of the program with the steps of `getpserver` apart. -/
def servingSystem : System ServingState ServingEvent where
  start := ⟨initState cfg, fun _ => none⟩
  next x e x' := servingStep cfg x e = .ok x'

variable {cfg}

namespace MemState

section Alone

variable {pid : Nat} {m m' : MemState} {w : Serving} {stage : Stage}

/-- The last pages, and the reply. -/
def addRest (cfg : Config) (pid : Nat) (m : MemState) (w : Serving) (wv : BitVec Wvbits)
    (pg : Page) (xs : List ExtraPage) (left : List Nat) : Result (MemState × Out) := do
  let (m, pages) ← copyPages cfg pid m left
  let out ← { w with stage := .add wv pg (xs ++ pages) [] }.reply
  return (m, out)

/-- `getpserver` from the copy of the requested page on. -/
def copyRest (cfg : Config) (pid : Nat) (m : MemState) (w : Serving) (found : List Nat) :
    Result (MemState × Out) := do
  let wv := m.sentBlocks cfg w found
  let (m, pg) ← (if wv = 0 then .ok (m, zeroPage) else m.copyPage cfg pid (cfg.pagei w.addr))
  addRest cfg pid m w wv pg [] found

/-- `getpserver` from `home[homei].rdnt = 1` on. -/
def flagRest (cfg : Config) (pid : Nat) (m : MemState) (w : Serving) : Result (MemState × Out) := do
  let (m, found) ← (m.setHome w.homei { m.home w.homei with rdnt := true }).prefetch cfg pid
    (cfg.pagei w.addr)
  copyRest cfg pid m w found

/-- The rest of a call, when nobody else runs. -/
def finish (cfg : Config) (pid : Nat) (m : MemState) (w : Serving) : Result (MemState × Out) :=
  match w.stage with
  | .twin => do
      let m ← m.renewTwin cfg pid w.homei
      flagRest cfg pid m w
  | .flag => flagRest cfg pid m w
  | .look k p found => do
      let (m, found) ← m.prefetchLoop cfg pid k p (found.length + 1) found
      copyRest cfg pid m w found
  | .copy found => copyRest cfg pid m w found
  | .add wv pg xs left => addRest cfg pid m w wv pg xs left

theorem getpserver_eq (m : MemState) (pid src : Nat) (addr : Addr) (temp : Bool) :
    m.getpserver cfg pid src addr temp =
      m.takeReq cfg pid src addr temp >>= finish cfg pid m := by
  unfold getpserver takeReq
  dsimp only
  split
  · rfl
  · simp only [bind_assoc, pure_bind]
    refine bind_congr fun _ => bind_congr fun _ => ?_
    simp only [finish, flagRest, copyRest, addRest, sentBlocks, Serving.reply, bind_assoc,
      pure_bind, List.nil_append]

/-- A step leaves the same rest to do. -/
theorem finish_turn (h : m.serveTurn cfg pid w = .ok (m', stage)) :
    m.finish cfg pid w = m'.finish cfg pid { w with stage := stage } := by
  obtain ⟨src, addr, temp, homei, now⟩ := w
  unfold serveTurn at h
  cases now with
  | twin =>
      simp only [bind_eq_ok, pure, Except.pure, Except.ok.injEq, Prod.mk.injEq] at h
      obtain ⟨m₁, htwin, rfl, rfl⟩ := h
      simp only [finish, htwin]
      rfl
  | flag =>
      dsimp only at h
      split at h
      · rename_i hpre
        simp only [pure, Except.pure, Except.ok.injEq, Prod.mk.injEq] at h
        obtain ⟨rfl, rfl⟩ := h
        simp only [finish, flagRest, prefetch, if_pos hpre]
        rfl
      · rename_i hpre
        simp only [pure, Except.pure, Except.ok.injEq, Prod.mk.injEq] at h
        obtain ⟨rfl, rfl⟩ := h
        simp only [finish, flagRest, prefetch, if_neg hpre]
        rfl
  | look k p found =>
      cases k with
      | zero =>
          simp only [pure, Except.pure, Except.ok.injEq, Prod.mk.injEq] at h
          obtain ⟨rfl, rfl⟩ := h
          rfl
      | succ k =>
          simp only [bind_eq_ok, defined_eq_ok] at h
          obtain ⟨-, hp, h⟩ := h
          simp only [finish, prefetchLoop, defined, if_pos hp]
          split at h
          · rename_i hown
            simp only [bind_eq_ok, defined_eq_ok] at h
            obtain ⟨-, hi, -, hnum, h⟩ := h
            simp only [if_pos hown, if_pos hi, if_pos hnum]
            split at h
            · rename_i hlast
              simp only [pure, Except.pure, Except.ok.injEq, Prod.mk.injEq] at h
              obtain ⟨rfl, rfl⟩ := h
              simp only [if_pos hlast]
              rfl
            · rename_i hlast
              simp only [pure, Except.pure, Except.ok.injEq, Prod.mk.injEq] at h
              obtain ⟨rfl, rfl⟩ := h
              simp only [if_neg hlast, List.length_append, List.length_singleton]
              rfl
          · rename_i haway
            simp only [pure, Except.pure, Except.ok.injEq, Prod.mk.injEq] at h
            obtain ⟨rfl, rfl⟩ := h
            simp only [if_neg haway]
            rfl
  | copy found =>
      simp only [bind_eq_ok, Prod.exists, pure, Except.pure, Except.ok.injEq, Prod.mk.injEq] at h
      obtain ⟨m₁, pg, hcopy, rfl, rfl⟩ := h
      simp only [finish, copyRest, hcopy]
      rfl
  | add wv pg xs left =>
      cases left with
      | nil => cases h
      | cons q left =>
          simp only [bind_eq_ok, Prod.exists, pure, Except.pure, Except.ok.injEq,
            Prod.mk.injEq] at h
          obtain ⟨m₁, data, hcopy, rfl, rfl⟩ := h
          simp only [finish, addRest, copyPages, hcopy, bind_assoc, pure_bind, List.append_assoc,
            List.singleton_append]
          rfl

/-- The steps a call can still take, at most. -/
def turnsLeft (cfg : Config) (w : Serving) : Nat :=
  match w.stage with
  | .twin => 2 * cfg.maxCheckingPages.toNat + 5
  | .flag => 2 * cfg.maxCheckingPages.toNat + 4
  | .look k _ found => 2 * k + found.length + 3
  | .copy found => found.length + 2
  | .add _ _ _ left => left.length + 1

/-- A call that is defined to its end takes a step, or has the reply. -/
theorem exists_serveTurn {r : MemState × Out} (h : m.finish cfg pid w = .ok r) :
    (∃ m' stage, m.serveTurn cfg pid w = .ok (m', stage) ∧
      turnsLeft cfg { w with stage := stage } < turnsLeft cfg w) ∨
      (r.1 = m ∧ w.reply = .ok r.2) := by
  obtain ⟨src, addr, temp, homei, stage⟩ := w
  cases stage with
  | twin =>
      simp only [finish, bind_eq_ok] at h
      obtain ⟨m₁, htwin, -⟩ := h
      refine Or.inl ⟨m₁, .flag, ?_, ?_⟩
      · simp only [serveTurn, htwin]
        rfl
      · simp only [turnsLeft]
        omega
  | flag =>
      left
      by_cases hpre : cfg.prefetchFlag = true ∧ cfg.prefetchPages ≠ 0
      · refine ⟨_, _, if_pos hpre, ?_⟩
        simp only [turnsLeft, List.length_nil]
        omega
      · refine ⟨_, _, if_neg hpre, ?_⟩
        simp only [turnsLeft, List.length_nil]
        omega
  | look k p found =>
      left
      cases k with
      | zero =>
          refine ⟨_, _, rfl, ?_⟩
          simp only [turnsLeft]
          omega
      | succ k =>
          simp only [finish, prefetchLoop, bind_assoc, bind_eq_ok, defined_eq_ok] at h
          obtain ⟨-, hp, h⟩ := h
          by_cases hown : (m.page p).homepid = pid ∧
              ((found.length + 1 : Nat) : Int) < cfg.maxCheckingPages + 1
          · rw [if_pos hown] at h
            simp only [bind_eq_ok, defined_eq_ok] at h
            obtain ⟨r₁, ⟨-, hi, -, hnum, -⟩, -⟩ := h
            have hturn : m.serveTurn cfg pid ⟨src, addr, temp, homei, .look (k + 1) p found⟩ =
                if ((found.length + 1 + 1 : Nat) : Int) = cfg.prefetchPages + 1 then
                  .ok (m.setHome (m.page p).homei { m.home (m.page p).homei with rdnt := true },
                    .copy (found ++ [p]))
                else
                  .ok (m.setHome (m.page p).homei { m.home (m.page p).homei with rdnt := true },
                    .look k (p + 1) (found ++ [p])) := by
              simp only [serveTurn, defined, if_pos hp, if_pos hown, if_pos hi, if_pos hnum]
              rfl
            by_cases hlast : ((found.length + 1 + 1 : Nat) : Int) = cfg.prefetchPages + 1
            · refine ⟨_, _, hturn.trans (if_pos hlast), ?_⟩
              simp only [turnsLeft, List.length_append, List.length_singleton]
              omega
            · refine ⟨_, _, hturn.trans (if_neg hlast), ?_⟩
              simp only [turnsLeft, List.length_append, List.length_singleton]
              omega
          · refine ⟨m, .look k (p + 1) found, ?_, ?_⟩
            · simp only [serveTurn, defined, if_pos hp, if_neg hown]
              rfl
            · simp only [turnsLeft]
              omega
  | copy found =>
      left
      simp only [finish, copyRest, bind_eq_ok] at h
      obtain ⟨⟨m₁, pg⟩, hcopy, -⟩ := h
      refine ⟨m₁, .add (m.sentBlocks cfg ⟨src, addr, temp, homei, .copy found⟩ found) pg [] found,
        ?_, ?_⟩
      · simp only [serveTurn, hcopy]
        rfl
      · simp only [turnsLeft]
        omega
  | add wv pg xs left =>
      cases left with
      | nil =>
          right
          simp only [finish, addRest, copyPages, bind_eq_ok, pure, Except.pure, Except.ok.injEq] at h
          obtain ⟨⟨m₁, pages⟩, hnil, out, hout, rfl⟩ := h
          obtain ⟨rfl, rfl⟩ := Prod.mk.inj hnil
          rw [List.append_nil] at hout
          exact ⟨rfl, hout⟩
      | cons q left =>
          left
          simp only [finish, addRest, copyPages, bind_assoc, bind_eq_ok] at h
          obtain ⟨⟨m₁, data⟩, hcopy, -⟩ := h
          refine ⟨m₁, .add wv pg (xs ++ [⟨cfg.pageAddr q, data⟩]) left, ?_, ?_⟩
          · simp only [serveTurn, hcopy]
            rfl
          · simp only [turnsLeft, List.length_cons]
            omega

/-- Steps of a call that nothing comes between. -/
def Turns (cfg : Config) (pid : Nat) : MemState × Serving → MemState × Serving → Prop :=
  Relation.ReflTransGen fun x y =>
    ∃ stage, x.1.serveTurn cfg pid x.2 = .ok (y.1, stage) ∧ y.2 = { x.2 with stage := stage }

theorem finish_turns {x y : MemState × Serving} (h : Turns cfg pid x y) :
    x.1.finish cfg pid x.2 = y.1.finish cfg pid y.2 := by
  induction h with
  | refl => rfl
  | tail _ hturn ih =>
      obtain ⟨stage, hturn, heq⟩ := hturn
      rw [ih, finish_turn hturn, heq]

theorem finish_reply {out : Out} (h : w.reply = .ok out) :
    m.finish cfg pid w = .ok (m, out) := by
  obtain ⟨src, addr, temp, homei, stage⟩ := w
  cases stage with
  | add wv pg xs left =>
      cases left with
      | nil =>
          simp only [finish, addRest, copyPages, bind_eq_ok, Except.ok.injEq]
          refine ⟨_, rfl, out, ?_, rfl⟩
          rw [List.append_nil]
          exact h
      | cons q left => cases h
  | _ => cases h

theorem exists_serveTurns {r : MemState × Out} (h : m.finish cfg pid w = .ok r) :
    ∃ w', Turns cfg pid (m, w) (r.1, w') ∧ w'.reply = .ok r.2 := by
  obtain ⟨n, hn⟩ : ∃ n, turnsLeft cfg w = n := ⟨_, rfl⟩
  induction n using Nat.strong_induction_on generalizing m w with
  | _ n ih =>
      rcases exists_serveTurn h with ⟨m₁, stage, hturn, hlt⟩ | ⟨hm, hreply⟩
      · rw [finish_turn hturn] at h
        obtain ⟨w', hturns, hreply⟩ := ih _ (hn ▸ hlt) h rfl
        exact ⟨w', hturns.head ⟨stage, hturn, rfl⟩, hreply⟩
      · exact ⟨w, hm ▸ .refl, hreply⟩

/-- With nothing in between, the steps are `getpserver`. -/
theorem getpserver_iff_turns {src : Nat} {addr : Addr} {temp : Bool} {out : Out} :
    m.getpserver cfg pid src addr temp = .ok (m', out) ↔
      ∃ w w', m.takeReq cfg pid src addr temp = .ok w ∧ Turns cfg pid (m, w) (m', w') ∧
        w'.reply = .ok out := by
  rw [getpserver_eq, bind_eq_ok]
  constructor
  · rintro ⟨w, hw, hfinish⟩
    obtain ⟨w', hturns, hreply⟩ := exists_serveTurns hfinish
    exact ⟨w, w', hw, hturns, hreply⟩
  · rintro ⟨w, w', hw, hturns, hreply⟩
    exact ⟨w, hw, (finish_turns hturns).trans (finish_reply hreply)⟩

end Alone

end MemState

/-! ## The pages of a call -/

/-- A call under way on host `pid` is about a page with its home there, and has put pages into
`addr[]` only. -/
structure Serving.Ok (cfg : Config) (pid : Nat) (m : MemState) (w : Serving) : Prop where
  own : m.homehost cfg w.addr = pid
  homei : w.homei = m.homepage cfg w.addr
  page : cfg.IsPage w.addr
  addrs : ∀ a ∈ w.addrs cfg, cfg.IsPage a

theorem Serving.Ok.congr {pid : Nat} {m m' : MemState} {w : Serving} (hw : w.Ok cfg pid m)
    (hpid : ∀ p, (m'.page p).homepid = (m.page p).homepid)
    (hidx : ∀ p, (m'.page p).homei = (m.page p).homei) : w.Ok cfg pid m' where
  own := (hpid _).trans hw.own
  homei := hw.homei.trans (hidx _).symm
  page := hw.page
  addrs := hw.addrs

/-- What a step does to the tables, and which pages it puts into `addr[]`. -/
structure Turned (cfg : Config) (pid : Nat) (m : MemState) (w : Serving) (m' : MemState)
    (stage : Stage) : Prop where
  flagged : MemState.Flagged m m'
  addrs : ∀ a ∈ { w with stage := stage }.addrs cfg, a ∈ w.addrs cfg ∨
    (cfg.IsPage a ∧ m.homehost cfg a = pid ∧ m'.rdnt (cfg.pagei a) = true)

namespace MemState

section Turns

variable {pid : Nat} {m m' : MemState} {w : Serving} {stage : Stage}

theorem takeReq_ok {src : Nat} {addr : Addr} {temp : Bool}
    (h : m.takeReq cfg pid src addr temp = .ok w) :
    m.homehost cfg addr = pid ∧ w = ⟨src, addr, temp, m.homepage cfg addr, .twin⟩ := by
  unfold takeReq at h
  split at h
  · cases h
  · simp only [bind_eq_ok, jiaAssert_eq_ok, defined_eq_ok, pure, Except.pure, Except.ok.injEq] at h
    obtain ⟨-, hown, -, -, rfl⟩ := h
    exact ⟨hown, rfl⟩

theorem Turned.ok (hturn : Turned cfg pid m w m' stage) (hw : w.Ok cfg pid m) :
    { w with stage := stage }.Ok cfg pid m' := by
  have hok := hw.congr hturn.flagged.homepid hturn.flagged.homei
  refine ⟨hok.own, hok.homei, hok.page, ?_⟩
  intro a ha
  rcases hturn.addrs a ha with hold | ⟨hpage, -, -⟩
  · exact hw.addrs a hold
  · exact hpage

end Turns

end MemState

/-! ## Runs with the handler in one step -/

section Whole

variable {s : State} {dst : Nat} {w : Serving}

theorem put_self (s : State) (i : Nat) : s.put i (s.host i) [] = s := by
  simp [State.put]

theorem put_put (s : State) (i : Nat) (h h' : Host) (out : Out) :
    (s.put i h []).put i h' out = s.put i h' out := by
  simp [State.put]

theorem put_drop (s : State) (src i : Nat) (h h' : Host) (out : Out) :
    ({ s.put i h [] with net := drop (s.put i h []).net src i } : State).put i h' out =
      { s with net := drop s.net src i }.put i h' out := by
  simp [State.put]

/-- The steps of one call, with nothing in between. -/
theorem reach_turns {serving : Nat → Option Serving} {y : MemState × Serving}
    (hx : (servingSystem cfg).Reach ⟨s, upd serving dst (some w)⟩)
    (h : MemState.Turns cfg dst ((s.host dst).m, w) y) :
    y.2.src = w.src ∧ (servingSystem cfg).Reach
      ⟨s.put dst { s.host dst with m := y.1 } [], upd serving dst (some y.2)⟩ := by
  induction h with
  | refl =>
      refine ⟨rfl, ?_⟩
      rw [put_self]
      exact hx
  | @tail y z _ hturn ih =>
      obtain ⟨stage, hturn, heq⟩ := hturn
      obtain ⟨hsrc, hreach⟩ := ih
      rw [heq]
      refine ⟨hsrc, hreach.step (e := .turn dst) ?_⟩
      change servingStep cfg _ _ = _
      simp only [servingStep, upd_same, State.put_host_same, hturn, put_put, upd_upd]
      rfl

/-- Every run with `getpserver` in one step is a run with its steps apart. -/
theorem reach_servingSystem (hs : (system cfg).Reach s) :
    (servingSystem cfg).Reach ⟨s, fun _ => none⟩ := by
  induction hs with
  | start => exact .start
  | @step s s' e _ hnext ih =>
      -- a step that is no call of `getpserver` is the same step
      have hother : (⟨s, fun _ => none⟩ : ServingState).free e = true →
          (servingSystem cfg).Reach ⟨s', fun _ => none⟩ := by
        intro hfree
        refine ih.step (e := .other e) ?_
        change servingStep cfg _ _ = _
        have hstep : step cfg s e = .ok s' := hnext
        simp only [servingStep, await, hfree, if_true, hstep]
        rfl
      rcases step_view hnext with ⟨i, a, hst, out, rfl, -, -, -, -⟩ |
        ⟨src, dst, rnd, msg, rest, hst, out, rfl, hnet, hm, -, rfl⟩
      · exact hother rfl
      · cases hm with
        | @getp addr temp m out hm =>
            obtain ⟨w, w', htake, hturns, hreply⟩ := MemState.getpserver_iff_turns.mp hm
            have htaken : (servingSystem cfg).Reach
                ⟨s, upd (fun _ => none) dst (some w)⟩ := by
              refine ih.step (e := .take src dst) ?_
              change servingStep cfg _ _ = _
              simp only [servingStep, await, Option.isNone_none, if_true, hnet, htake]
              rfl
            obtain ⟨hsrc, hreach⟩ := reach_turns htaken hturns
            have hwsrc : w.src = src := by
              obtain ⟨-, rfl⟩ := MemState.takeReq_ok htake
              rfl
            refine hreach.step (e := .answer dst) ?_
            change servingStep cfg _ _ = _
            have hidle : upd (fun _ => none) dst none = (fun _ => none : Nat → Option Serving) :=
              upd_eq_self (fun _ => none) dst
            have hw' : w'.src = src := hsrc.trans hwsrc
            simp only [servingStep, upd_same, hreply, upd_upd, hidle, hw', State.put_host_same,
              put_drop]
            rfl
        | _ =>
            refine hother ?_
            simp [ServingState.free, hnet, Msg.isGetp]

end Whole

end Jiajia
