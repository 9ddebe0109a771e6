import Jiajia.Global
import Jiajia.MsgBuffer
import Mathlib.Data.Finset.Dedup

/-!
# Message slots while an interval ends

`savediff` takes one slot of the message buffer for each home and keeps it until `senddiffs`;
beside it the server thread takes a slot for every reply.  A page is its home and the size of
its diff.
-/

namespace Jiajia.SlotWait

open Transition MsgBuffer

/-- The two threads of a host that use the message buffer. -/
inductive Party
  | main
  | server
deriving DecidableEq

/-- A written page of the cache: `encodediff` writes its diff into an array of `Maxmsgsize`
bytes. -/
structure DirtyPage (hostc : Nat) where
  home : Nat
  size : Nat
  home_lt : home < hostc
  size_le : size ≤ Maxmsgsize

/-- A DIFF message in the making. -/
structure Pending where
  slot : Nat
  size : Nat
deriving DecidableEq

/-- Where the main thread is. -/
inductive MainPc
  /-- In the loop of `endinterval`, before the first page that is left. -/
  | scan
  /-- In `freemsg_lock`, for the home of that page. -/
  | locking
  /-- In `savediff`, at `while (diffwait)`. -/
  | waiting
  /-- In `senddiffs`, before host `hosti`. -/
  | send (hosti : Nat)
  /-- In `freemsg_unlock`, for the message of host `hosti`. -/
  | unlocking (hosti : Nat)
  /-- In `endinterval`, at `while (diffwait)`. -/
  | final
  | done
deriving DecidableEq

/-- Where the server thread is. -/
inductive ServerPc
  | idle
  /-- A handler is in `freemsg_lock`. -/
  | locking
  /-- It has filled the slot and moved the message to the output queue. -/
  | replied
  | unlocking
deriving DecidableEq

structure Interval (hostc : Nat) where
  buf : Buffer Party
  left : List (DirtyPage hostc)
  main : MainPc
  server : ServerPc
  diffmsg : Nat → Option Pending
  diffwait : Nat
  /-- DIFF messages sent whose acknowledgement is not handled. -/
  flying : Nat

variable {hostc : Nat}

/-- One step inside `freemsg_lock`, with the slot once it is found. -/
def freemsgLock (buf : Buffer Party) (t : Party) : Result (Buffer Party × Option Nat) :=
  match (buf.thread t).pc with
  | .idle =>
      match step buf t .semWait with
      | some buf' => .ok (buf', none)
      | none => .error .blocked
  | .scan i =>
      match step buf t .compareExchange with
      | some buf' => .ok (buf', if (buf'.thread t).pc = .idle then some i else none)
      | none => .error .blocked
  | .post | .null _ => .error (.undefined "slot->msg")

/-- One step inside `freemsg_unlock`. -/
def bufferStep (buf : Buffer Party) (t : Party) (a : Action) : Result (Buffer Party) :=
  match step buf t a with
  | some buf' => .ok buf'
  | none => .error .blocked

/-- `savediff` for the first page left, when its home has a message.  If the diff does not fit,
`slot` is enqueued, which has not been set in this call: it may be the message of a home or
anything else. -/
def savediff (s : Interval hostc) (d : DirtyPage hostc) (rest : List (DirtyPage hostc))
    (e : Pending) (slot : Option Nat) : Interval hostc :=
  if Maxmsgsize < e.size + d.size then
    { s with
      left := rest, main := .waiting, diffwait := s.diffwait + 1
      flying := if slot.any fun k => (s.diffmsg k).isSome then s.flying + 1 else s.flying
      diffmsg := Function.update s.diffmsg d.home (some ⟨e.slot, d.size⟩) }
  else
    { s with
      left := rest
      diffmsg := Function.update s.diffmsg d.home (some ⟨e.slot, e.size + d.size⟩) }

/-- `freemsg_lock` in `savediff`; the diff fits into the empty message. -/
def lockStep (s : Interval hostc) (d : DirtyPage hostc) (rest : List (DirtyPage hostc)) :
    Result (Interval hostc) := do
  let (buf, found) ← freemsgLock s.buf .main
  match found with
  | none => return { s with buf := buf }
  | some i =>
      return { s with
        buf := buf, left := rest, main := .scan
        diffmsg := Function.update s.diffmsg d.home (some ⟨i, d.size⟩) }

def mainStep (s : Interval hostc) (slot : Option Nat) : Result (Interval hostc) :=
  match s.main, s.left with
  | .scan, [] => .ok { s with main := .send 0 }
  | .scan, d :: rest =>
      match s.diffmsg d.home with
      | none => .ok { s with main := .locking }
      | some e => .ok (savediff s d rest e slot)
  | .locking, d :: rest => lockStep s d rest
  | .waiting, _ => do
      await (s.diffwait = 0)
      return { s with main := .scan }
  | .send k, _ =>
      if k < hostc then
        match s.diffmsg k with
        | none => .ok { s with main := .send (k + 1) }
        | some e =>
            if 0 < e.size then do
              let buf ← bufferStep s.buf .main (.storeFree e.slot)
              return { s with
                buf := buf, main := .unlocking k, diffwait := s.diffwait + 1
                flying := s.flying + 1 }
            else
              .ok { s with
                main := .send (k + 1), diffmsg := Function.update s.diffmsg k none }
      else .ok { s with main := .final }
  | .unlocking k, _ => do
      let buf ← bufferStep s.buf .main .semPost
      return { s with
        buf := buf, main := .send (k + 1), diffmsg := Function.update s.diffmsg k none }
  | .final, _ => do
      await (s.diffwait = 0)
      return { s with main := .done }
  | .locking, [] | .done, _ => .error .blocked

/-- A handler that replies. -/
def serveStep (s : Interval hostc) : Result (Interval hostc) :=
  match s.server with
  | .idle => .ok { s with server := .locking }
  | .locking => do
      let (buf, found) ← freemsgLock s.buf .server
      return { s with buf := buf, server := if found.isSome then .replied else .locking }
  | .replied =>
      match (s.buf.thread .server).held with
      | [] => .error (.undefined "slot")
      | i :: _ => do
          let buf ← bufferStep s.buf .server (.storeFree i)
          return { s with buf := buf, server := .unlocking }
  | .unlocking => do
      let buf ← bufferStep s.buf .server .semPost
      return { s with buf := buf, server := .idle }

inductive Event
  /-- The main thread goes on; `slot` is what the variable holds if it was not set. -/
  | main (slot : Option Nat)
  /-- The server thread handles a message that it replies to, or goes on with it. -/
  | serve
  /-- `diffgrantserver`. -/
  | grant

def intervalStep (s : Interval hostc) : Event → Result (Interval hostc)
  | .main slot => mainStep s slot
  | .serve => serveStep s
  | .grant =>
      if s.server = .idle ∧ 0 < s.flying then
        .ok { s with flying := s.flying - 1, diffwait := s.diffwait - 1 }
      else .error .blocked

/-- `endinterval` with these written pages, in the order of the cache. -/
def interval (msgBufferSize : Int) (pages : List (DirtyPage hostc)) :
    System (Interval hostc) Event where
  start := ⟨initMsgBuffer msgBufferSize msgBufferSize, pages, .scan, .idle, fun _ => none, 0, 0⟩
  next s e s' := intervalStep s e = .ok s'

/-! ## Starvation -/

/-- Every slot of the buffer is a pending DIFF message. -/
def AllPending (s : Interval hostc) : Prop :=
  ∀ i < s.buf.size, ∃ k e, s.diffmsg k = some e ∧ e.slot = i

/-- The thread is in `sem_wait` and cannot go on. -/
def Waits (s : Interval hostc) (t : Party) : Prop :=
  (s.buf.thread t).pc = .idle ∧ s.buf.count = 0

/-- The main thread waits for a slot that only itself could free. -/
def MainStarves (s : Interval hostc) : Prop :=
  s.main = .locking ∧ Waits s .main ∧ AllPending s

/-- A handler waits for a slot that only the main thread could free, which waits for the server
thread. -/
def ServerStarves (s : Interval hostc) : Prop :=
  s.server = .locking ∧ Waits s .server ∧ AllPending s ∧
    (s.main = .waiting ∨ s.main = .final) ∧ 0 < s.diffwait

def Starves (s : Interval hostc) : Prop := MainStarves s ∨ ServerStarves s

/-! ## What the pages need -/

/-- The homes of the pages. -/
def homes (pages : List (DirtyPage hostc)) : Finset Nat := (pages.map DirtyPage.home).toFinset

/-- The size of a message after one more page of its home. -/
def grow (size : Nat) (d : DirtyPage hostc) : Nat :=
  if Maxmsgsize < size + d.size then d.size else size + d.size

/-- The size of the message for home `k` once the pages are saved. -/
def fill (pages : List (DirtyPage hostc)) (k : Nat) : Nat :=
  (pages.filter fun d => d.home = k).foldl grow 0

/-- The page needs a slot, or its message to be sent, after the pages `pre`. -/
def Needs (pre : List (DirtyPage hostc)) (d : DirtyPage hostc) : Prop :=
  d.home ∉ homes pre ∨ Maxmsgsize < fill pre d.home + d.size

instance (pre : List (DirtyPage hostc)) (d : DirtyPage hostc) : Decidable (Needs pre d) :=
  inferInstanceAs (Decidable (_ ∨ _))

/-- Whenever a page needs a slot, or its message to be sent, the pages before it have fewer
homes than there are slots. -/
def Roomy (msgBufferSize : Nat) (pages : List (DirtyPage hostc)) : Prop :=
  ∀ (n : Nat) (hn : n < pages.length), Needs (pages.take n) (pages.get ⟨n, hn⟩) →
    (homes (pages.take n)).card < msgBufferSize

instance (msgBufferSize : Nat) (pages : List (DirtyPage hostc)) :
    Decidable (Roomy msgBufferSize pages) :=
  inferInstanceAs (Decidable (∀ (n : Nat) (_ : n < pages.length), _ → _))

/-! ## Homes and messages, page by page -/

theorem homes_append (pre : List (DirtyPage hostc)) (d : DirtyPage hostc) :
    homes (pre ++ [d]) = insert d.home (homes pre) := by
  ext k
  rw [homes, homes, List.mem_toFinset, Finset.mem_insert, List.mem_toFinset, List.map_append,
    List.mem_append, List.map_singleton, List.mem_singleton, or_comm]

theorem home_lt_of_mem {pages : List (DirtyPage hostc)} {k : Nat} (h : k ∈ homes pages) :
    k < hostc := by
  rw [homes, List.mem_toFinset, List.mem_map] at h
  obtain ⟨d, _, hd⟩ := h
  exact hd ▸ d.home_lt

theorem fill_append (pre : List (DirtyPage hostc)) (d : DirtyPage hostc) (k : Nat) :
    fill (pre ++ [d]) k = if d.home = k then grow (fill pre k) d else fill pre k := by
  rw [fill, List.filter_append, List.foldl_append]
  by_cases hk : d.home = k
  · rw [if_pos hk, List.filter_singleton, decide_eq_true hk]
    rfl
  · rw [if_neg hk, List.filter_singleton, decide_eq_false hk]
    rfl

theorem fill_of_notMem {pre : List (DirtyPage hostc)} {k : Nat} (h : k ∉ homes pre) :
    fill pre k = 0 := by
  have hnone : pre.filter (fun d => d.home = k) = [] := by
    rw [List.filter_eq_nil_iff]
    intro d hd hk
    apply h
    rw [homes, List.mem_toFinset, List.mem_map]
    exact ⟨d, hd, of_decide_eq_true hk⟩
  rw [fill, hnone, List.foldl_nil]

theorem grow_zero (d : DirtyPage hostc) : grow 0 d = d.size := by
  rw [grow, Nat.zero_add, if_neg (Nat.not_lt.mpr d.size_le)]

theorem Roomy.card_lt {B : Nat} {pre rest : List (DirtyPage hostc)} {d : DirtyPage hostc}
    (h : Roomy B (pre ++ d :: rest)) (hneeds : Needs pre d) : (homes pre).card < B := by
  have hlen : pre.length < (pre ++ d :: rest).length := by
    rw [List.length_append, List.length_cons]
    omega
  have hpre : (pre ++ d :: rest).take pre.length = pre := List.take_left
  have hget : (pre ++ d :: rest).get ⟨pre.length, hlen⟩ = d := by
    rw [List.get_eq_getElem, List.getElem_append_right (Nat.le_refl _)]
    simp
  have hroom := h pre.length hlen
  rw [hpre, hget] at hroom
  exact hroom hneeds

/-! ## The invariant -/

/-- The hosts that `senddiffs` has passed. -/
def MainPc.passed (hostc : Nat) : MainPc → Nat
  | .send k | .unlocking k => k
  | .final | .done => hostc
  | _ => 0

/-- The pages `pre` are saved. -/
structure Saved (B : Nat) (pre : List (DirtyPage hostc)) (s : Interval hostc) : Prop where
  entries : ∀ k, (s.diffmsg k).map Pending.size =
    if k ∈ homes pre ∧ s.main.passed hostc ≤ k then some (fill pre k) else none
  locking : s.main = .locking → ∃ d rest, s.left = d :: rest ∧ d.home ∉ homes pre
  waiting : s.main = .waiting → (homes pre).card < B

structure Inv (B : Nat) (pages : List (DirtyPage hostc)) (s : Interval hostc) : Prop where
  size : s.buf.size = B
  saved : ∃ pre, pages = pre ++ s.left ∧ Saved B pre s

section Steps

variable {B : Nat} {pages pre : List (DirtyPage hostc)} {s s' : Interval hostc}

theorem Saved.mem_homes (h : Saved B pre s) {k : Nat} {e : Pending} (he : s.diffmsg k = some e) :
    k ∈ homes pre := by
  have hentry := h.entries k
  rw [he, Option.map_some] at hentry
  by_contra hk
  rw [if_neg fun hcon => hk hcon.1] at hentry
  cases hentry

theorem Saved.size_eq (h : Saved B pre s) {k : Nat} {e : Pending} (he : s.diffmsg k = some e) :
    e.size = fill pre k := by
  have hentry := h.entries k
  rw [he, Option.map_some] at hentry
  split at hentry
  · exact Option.some.inj hentry
  · cases hentry

/-- A step that leaves the main thread where it is. -/
theorem Saved.keep (h : Saved B pre s) (hdiffmsg : s'.diffmsg = s.diffmsg)
    (hmain : s'.main = s.main) (hleft : s'.left = s.left) : Saved B pre s' := by
  constructor
  · rw [hdiffmsg, hmain]
    exact h.entries
  · rw [hmain, hleft]
    exact h.locking
  · rw [hmain]
    exact h.waiting

/-- The main thread goes on, with the same homes ahead. -/
theorem Saved.move (h : Saved B pre s) {pc : MainPc} (hmain : s.main = pc)
    (hdiffmsg : s'.diffmsg = s.diffmsg) (hpassed : s'.main.passed hostc = pc.passed hostc)
    (hlocking : s'.main ≠ .locking) (hwaiting : s'.main ≠ .waiting) : Saved B pre s' := by
  refine ⟨?_, fun hcon => absurd hcon hlocking, fun hcon => absurd hcon hwaiting⟩
  rw [hdiffmsg, hpassed, ← hmain]
  exact h.entries

theorem bufferStep_size {buf buf' : Buffer Party} {t : Party} {a : Action}
    (h : bufferStep buf t a = .ok buf') : buf'.size = buf.size := by
  unfold bufferStep at h
  split at h
  · rename_i hstep
    rw [Except.ok.injEq] at h
    exact h ▸ (step_moves hstep).size
  · cases h

theorem freemsgLock_size {buf buf' : Buffer Party} {t : Party} {found : Option Nat}
    (h : freemsgLock buf t = .ok (buf', found)) : buf'.size = buf.size := by
  unfold freemsgLock at h
  split at h
  · split at h
    · rename_i hstep
      rw [Except.ok.injEq, Prod.mk.injEq] at h
      exact h.1 ▸ (step_moves hstep).size
    · cases h
  · split at h
    · rename_i hstep
      rw [Except.ok.injEq, Prod.mk.injEq] at h
      exact h.1 ▸ (step_moves hstep).size
    · cases h
  · cases h
  · cases h

/-- The entry of a page's home after the page. -/
theorem Saved.entries_append (h : Saved B pre s) (hmain : s.main.passed hostc = 0)
    (d : DirtyPage hostc) {e : Pending} (he : e.size = grow (fill pre d.home) d) (k : Nat) :
    (Function.update s.diffmsg d.home (some e) k).map Pending.size =
      if k ∈ homes (pre ++ [d]) then some (fill (pre ++ [d]) k) else none := by
  have hmem : k ∈ homes (pre ++ [d]) ↔ k = d.home ∨ k ∈ homes pre := by
    rw [homes_append, Finset.mem_insert]
  rw [fill_append]
  by_cases hk : k = d.home
  · subst hk
    rw [Function.update_self, if_pos (hmem.mpr (.inl rfl)), if_pos rfl, Option.map_some, he]
  · have hentry := h.entries k
    rw [hmain] at hentry
    rw [Function.update_of_ne hk, if_neg (Ne.symm hk), hentry]
    by_cases hold : k ∈ homes pre
    · rw [if_pos ⟨hold, Nat.zero_le k⟩, if_pos (hmem.mpr (.inr hold))]
    · rw [if_neg fun hcon => hold hcon.1, if_neg fun hcon => (hmem.mp hcon).elim hk hold]

theorem Inv.savediff (hsize : s.buf.size = B) {d : DirtyPage hostc}
    {rest : List (DirtyPage hostc)} (hpages : pages = pre ++ d :: rest) (hs : Saved B pre s)
    (hroom : Roomy B pages) (hmain : s.main = .scan) {e : Pending}
    (he : s.diffmsg d.home = some e) (slot : Option Nat) :
    Inv B pages (savediff s d rest e slot) := by
  have hfill := hs.size_eq he
  have hpassed : s.main.passed hostc = 0 := by rw [hmain]; rfl
  have hsplit : pages = (pre ++ [d]) ++ rest := by
    rw [hpages, List.append_assoc, List.singleton_append]
  unfold SlotWait.savediff
  by_cases hfit : Maxmsgsize < e.size + d.size
  · rw [if_pos hfit]
    have hneeds : Needs pre d := .inr (hfill ▸ hfit)
    refine ⟨hsize, pre ++ [d], hsplit, ?_, nofun, fun _ => ?_⟩
    · intro k
      have hgrow : d.size = grow (fill pre d.home) d := by rw [grow, ← hfill, if_pos hfit]
      rw [hs.entries_append hpassed d (e := ⟨e.slot, d.size⟩) hgrow k]
      simp only [MainPc.passed, Nat.zero_le, and_true]
    · rw [homes_append, Finset.insert_eq_of_mem (hs.mem_homes he)]
      exact (hpages ▸ hroom).card_lt hneeds
  · rw [if_neg hfit]
    refine ⟨hsize, pre ++ [d], hsplit, ?_, fun hcon => ?_, fun hcon => ?_⟩
    · intro k
      have hgrow : e.size + d.size = grow (fill pre d.home) d := by
        rw [grow, ← hfill, if_neg hfit]
      rw [hs.entries_append hpassed d (e := ⟨e.slot, e.size + d.size⟩) hgrow k]
      simp only [hpassed, Nat.zero_le, and_true]
    · rw [hmain] at hcon
      cases hcon
    · rw [hmain] at hcon
      cases hcon

theorem Inv.lockStep (hsize : s.buf.size = B) {d : DirtyPage hostc}
    {rest : List (DirtyPage hostc)} (hleft : s.left = d :: rest) (hpages : pages = pre ++ s.left)
    (hs : Saved B pre s) (hmain : s.main = .locking) (hstep : lockStep s d rest = .ok s') :
    Inv B pages s' := by
  rw [SlotWait.lockStep, bind_eq_ok] at hstep
  obtain ⟨⟨buf, found⟩, hlock, hstep⟩ := hstep
  have hbuf : buf.size = B := (freemsgLock_size hlock).trans hsize
  cases found with
  | none =>
      obtain rfl := Except.ok.inj hstep
      exact ⟨hbuf, pre, hpages, hs.keep rfl rfl rfl⟩
  | some i =>
      obtain rfl := Except.ok.inj hstep
      obtain ⟨d', rest', hleft', hnew⟩ := hs.locking hmain
      rw [hleft, List.cons.injEq] at hleft'
      obtain ⟨rfl, rfl⟩ := hleft'
      have hsplit : pages = (pre ++ [d]) ++ rest := by
        rw [hpages, hleft, List.append_assoc, List.singleton_append]
      refine ⟨hbuf, pre ++ [d], hsplit, fun k => ?_, nofun, nofun⟩
      have hpassed : s.main.passed hostc = 0 := by rw [hmain]; rfl
      have hgrow : d.size = grow (fill pre d.home) d := by rw [fill_of_notMem hnew, grow_zero]
      rw [hs.entries_append hpassed d (e := ⟨i, d.size⟩) hgrow k]
      simp only [MainPc.passed, Nat.zero_le, and_true]

/-- `senddiffs` goes from host `k` to the next one. -/
theorem Saved.send (h : Saved B pre s) {k : Nat} (hmain : s.main.passed hostc = k)
    (hsend : s'.main = .send (k + 1)) (hdiffmsg : s'.diffmsg = Function.update s.diffmsg k none) :
    Saved B pre s' := by
  refine ⟨fun j => ?_, fun hcon => ?_, fun hcon => ?_⟩
  · rw [hdiffmsg, hsend]
    show _ = if j ∈ homes pre ∧ k + 1 ≤ j then _ else _
    by_cases hj : j = k
    · subst hj
      rw [Function.update_self, if_neg fun hcon => by omega]
      rfl
    · rw [Function.update_of_ne hj, h.entries j, hmain]
      have hle : k ≤ j ↔ k + 1 ≤ j := by omega
      simp only [hle]
  · rw [hsend] at hcon
    cases hcon
  · rw [hsend] at hcon
    cases hcon

theorem Inv.main (h : Inv B pages s) (hroom : Roomy B pages) {slot : Option Nat}
    (hstep : mainStep s slot = .ok s') : Inv B pages s' := by
  obtain ⟨hsize, pre, hpages, hs⟩ := h
  cases hmain : s.main with
  | scan =>
      cases hleft : s.left with
      | nil =>
          simp only [mainStep, hmain, hleft, Except.ok.injEq] at hstep
          subst hstep
          rw [hleft] at hpages
          exact ⟨hsize, pre, hpages, hs.move hmain rfl rfl (by simp) (by simp)⟩
      | cons d rest =>
          rw [hleft] at hpages
          cases he : s.diffmsg d.home with
          | none =>
              simp only [mainStep, hmain, hleft, he, Except.ok.injEq] at hstep
              subst hstep
              have hentry := hs.entries
              rw [hmain] at hentry
              refine ⟨hsize, pre, hpages, ⟨hentry, fun _ => ⟨d, rest, rfl, fun hmem => ?_⟩, by simp⟩⟩
              have hold := hentry d.home
              rw [he, if_pos ⟨hmem, Nat.zero_le _⟩] at hold
              cases hold
          | some e =>
              simp only [mainStep, hmain, hleft, he, Except.ok.injEq] at hstep
              exact hstep ▸ Inv.savediff hsize hpages hs hroom hmain he slot
  | locking =>
      cases hleft : s.left with
      | nil =>
          simp only [mainStep, hmain, hleft] at hstep
          cases hstep
      | cons d rest =>
          simp only [mainStep, hmain, hleft] at hstep
          exact Inv.lockStep hsize hleft hpages hs hmain hstep
  | waiting =>
      simp only [mainStep, hmain, bind_eq_ok] at hstep
      obtain ⟨_, _, hstep⟩ := hstep
      obtain rfl := Except.ok.inj hstep
      exact ⟨hsize, pre, hpages, hs.move hmain rfl rfl (by simp) (by simp)⟩
  | send k =>
      have hpassed : s.main.passed hostc = k := by rw [hmain]; rfl
      simp only [mainStep, hmain] at hstep
      by_cases hk : k < hostc
      · rw [if_pos hk] at hstep
        cases he : s.diffmsg k with
        | none =>
            simp only [he, Except.ok.injEq] at hstep
            subst hstep
            have hsame : s.diffmsg = Function.update s.diffmsg k none := by
              rw [← he, Function.update_eq_self]
            exact ⟨hsize, pre, hpages, hs.send hpassed rfl hsame⟩
        | some e =>
            simp only [he] at hstep
            by_cases hpos : 0 < e.size
            · rw [if_pos hpos, bind_eq_ok] at hstep
              obtain ⟨buf, hbuf, hstep⟩ := hstep
              obtain rfl := Except.ok.inj hstep
              exact ⟨(bufferStep_size hbuf).trans hsize, pre, hpages,
                hs.move hmain rfl rfl (by simp) (by simp)⟩
            · rw [if_neg hpos, Except.ok.injEq] at hstep
              subst hstep
              exact ⟨hsize, pre, hpages, hs.send hpassed rfl rfl⟩
      · rw [if_neg hk, Except.ok.injEq] at hstep
        subst hstep
        refine ⟨hsize, pre, hpages, ⟨fun j => ?_, by simp, by simp⟩⟩
        have hentry := hs.entries j
        rw [hmain] at hentry
        have hpast : ∀ n, hostc ≤ n → ¬ (j ∈ homes pre ∧ n ≤ j) := by
          intro n hn hj
          have hlt := home_lt_of_mem hj.1
          omega
        have hnone := hentry.trans (if_neg (hpast k (Nat.le_of_not_lt hk)))
        exact hnone.trans (if_neg (hpast hostc (Nat.le_refl hostc))).symm
  | unlocking k =>
      simp only [mainStep, hmain, bind_eq_ok] at hstep
      obtain ⟨buf, hbuf, hstep⟩ := hstep
      obtain rfl := Except.ok.inj hstep
      have hpassed : s.main.passed hostc = k := by rw [hmain]; rfl
      exact ⟨(bufferStep_size hbuf).trans hsize, pre, hpages, hs.send hpassed rfl rfl⟩
  | final =>
      simp only [mainStep, hmain, bind_eq_ok] at hstep
      obtain ⟨_, _, hstep⟩ := hstep
      obtain rfl := Except.ok.inj hstep
      exact ⟨hsize, pre, hpages, hs.move hmain rfl rfl (by simp) (by simp)⟩
  | done =>
      simp only [mainStep, hmain] at hstep
      cases hstep

theorem Inv.serve (h : Inv B pages s) (hstep : serveStep s = .ok s') : Inv B pages s' := by
  obtain ⟨hsize, pre, hpages, hs⟩ := h
  cases hserver : s.server with
  | idle =>
      simp only [serveStep, hserver, Except.ok.injEq] at hstep
      subst hstep
      exact ⟨hsize, pre, hpages, hs.keep rfl rfl rfl⟩
  | locking =>
      simp only [serveStep, hserver, bind_eq_ok] at hstep
      obtain ⟨⟨buf, found⟩, hlock, hstep⟩ := hstep
      obtain rfl := Except.ok.inj hstep
      exact ⟨(freemsgLock_size hlock).trans hsize, pre, hpages, hs.keep rfl rfl rfl⟩
  | replied =>
      simp only [serveStep, hserver] at hstep
      split at hstep
      · cases hstep
      · rw [bind_eq_ok] at hstep
        obtain ⟨buf, hbuf, hstep⟩ := hstep
        obtain rfl := Except.ok.inj hstep
        exact ⟨(bufferStep_size hbuf).trans hsize, pre, hpages, hs.keep rfl rfl rfl⟩
  | unlocking =>
      simp only [serveStep, hserver, bind_eq_ok] at hstep
      obtain ⟨buf, hbuf, hstep⟩ := hstep
      obtain rfl := Except.ok.inj hstep
      exact ⟨(bufferStep_size hbuf).trans hsize, pre, hpages, hs.keep rfl rfl rfl⟩

theorem Inv.step (h : Inv B pages s) (hroom : Roomy B pages) {ev : Event}
    (hstep : intervalStep s ev = .ok s') : Inv B pages s' := by
  cases ev with
  | main slot => exact h.main hroom hstep
  | serve => exact h.serve hstep
  | grant =>
      rw [intervalStep] at hstep
      split at hstep
      · rw [Except.ok.injEq] at hstep
        subst hstep
        obtain ⟨hsize, pre, hpages, hs⟩ := h
        exact ⟨hsize, pre, hpages, hs.keep rfl rfl rfl⟩
      · cases hstep

/-- Slots that are all pending are no more than the homes. -/
theorem AllPending.le_card (h : AllPending s) {t : Finset Nat}
    (ht : ∀ k e, s.diffmsg k = some e → k ∈ t) : s.buf.size ≤ t.card := by
  have hslot : ∀ i ∈ Finset.range s.buf.size, ∃ k ∈ t, (s.diffmsg k).map Pending.slot = some i := by
    intro i hi
    obtain ⟨k, e, he, hslot⟩ := h i (Finset.mem_range.mp hi)
    refine ⟨k, ht k e he, ?_⟩
    rw [he, Option.map_some, hslot]
  choose! home hmem hhome using hslot
  rw [← Finset.card_range s.buf.size]
  apply Finset.card_le_card_of_injOn home hmem
  intro i hi j hj hij
  have heq : some i = some j := by
    rw [← hhome i hi, ← hhome j hj, hij]
  exact Option.some.inj heq

theorem Inv.not_starves (h : Inv B pages s) (hroom : Roomy B pages) (hB : 0 < B) :
    ¬ Starves s := by
  obtain ⟨hsize, pre, hpages, hs⟩ := h
  have hle : AllPending s → B ≤ (homes pre).card := by
    intro hall
    rw [← hsize]
    exact hall.le_card fun k e he => hs.mem_homes he
  intro hstarves
  cases hstarves with
  | inl hmain =>
      obtain ⟨hlocking, _, hall⟩ := hmain
      obtain ⟨d, rest, hleft, hnew⟩ := hs.locking hlocking
      rw [hleft] at hpages
      have hlt := (hpages ▸ hroom).card_lt (.inl hnew)
      have hge := hle hall
      omega
  | inr hserver =>
      obtain ⟨_, _, hall, hwaits, _⟩ := hserver
      cases hwaits with
      | inl hwaiting =>
          have hlt := hs.waiting hwaiting
          have hge := hle hall
          omega
      | inr hfinal =>
          -- `senddiffs` has passed every home
          obtain ⟨k, e, he, _⟩ := hall 0 (hsize ▸ hB)
          have hentry := hs.entries k
          rw [he, hfinal, if_neg fun hk => absurd (home_lt_of_mem hk.1) (Nat.not_lt.mpr hk.2)]
            at hentry
          cases hentry

end Steps

/-! ## A run without the server thread -/

/-- The first `n` slots are taken, and no thread is in `freemsg_lock`. -/
structure Taken (B n : Nat) (buf : Buffer Party) : Prop where
  size : buf.size = B
  count : buf.count = B - n
  slot : ∀ i, buf.slot i = if i < n then .busy else .free
  idle : ∀ t, (buf.thread t).pc = .idle

/-- The main thread looks for a slot, at `i`. -/
structure Scanning (B n i : Nat) (buf : Buffer Party) : Prop where
  size : buf.size = B
  count : buf.count = B - (n + 1)
  slot : ∀ i, buf.slot i = if i < n then .busy else .free
  scan : (buf.thread .main).pc = .scan i
  idle : (buf.thread .server).pc = .idle

section Buffer

variable {B n i : Nat} {buf : Buffer Party}

theorem Taken.semWait (h : Taken B n buf) (hn : n < B) :
    ∃ buf', freemsgLock buf .main = .ok (buf', none) ∧ Scanning B n 0 buf' := by
  have hcount : 0 < buf.count := by
    rw [h.count]
    omega
  have hstep : step buf .main .semWait = some ({ buf with count := buf.count - 1 }.setThread .main
      { buf.thread .main with pc := .scan 0 }) := by
    simp only [step, h.idle, if_pos hcount]
  refine ⟨{ buf with count := buf.count - 1 }.setThread .main
    { buf.thread .main with pc := .scan 0 }, ?_, ⟨h.size, ?_, h.slot, rfl, h.idle .server⟩⟩
  · simp only [freemsgLock, h.idle, hstep]
  · show buf.count - 1 = B - (n + 1)
    rw [h.count]
    omega

theorem Scanning.pass (h : Scanning B n i buf) (hi : i < n) (hn : n < B) :
    ∃ buf', freemsgLock buf .main = .ok (buf', none) ∧ Scanning B n (i + 1) buf' := by
  have hlt : i < buf.size := by
    rw [h.size]
    omega
  have hbusy : ¬ buf.slot i = .free := by
    rw [h.slot, if_pos hi]
    nofun
  have hstep : step buf .main .compareExchange =
      some (buf.setThread .main { buf.thread .main with pc := .scan (i + 1) }) := by
    simp only [step, h.scan, Buffer.scanStep, if_pos hlt, if_neg hbusy]
  refine ⟨buf.setThread .main { buf.thread .main with pc := .scan (i + 1) }, ?_,
    ⟨h.size, h.count, h.slot, rfl, h.idle⟩⟩
  simp only [freemsgLock, h.scan, hstep]
  rfl

theorem Scanning.take (h : Scanning B n n buf) (hn : n < B) :
    ∃ buf', freemsgLock buf .main = .ok (buf', some n) ∧ Taken B (n + 1) buf' := by
  have hlt : n < buf.size := by
    rw [h.size]
    exact hn
  have hfree : buf.slot n = .free := by rw [h.slot, if_neg (Nat.lt_irrefl n)]
  have hstep : step buf .main .compareExchange =
      some ((buf.setSlot n .busy).setThread .main ⟨.idle, n :: (buf.thread .main).held⟩) := by
    simp only [step, h.scan, Buffer.scanStep, if_pos hlt, if_pos hfree]
  refine ⟨(buf.setSlot n .busy).setThread .main ⟨.idle, n :: (buf.thread .main).held⟩, ?_,
    ⟨h.size, h.count, fun i => ?_, fun t => ?_⟩⟩
  · simp only [freemsgLock, h.scan, hstep]
    rfl
  · show Function.update buf.slot n .busy i = _
    by_cases hi : i = n
    · subst hi
      rw [Function.update_self, if_pos (Nat.lt_succ_self i)]
    · rw [Function.update_of_ne hi, h.slot]
      have hlt : i < n ↔ i < n + 1 := by omega
      simp only [hlt]
  · cases t with
    | main => rfl
    | server => exact h.idle

end Buffer

/-- The pages `pre` are saved, the server thread is idle and nothing is under way. -/
structure At (B : Nat) (pages pre : List (DirtyPage hostc)) (s : Interval hostc) : Prop where
  split : pages = pre ++ s.left
  main : s.main = .scan
  server : s.server = .idle
  diffwait : s.diffwait = 0
  flying : s.flying = 0
  taken : Taken B (homes pre).card s.buf
  entries : Saved B pre s
  filled : ∀ i < (homes pre).card, ∃ k e, s.diffmsg k = some e ∧ e.slot = i

section Runs

variable {msgBufferSize : Int} {B n : Nat} {pages pre rest : List (DirtyPage hostc)}
  {d : DirtyPage hostc} {s : Interval hostc}

/-- The state once the page `d` has got slot `n`. -/
def locked (s : Interval hostc) (buf : Buffer Party) (d : DirtyPage hostc)
    (rest : List (DirtyPage hostc)) (n : Nat) : Interval hostc :=
  { s with
    buf := buf, left := rest, main := .scan
    diffmsg := Function.update s.diffmsg d.home (some ⟨n, d.size⟩) }

theorem reach_scanned {i : Nat} (hs : (interval msgBufferSize pages).Reach s)
    (hmain : s.main = .locking) (hleft : s.left = d :: rest) (h : Scanning B n i s.buf)
    (hi : i ≤ n) (hn : n < B) :
    ∃ buf, (interval msgBufferSize pages).Reach (locked s buf d rest n) ∧ Taken B (n + 1) buf := by
  induction hk : n - i generalizing i s with
  | zero =>
      have heq : i = n := by omega
      subst heq
      obtain ⟨buf, hlock, htaken⟩ := h.take hn
      refine ⟨buf, hs.step (e := .main none) ?_, htaken⟩
      show mainStep s none = _
      simp only [mainStep, hmain, hleft, lockStep, hlock]
      rfl
  | succ k ih =>
      obtain ⟨buf, hlock, hscan⟩ := h.pass (by omega) hn
      have hnext : (interval msgBufferSize pages).Reach { s with buf := buf } := by
        refine hs.step (e := .main none) ?_
        show mainStep s none = _
        simp only [mainStep, hmain, hleft, lockStep, hlock]
        rfl
      exact ih (s := { s with buf := buf }) hnext hmain hleft hscan (by omega) (by omega)

theorem At.lock (h : At B pages pre s) (hs : (interval msgBufferSize pages).Reach s)
    (hleft : s.left = d :: rest) (hnew : d.home ∉ homes pre) :
    (interval msgBufferSize pages).Reach { s with main := .locking } := by
  have hnone : s.diffmsg d.home = none := by
    have hentry := h.entries.entries d.home
    rw [if_neg fun hcon => hnew hcon.1] at hentry
    exact Option.map_eq_none_iff.mp hentry
  refine hs.step (e := .main none) ?_
  show mainStep s none = _
  simp only [mainStep, h.main, hleft, hnone]

theorem At.new (h : At B pages pre s) (hs : (interval msgBufferSize pages).Reach s)
    (hleft : s.left = d :: rest) (hnew : d.home ∉ homes pre) (hroom : (homes pre).card < B) :
    ∃ s', (interval msgBufferSize pages).Reach s' ∧ At B pages (pre ++ [d]) s' := by
  obtain ⟨buf₁, hlock, hscan⟩ := h.taken.semWait hroom
  have hwait : (interval msgBufferSize pages).Reach { s with buf := buf₁, main := .locking } := by
    refine (h.lock hs hleft hnew).step (e := .main none) ?_
    show mainStep { s with main := .locking } none = _
    simp only [mainStep, hleft, lockStep, hlock]
    rfl
  obtain ⟨buf, hreach, htaken⟩ := reach_scanned hwait rfl hleft hscan (Nat.zero_le _) hroom
  have hcard : (homes (pre ++ [d])).card = (homes pre).card + 1 := by
    rw [homes_append, Finset.card_insert_of_notMem hnew]
  have hgrow : d.size = grow (fill pre d.home) d := by rw [fill_of_notMem hnew, grow_zero]
  refine ⟨_, hreach, ⟨?_, rfl, h.server, h.diffwait, h.flying, hcard ▸ htaken,
    ⟨fun k => ?_, nofun, nofun⟩, fun i hi => ?_⟩⟩
  · show pages = (pre ++ [d]) ++ rest
    rw [h.split, hleft, List.append_assoc, List.singleton_append]
  · have hentry := h.entries.entries_append (by rw [h.main]; rfl) d
      (e := ⟨(homes pre).card, d.size⟩) hgrow k
    refine Eq.trans hentry ?_
    simp only [locked, MainPc.passed, Nat.zero_le, and_true]
  · show ∃ k e, Function.update s.diffmsg d.home (some ⟨_, d.size⟩) k = some e ∧ e.slot = i
    by_cases hlast : i = (homes pre).card
    · exact ⟨d.home, _, Function.update_self .., hlast.symm⟩
    · obtain ⟨k, e, he, hslot⟩ := h.filled i (by omega)
      have hk : k ≠ d.home := by
        intro heq
        exact hnew (heq ▸ h.entries.mem_homes he)
      exact ⟨k, e, (Function.update_of_ne hk ..).trans he, hslot⟩

theorem At.pending (h : At B pages pre s) {k : Nat} (hk : k ∈ homes pre) :
    ∃ e, s.diffmsg k = some e ∧ e.size = fill pre k := by
  have hentry := h.entries.entries k
  rw [h.main, if_pos ⟨hk, Nat.zero_le k⟩] at hentry
  exact Option.map_eq_some_iff.mp hentry

/-- A page of a home that has a slot leaves the slots as they are. -/
theorem At.append (h : At B pages pre s) {s' : Interval hostc} (hleft : s.left = d :: rest)
    (hold : d.home ∈ homes pre) {e : Pending} (he : s.diffmsg d.home = some e) {size : Nat}
    (hsize : size = grow (fill pre d.home) d)
    (hs' : s' = { s with
      left := rest, diffmsg := Function.update s.diffmsg d.home (some ⟨e.slot, size⟩) }) :
    At B pages (pre ++ [d]) s' := by
  subst hs'
  have hhomes : homes (pre ++ [d]) = homes pre := by
    rw [homes_append, Finset.insert_eq_of_mem hold]
  have hpassed : s.main.passed hostc = 0 := by rw [h.main]; rfl
  refine ⟨?_, h.main, h.server, h.diffwait, h.flying, hhomes ▸ h.taken, ⟨fun k => ?_, ?_, ?_⟩, ?_⟩
  · show pages = (pre ++ [d]) ++ rest
    rw [h.split, hleft, List.append_assoc, List.singleton_append]
  · have hentry := h.entries.entries_append hpassed d (e := ⟨e.slot, size⟩) hsize k
    refine Eq.trans hentry ?_
    simp only [hpassed, Nat.zero_le, and_true]
  · rw [h.main]
    nofun
  · rw [h.main]
    nofun
  · rw [hhomes]
    intro i hi
    obtain ⟨k, e', he', hslot⟩ := h.filled i hi
    by_cases hk : k = d.home
    · subst hk
      rw [he, Option.some.injEq] at he'
      subst he'
      exact ⟨d.home, _, Function.update_self .., hslot⟩
    · exact ⟨k, e', (Function.update_of_ne hk ..).trans he', hslot⟩

/-- The main thread sends a message before the scan is over. -/
def overflowed (s : Interval hostc) (d : DirtyPage hostc) (rest : List (DirtyPage hostc))
    (e : Pending) : Interval hostc :=
  { s with
    left := rest, main := .waiting, diffwait := s.diffwait + 1, flying := s.flying + 1
    diffmsg := Function.update s.diffmsg d.home (some ⟨e.slot, d.size⟩) }

theorem reach_overflowed (hs : (interval msgBufferSize pages).Reach s) (hmain : s.main = .scan)
    (hleft : s.left = d :: rest) {e : Pending} (he : s.diffmsg d.home = some e)
    (hfull : Maxmsgsize < e.size + d.size) :
    (interval msgBufferSize pages).Reach (overflowed s d rest e) := by
  refine hs.step (e := .main (some d.home)) ?_
  show mainStep s (some d.home) = _
  simp only [mainStep, hmain, hleft, he, savediff, if_pos hfull, Option.any_some,
    Option.isSome_some, if_true]
  rfl

theorem At.old (h : At B pages pre s) (hs : (interval msgBufferSize pages).Reach s)
    (hleft : s.left = d :: rest) (hold : d.home ∈ homes pre) :
    ∃ s', (interval msgBufferSize pages).Reach s' ∧ At B pages (pre ++ [d]) s' := by
  obtain ⟨e, he, hfill⟩ := h.pending hold
  by_cases hfull : Maxmsgsize < e.size + d.size
  · have hwait := reach_overflowed hs h.main hleft he hfull
    have hgrant : (interval msgBufferSize pages).Reach
        { overflowed s d rest e with diffwait := 0, flying := 0 } := by
      refine hwait.step (e := .grant) ?_
      show intervalStep (overflowed s d rest e) .grant = _
      rw [intervalStep, if_pos ⟨h.server, Nat.succ_pos _⟩]
      simp only [overflowed, h.diffwait, h.flying]
    have hback : (interval msgBufferSize pages).Reach
        { overflowed s d rest e with diffwait := 0, flying := 0, main := .scan } := by
      exact hgrant.step (e := .main none) rfl
    have hgrow : d.size = grow (fill pre d.home) d := by rw [grow, ← hfill, if_pos hfull]
    refine ⟨_, hback, h.append hleft hold he hgrow ?_⟩
    simp only [overflowed, h.main, h.diffwait, h.flying]
  · have hgrow : e.size + d.size = grow (fill pre d.home) d := by
      rw [grow, ← hfill, if_neg hfull]
    refine ⟨savediff s d rest e none, hs.step (e := .main none) ?_,
      h.append hleft hold he hgrow ?_⟩
    · show mainStep s none = _
      simp only [mainStep, h.main, hleft, he]
    · rw [savediff, if_neg hfull]

theorem At.start (hB : B = msgBufferSize.toNat) (pages : List (DirtyPage hostc)) :
    At B pages [] (interval msgBufferSize pages).start where
  split := rfl
  main := rfl
  server := rfl
  diffwait := rfl
  flying := rfl
  taken := by
    have hsize : (if msgBufferSize ≤ 0 then msgBufferSize else msgBufferSize).toNat = B := by
      rw [ite_self, hB]
    exact ⟨hsize, hsize, fun i => (if_neg (Nat.not_lt_zero i)).symm, fun _ => rfl⟩
  entries := ⟨fun k => (if_neg fun hcon => List.not_mem_nil (List.mem_toFinset.mp hcon.1)).symm,
    nofun, nofun⟩
  filled i hi := absurd hi (Nat.not_lt_zero i)

theorem card_append_le (pre : List (DirtyPage hostc)) (d : DirtyPage hostc) :
    (homes pre).card ≤ (homes (pre ++ [d])).card := by
  rw [homes_append]
  exact Finset.card_le_card (Finset.subset_insert _ _)

/-- The scan gets as far as there are slots for the homes. -/
theorem reach_at (hB : B = msgBufferSize.toNat) (hpages : pages = pre ++ rest)
    (hcard : (homes pre).card ≤ B) :
    ∃ s, (interval msgBufferSize pages).Reach s ∧ At B pages pre s := by
  induction pre using List.reverseRecOn generalizing rest with
  | nil => exact ⟨_, .start, At.start hB pages⟩
  | append_singleton pre d ih =>
      rw [List.append_assoc, List.singleton_append] at hpages
      obtain ⟨s, hs, hat⟩ := ih hpages ((card_append_le pre d).trans hcard)
      have hleft : s.left = d :: rest := List.append_cancel_left (hat.split.symm.trans hpages)
      by_cases hold : d.home ∈ homes pre
      · exact hat.old hs hleft hold
      · rw [homes_append, Finset.card_insert_of_notMem hold] at hcard
        exact hat.new hs hleft hold (by omega)

/-- More homes than slots: one of the pages asks for a slot when all are taken. -/
theorem exists_full (hpages : pages = pre ++ rest) (hcard : B < (homes pre).card) :
    ∃ pre' d rest', pages = pre' ++ d :: rest' ∧ d.home ∉ homes pre' ∧
      (homes pre').card = B := by
  induction pre using List.reverseRecOn generalizing rest with
  | nil => exact absurd hcard (Nat.not_lt_zero B)
  | append_singleton pre d ih =>
      rw [List.append_assoc, List.singleton_append] at hpages
      by_cases hlt : B < (homes pre).card
      · exact ih hpages hlt
      · rw [homes_append] at hcard
        have hnew : d.home ∉ homes pre := by
          intro hold
          rw [Finset.insert_eq_of_mem hold] at hcard
          exact hlt hcard
        rw [Finset.card_insert_of_notMem hnew] at hcard
        exact ⟨pre, d, rest, hpages, hnew, by omega⟩

theorem Taken.full (h : Taken B n s.buf) (hn : n = B) (t : Party) : Waits s t := by
  refine ⟨h.idle t, ?_⟩
  rw [h.count, hn, Nat.sub_self]

theorem At.mainStarves (h : At B pages pre s) (hs : (interval msgBufferSize pages).Reach s)
    (hleft : s.left = d :: rest) (hnew : d.home ∉ homes pre) (hfull : (homes pre).card = B) :
    ∃ s', (interval msgBufferSize pages).Reach s' ∧ Starves s' := by
  refine ⟨_, h.lock hs hleft hnew, .inl ⟨rfl, h.taken.full hfull .main, fun i hi => ?_⟩⟩
  have hlt : i < s.buf.size := hi
  rw [h.taken.size, ← hfull] at hlt
  exact h.filled i hlt

theorem At.serverStarves (h : At B pages pre s) (hs : (interval msgBufferSize pages).Reach s)
    (hleft : s.left = d :: rest) (hold : d.home ∈ homes pre)
    (hover : Maxmsgsize < fill pre d.home + d.size) (hfull : (homes pre).card = B) :
    ∃ s', (interval msgBufferSize pages).Reach s' ∧ Starves s' := by
  obtain ⟨e, he, hfill⟩ := h.pending hold
  have hserve : (interval msgBufferSize pages).Reach { s with server := .locking } := by
    refine hs.step (e := .serve) ?_
    show serveStep s = _
    simp only [serveStep, h.server]
  have hwait := reach_overflowed hserve h.main hleft he (hfill ▸ hover)
  refine ⟨_, hwait, .inr ⟨rfl, h.taken.full hfull .server, fun i hi => ?_, .inl rfl,
    Nat.succ_pos _⟩⟩
  have hlt : i < s.buf.size := hi
  rw [h.taken.size, ← hfull] at hlt
  obtain ⟨k, e', he', hslot⟩ := h.filled i hlt
  show ∃ k e', Function.update s.diffmsg d.home (some ⟨e.slot, d.size⟩) k = some e' ∧ e'.slot = i
  by_cases hk : k = d.home
  · subst hk
    rw [he, Option.some.injEq] at he'
    subst he'
    exact ⟨d.home, _, Function.update_self .., hslot⟩
  · exact ⟨k, e', (Function.update_of_ne hk ..).trans he', hslot⟩

theorem reach_starves (hB : B = msgBufferSize.toNat) (hpages : pages = pre ++ d :: rest)
    (hneeds : Needs pre d) (hcard : B ≤ (homes pre).card) :
    ∃ s, (interval msgBufferSize pages).Reach s ∧ Starves s := by
  by_cases hlt : B < (homes pre).card
  · obtain ⟨pre', d', rest', hpages', hnew, hfull⟩ := exists_full hpages hlt
    obtain ⟨s, hs, hat⟩ := reach_at hB hpages' (Nat.le_of_eq hfull)
    exact hat.mainStarves hs (List.append_cancel_left (hat.split.symm.trans hpages')) hnew hfull
  · have hfull : (homes pre).card = B := by omega
    obtain ⟨s, hs, hat⟩ := reach_at hB hpages (Nat.le_of_eq hfull)
    have hleft : s.left = d :: rest := List.append_cancel_left (hat.split.symm.trans hpages)
    by_cases hold : d.home ∈ homes pre
    · have hover := hneeds.resolve_left (not_not_intro hold)
      exact hat.serverStarves hs hleft hold hover hfull
    · exact hat.mainStarves hs hleft hold hfull

end Runs

/-- Neither thread ever starves on message slots exactly when, whenever a written page is the
first one of its home or its diff no longer fits, the pages before it have fewer homes than
there are slots. -/
theorem endinterval_never_starves_iff {msgBufferSize : Int} (hsize : 1 ≤ msgBufferSize)
    (pages : List (DirtyPage hostc)) :
    (∀ s, (interval msgBufferSize pages).Reach s → ¬ Starves s) ↔
      Roomy msgBufferSize.toNat pages := by
  constructor
  · intro hnever
    by_contra hroom
    unfold Roomy at hroom
    push Not at hroom
    obtain ⟨n, hn, hneeds, hcard⟩ := hroom
    have hpages : pages = pages.take n ++ pages.get ⟨n, hn⟩ :: pages.drop (n + 1) := by
      rw [List.get_eq_getElem, ← List.drop_eq_getElem_cons hn, List.take_append_drop]
    obtain ⟨s, hs, hstarves⟩ := reach_starves rfl hpages hneeds hcard
    exact hnever s hs hstarves
  · intro hroom s hs
    have hstart : At msgBufferSize.toNat pages [] (interval msgBufferSize pages).start :=
      At.start rfl pages
    have hinv : Inv msgBufferSize.toNat pages s := by
      apply hs.invariant
      · exact ⟨hstart.taken.size, [], rfl, hstart.entries⟩
      · intro s e s' _ hi hstep
        exact hi.step hroom hstep
    exact hinv.not_starves hroom (by omega)

theorem twoHomes_one : 1 < 3 := by decide

theorem twoHomes_two : 2 < 3 := by decide

theorem twoHomes_size : 100 ≤ Maxmsgsize := by decide

/-- Two written pages of two homes. -/
def twoHomes : List (DirtyPage 3) :=
  [⟨1, 100, twoHomes_one, twoHomes_size⟩, ⟨2, 100, twoHomes_two, twoHomes_size⟩]

/-- Two slots are enough for two homes. -/
theorem endinterval_never_starves_iff_twoSlots :
    Roomy 2 twoHomes ∧ ∀ s, (interval 2 twoHomes).Reach s → ¬ Starves s := by
  have hroom : Roomy 2 twoHomes := by decide
  exact ⟨hroom, (endinterval_never_starves_iff (by decide) twoHomes).mpr hroom⟩

/-- One slot is not. -/
theorem endinterval_starves : ¬ ∀ s, (interval 1 twoHomes).Reach s → ¬ Starves s := by
  intro hnever
  have hpages : twoHomes = twoHomes.take 1 ++ twoHomes.get ⟨1, by decide⟩ :: [] := rfl
  obtain ⟨s, hs, hstarves⟩ := reach_starves (Int.toNat_one).symm hpages (.inl (by decide))
    (by decide)
  exact hnever s hs hstarves

end Jiajia.SlotWait
