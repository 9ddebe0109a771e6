import Mathlib.Data.List.Nodup
import Mathlib.Data.List.Basic

/-!
# A lock manager with a request queue

Clients ask a manager for a lock and give it back over FIFO channels.  The
manager queues the requests it has handled; the head of the queue is the client
the lock was granted to last.
-/

namespace LockQueue

/-- What a client sends to the manager. -/
inductive Request
  | acq
  | rel
deriving DecidableEq, Repr

/-- Where a client stands. -/
inductive Client
  | out
  | waiting
  | inside
deriving DecidableEq, Repr

/-- The manager's queue, the requests in flight by client, the grants in flight
by client, and the requests handled and grants sent so far. -/
@[ext] structure State where
  queue : List Nat
  up : Nat → List Request
  down : Nat → Nat
  client : Nat → Client
  asked : List Nat
  granted : List Nat

/-- `f` with another value at `a`. -/
def set {α : Type} (f : Nat → α) (a : Nat) (v : α) : Nat → α := fun b => if b = a then v else f b

@[simp] theorem set_same {α : Type} (f : Nat → α) (a : Nat) (v : α) : set f a v a = v := by
  simp [set]

@[simp] theorem set_of_ne {α : Type} (f : Nat → α) {a b : Nat} (v : α) (h : b ≠ a) :
    set f a v b = f b := by
  simp [set, h]

@[simp] theorem set_eq_self {α : Type} (f : Nat → α) (a : Nat) : set f a (f a) = f := by
  funext b
  by_cases h : b = a
  · simp [h]
  · simp [h]

/-- The lock goes to the head of the queue. -/
def State.grantHead (x : State) : State :=
  match x.queue with
  | [] => x
  | a :: _ => { x with down := set x.down a (x.down a + 1), granted := x.granted ++ [a] }

section GrantHead

variable (x : State)

@[simp] theorem State.grantHead_queue : x.grantHead.queue = x.queue := by
  unfold grantHead
  split <;> rfl

@[simp] theorem State.grantHead_up : x.grantHead.up = x.up := by
  unfold grantHead
  split <;> rfl

@[simp] theorem State.grantHead_client : x.grantHead.client = x.client := by
  unfold grantHead
  split <;> rfl

@[simp] theorem State.grantHead_asked : x.grantHead.asked = x.asked := by
  unfold grantHead
  split <;> rfl

end GrantHead

def init : State := ⟨[], fun _ => [], fun _ => 0, fun _ => .out, [], []⟩

inductive Step : State → State → Prop
  | ask {x : State} (a : Nat) (h : x.client a = .out) :
      Step x { x with
        up := set x.up a (x.up a ++ [.acq]), client := set x.client a .waiting }
  | free {x : State} (a : Nat) (h : x.client a = .inside) :
      Step x { x with
        up := set x.up a (x.up a ++ [.rel]), client := set x.client a .out }
  | handleAcq {x : State} (a : Nat) {rest : List Request} (h : x.up a = .acq :: rest)
      (hempty : x.queue = []) :
      Step x (State.grantHead { x with
        queue := [a], up := set x.up a rest, asked := x.asked ++ [a] })
  | queueAcq {x : State} (a : Nat) {rest : List Request} (h : x.up a = .acq :: rest)
      (hne : x.queue ≠ []) :
      Step x { x with
        queue := x.queue ++ [a], up := set x.up a rest, asked := x.asked ++ [a] }
  | handleRel {x : State} (a : Nat) {rest : List Request} (h : x.up a = .rel :: rest) :
      Step x (State.grantHead { x with queue := x.queue.tail, up := set x.up a rest })
  | enter {x : State} (a : Nat) (h : 0 < x.down a) :
      Step x { x with down := set x.down a (x.down a - 1), client := set x.client a .inside }

/-! ## The invariant -/

/-- The situations a client can be in. -/
inductive Phase
  | idle
  | freed
  | reasking
  | asking
  | queued
  | granted
  | inside
deriving DecidableEq, Repr

/-- What the state shows of a client in each situation. -/
def Shows (x : State) (a : Nat) : Phase → Prop
  | .idle => x.client a = .out ∧ x.up a = [] ∧ x.down a = 0 ∧ a ∉ x.queue
  | .freed => x.client a = .out ∧ x.up a = [.rel] ∧ x.down a = 0 ∧ x.queue.head? = some a
  | .reasking =>
      x.client a = .waiting ∧ x.up a = [.rel, .acq] ∧ x.down a = 0 ∧ x.queue.head? = some a
  | .asking => x.client a = .waiting ∧ x.up a = [.acq] ∧ x.down a = 0 ∧ a ∉ x.queue
  | .queued => x.client a = .waiting ∧ x.up a = [] ∧ x.down a = 0 ∧ a ∈ x.queue.tail
  | .granted => x.client a = .waiting ∧ x.up a = [] ∧ x.down a = 1 ∧ x.queue.head? = some a
  | .inside => x.client a = .inside ∧ x.up a = [] ∧ x.down a = 0 ∧ x.queue.head? = some a

/-- Every client is in one of the situations, nobody is queued twice, and the
grants are the requests in order, up to the head of the queue. -/
structure Inv (x : State) : Prop where
  phase : ∀ a, ∃ ph, Shows x a ph
  nodup : x.queue.Nodup
  fifo : x.asked = x.granted ++ x.queue.tail

section Inv

variable {x : State} {a b : Nat}

theorem inv_init : Inv init where
  phase a := ⟨.idle, rfl, rfl, rfl, by simp [init]⟩
  nodup := List.nodup_nil
  fifo := rfl

/-- A client other than the one that moves keeps its situation when the queue
and its own part of the state stay. -/
theorem Shows.frame {y : State} {ph : Phase} (h : Shows x b ph) (hq : y.queue = x.queue)
    (hup : y.up b = x.up b) (hdown : y.down b = x.down b) (hc : y.client b = x.client b) :
    Shows y b ph := by
  cases ph <;> simpa only [Shows, hq, hup, hdown, hc] using h

theorem Inv.inside_head (h : Inv x) (hi : x.client a = .inside) : x.queue.head? = some a := by
  obtain ⟨ph, hs⟩ := h.phase a
  cases ph <;> simp_all [Shows]

/-- At most one client is inside. -/
theorem Inv.mutex (h : Inv x) (ha : x.client a = .inside) (hb : x.client b = .inside) : a = b := by
  have hab := (h.inside_head ha).symm.trans (h.inside_head hb)
  exact Option.some.inj hab

/-- A release comes from the head of the queue. -/
theorem Inv.rel_head (h : Inv x) {rest : List Request} (hup : x.up a = .rel :: rest) :
    x.queue.head? = some a := by
  obtain ⟨ph, hs⟩ := h.phase a
  cases ph <;> simp_all [Shows]

/-- A request in front of the channel comes from a client that is not queued. -/
theorem Inv.acq_not_mem (h : Inv x) {rest : List Request} (hup : x.up a = .acq :: rest) :
    a ∉ x.queue := by
  obtain ⟨ph, hs⟩ := h.phase a
  cases ph <;> simp_all [Shows]

/-- A grant is in flight only to a client that waits for it. -/
theorem Inv.down_waiting (h : Inv x) (hd : 0 < x.down a) :
    x.client a = .waiting ∧ x.down a = 1 ∧ x.queue.head? = some a := by
  obtain ⟨ph, hs⟩ := h.phase a
  cases ph <;> simp_all [Shows]

/-- Clients in the queue have a request that was handled. -/
theorem Inv.mem_queue (h : Inv x) (hmem : a ∈ x.queue) :
    x.client a ≠ .out ∨ x.up a = [.rel] := by
  obtain ⟨ph, hs⟩ := h.phase a
  cases ph <;> simp_all [Shows]

theorem Inv.up_granted (h : Inv x) (hd : 0 < x.down a) : x.up a = [] := by
  obtain ⟨ph, hs⟩ := h.phase a
  cases ph <;> simp_all [Shows]

/-- No grant is in flight while nobody is queued. -/
theorem Inv.empty_free (h : Inv x) (hempty : x.queue = []) (a : Nat) : x.down a = 0 := by
  by_contra hd
  have hhead := (h.down_waiting (Nat.pos_of_ne_zero hd)).2.2
  rw [hempty] at hhead
  cases hhead

/-- While a release is in flight its client is the head of the queue, and no grant is in
flight. -/
theorem Inv.rel_free (h : Inv x) (hrel : .rel ∈ x.up a) :
    x.queue.head? = some a ∧ ∀ b, x.down b = 0 := by
  have hself : x.queue.head? = some a ∧ x.down a = 0 := by
    obtain ⟨ph, hs⟩ := h.phase a
    cases ph <;> simp_all [Shows]
  refine ⟨hself.1, fun b => ?_⟩
  by_contra hd
  have hhead := (h.down_waiting (Nat.pos_of_ne_zero hd)).2.2
  obtain rfl : a = b := Option.some.inj (hself.1.symm.trans hhead)
  exact hd hself.2

/-- A client that waits has a request or a grant in flight, or the head of the queue has
one or is inside. -/
theorem Inv.waits (h : Inv x) (hw : x.client a = .waiting) :
    ∃ b, x.up b ≠ [] ∨ 0 < x.down b ∨ x.client b = .inside := by
  obtain ⟨ph, hs⟩ := h.phase a
  cases ph with
  | queued =>
      obtain ⟨-, -, -, hmem⟩ := hs
      have hnodup := h.nodup
      cases hq : x.queue with
      | nil =>
          rw [hq] at hmem
          cases hmem
      | cons b q =>
          rw [hq, List.tail_cons] at hmem
          rw [hq] at hnodup
          have hhead : b ∉ q := (List.nodup_cons.mp hnodup).1
          refine ⟨b, ?_⟩
          obtain ⟨ph', hs'⟩ := h.phase b
          cases ph' <;> simp_all [Shows]
  | _ =>
      refine ⟨a, ?_⟩
      simp_all [Shows]

theorem inv_ask (h : Inv x) (hout : x.client a = .out) :
    Inv { x with up := set x.up a (x.up a ++ [.acq]), client := set x.client a .waiting } where
  phase b := by
    obtain ⟨ph, hs⟩ := h.phase b
    by_cases hb : b = a
    · subst hb
      cases ph with
      | idle => exact ⟨.asking, by simpa [Shows, hout] using hs⟩
      | freed =>
          obtain ⟨-, hup, hdown, hhead⟩ := hs
          exact ⟨.reasking, by simp [Shows, hup, hdown, hhead]⟩
      | _ => simp [Shows, hout] at hs
    · exact ⟨ph, hs.frame rfl (by simp [hb]) rfl (by simp [hb])⟩
  nodup := h.nodup
  fifo := h.fifo

theorem inv_free (h : Inv x) (hin : x.client a = .inside) :
    Inv { x with up := set x.up a (x.up a ++ [.rel]), client := set x.client a .out } where
  phase b := by
    obtain ⟨ph, hs⟩ := h.phase b
    by_cases hb : b = a
    · subst hb
      cases ph with
      | inside => exact ⟨.freed, by simpa [Shows, hin] using hs⟩
      | _ => simp [Shows, hin] at hs
    · exact ⟨ph, hs.frame rfl (by simp [hb]) rfl (by simp [hb])⟩
  nodup := h.nodup
  fifo := h.fifo

/-- The front request of a client that is asking. -/
theorem Inv.asking (h : Inv x) {rest : List Request} (hup : x.up a = .acq :: rest) :
    x.client a = .waiting ∧ rest = [] ∧ x.down a = 0 ∧ a ∉ x.queue := by
  obtain ⟨ph, hs⟩ := h.phase a
  cases ph <;> simp_all [Shows]

theorem inv_handleAcq (h : Inv x) {rest : List Request} (hup : x.up a = .acq :: rest)
    (hempty : x.queue = []) :
    Inv (State.grantHead { x with
      queue := [a], up := set x.up a rest, asked := x.asked ++ [a] }) where
  phase b := by
    obtain ⟨hw, rfl, hd, -⟩ := h.asking hup
    obtain ⟨ph, hs⟩ := h.phase b
    by_cases hb : b = a
    · subst hb
      exact ⟨.granted, by simp [Shows, State.grantHead, hw, hd]⟩
    · cases ph with
      | idle => exact ⟨.idle, by simpa [Shows, State.grantHead, hempty, hb] using hs⟩
      | asking => exact ⟨.asking, by simpa [Shows, State.grantHead, hempty, hb] using hs⟩
      | _ => simp [Shows, hempty] at hs
  nodup := by simp [State.grantHead]
  fifo := by
    have hf := h.fifo
    simp only [hempty, List.tail_nil, List.append_nil] at hf
    simp [State.grantHead, hf]

theorem inv_queueAcq (h : Inv x) {rest : List Request} (hup : x.up a = .acq :: rest)
    (hne : x.queue ≠ []) :
    Inv { x with queue := x.queue ++ [a], up := set x.up a rest, asked := x.asked ++ [a] } where
  phase b := by
    obtain ⟨hw, rfl, hd, hnot⟩ := h.asking hup
    have htail : (x.queue ++ [a]).tail = x.queue.tail ++ [a] := List.tail_append_of_ne_nil hne
    have hhead : (x.queue ++ [a]).head? = x.queue.head? := List.head?_append_of_ne_nil _ hne
    obtain ⟨ph, hs⟩ := h.phase b
    by_cases hb : b = a
    · subst hb
      exact ⟨.queued, by simp [Shows, hw, hd, htail]⟩
    · refine ⟨ph, ?_⟩
      cases ph <;> simpa [Shows, htail, hhead, hb] using hs
  nodup := by
    have hnot := h.acq_not_mem hup
    rw [List.nodup_append]
    refine ⟨h.nodup, by simp, ?_⟩
    intro c hc d hd
    rw [List.mem_singleton] at hd
    rintro rfl
    exact hnot (hd ▸ hc)
  fifo := by
    have htail : (x.queue ++ [a]).tail = x.queue.tail ++ [a] := List.tail_append_of_ne_nil hne
    rw [htail, h.fifo, List.append_assoc]

/-- After the head has left, the next client in the queue holds the grant. -/
theorem inv_handleRel (h : Inv x) {rest : List Request} (hup : x.up a = .rel :: rest) :
    Inv (State.grantHead { x with queue := x.queue.tail, up := set x.up a rest }) := by
  have hhead := h.rel_head hup
  obtain ⟨q, hq⟩ : ∃ q, x.queue = a :: q := by
    cases hx : x.queue with
    | nil => simp [hx] at hhead
    | cons c q =>
        rw [hx, List.head?_cons, Option.some.injEq] at hhead
        exact ⟨q, by rw [hhead]⟩
  have hnodup := h.nodup
  rw [hq, List.nodup_cons] at hnodup
  have hfifo := h.fifo
  rw [hq, List.tail_cons] at hfifo
  have hself : (x.client a = .out ∧ rest = [] ∨ x.client a = .waiting ∧ rest = [.acq]) ∧
      x.down a = 0 := by
    obtain ⟨ph, hs⟩ := h.phase a
    cases ph <;> simp_all [Shows]
  cases q with
  | nil =>
      refine ⟨fun b => ?_, by simp [State.grantHead, hq], by simp [State.grantHead, hq, hfifo]⟩
      obtain ⟨ph, hs⟩ := h.phase b
      by_cases hb : b = a
      · subst hb
        rcases hself with ⟨⟨hc, rfl⟩ | ⟨hc, rfl⟩, hd⟩
        · exact ⟨.idle, by simp [Shows, State.grantHead, hq, hc, hd]⟩
        · exact ⟨.asking, by simp [Shows, State.grantHead, hq, hc, hd]⟩
      · cases ph with
        | idle => exact ⟨.idle, by simpa [Shows, State.grantHead, hq, hb] using hs⟩
        | asking => exact ⟨.asking, by simpa [Shows, State.grantHead, hq, hb] using hs⟩
        | _ => simp [Shows, hq, Ne.symm hb] at hs
  | cons c q =>
      rw [List.mem_cons, not_or, List.nodup_cons] at hnodup
      obtain ⟨⟨hac, haq⟩, hcq, hnq⟩ := hnodup
      have hdown : x.down c = 0 ∧ x.client c = .waiting ∧ x.up c = [] := by
        obtain ⟨ph, hs⟩ := h.phase c
        cases ph <;> simp_all [Shows]
      refine ⟨fun b => ?_, by simp [State.grantHead, hq, hcq, hnq],
        by simp [State.grantHead, hq, hfifo]⟩
      obtain ⟨ph, hs⟩ := h.phase b
      by_cases hb : b = a
      · subst hb
        rcases hself with ⟨⟨hc, rfl⟩ | ⟨hc, rfl⟩, hd⟩
        · exact ⟨.idle, by simp [Shows, State.grantHead, hq, hc, hd, hac, haq]⟩
        · exact ⟨.asking, by simp [Shows, State.grantHead, hq, hc, hd, hac, haq]⟩
      · by_cases hbc : b = c
        · subst hbc
          obtain ⟨hd, hw, hu⟩ := hdown
          exact ⟨.granted, by simp [Shows, State.grantHead, hq, hd, hw, hu, hb]⟩
        · cases ph with
          | idle => exact ⟨.idle, by simpa [Shows, State.grantHead, hq, hb, hbc] using hs⟩
          | asking => exact ⟨.asking, by simpa [Shows, State.grantHead, hq, hb, hbc] using hs⟩
          | queued => exact ⟨.queued, by simpa [Shows, State.grantHead, hq, hb, hbc] using hs⟩
          | _ => simp [Shows, hq, Ne.symm hb] at hs

theorem inv_enter (h : Inv x) (hd : 0 < x.down a) :
    Inv { x with down := set x.down a (x.down a - 1), client := set x.client a .inside } where
  phase b := by
    obtain ⟨ph, hs⟩ := h.phase b
    by_cases hb : b = a
    · subst hb
      obtain ⟨hw, h1, hhead⟩ := h.down_waiting hd
      cases ph with
      | granted => exact ⟨.inside, by simpa [Shows, h1, hw, hhead] using hs⟩
      | _ => simp [Shows, h1] at hs
    · exact ⟨ph, hs.frame rfl rfl (by simp [hb]) (by simp [hb])⟩
  nodup := h.nodup
  fifo := h.fifo

theorem inv_step {y : State} (h : Inv x) (hs : Step x y) : Inv y := by
  cases hs with
  | ask a hout => exact inv_ask h hout
  | free a hin => exact inv_free h hin
  | handleAcq a hup hempty => exact inv_handleAcq h hup hempty
  | queueAcq a hup hne => exact inv_queueAcq h hup hne
  | handleRel a hup => exact inv_handleRel h hup
  | enter a hd => exact inv_enter h hd

end Inv

end LockQueue
