import Jiajia.Global
import Jiajia.Lib.Census
import Jiajia.Lib.Ring
import Jiajia.Lib.Transition

/-!
# The message queue

`enqueue` by any number of producers, and a consumer that waits for `busy_count`, calls
`dequeue`, works on the slot in place and posts `free_count`.  Every access to a shared
variable is a step of its own, and copying a message into a slot takes two: in between the
slot holds no message.
-/

namespace Jiajia.MsgQueue

open Transition Census MaskRing

/-- Where a producer is in `enqueue(msg_queue, x)`. -/
inductive Producer (α : Type)
  | idle
  /-- `sem_wait(free_count)` is over. -/
  | entered (x : α)
  /-- `tail_lock` is taken. -/
  | locked (x : α)
  /-- `slot_index` is read. -/
  | indexed (x : α) (i : Nat)
  /-- `tail` is advanced. -/
  | advanced (x : α) (i : Nat)
  /-- `memcpy` has begun. -/
  | copying (x : α) (i : Nat)
  | copied
  /-- `tail_lock` is released. -/
  | unlocked

/-- Where the consumer is. -/
inductive Consumer
  | idle
  /-- `sem_wait(busy_count)` is over. -/
  | woken
  /-- `dequeue` has read `slot_index`. -/
  | picked (i : Nat)
  /-- `dequeue` has returned the slot. -/
  | using (i : Nat)

/-- The queue with its threads; a slot without a message is being written. -/
structure QueueState (α : Type) where
  slot : Nat → Option α
  head : Nat
  tail : Nat
  busy : Nat
  free : Nat
  tailLock : Option Nat
  producer : Nat → Producer α
  consumer : Consumer

variable {α : Type}

/-- `init_msg_queue(msg_queue, size)` -/
def initMsgQueue (size : Nat) : QueueState α where
  slot _ := none
  head := 0
  tail := 0
  busy := 0
  free := size
  tailLock := none
  producer _ := .idle
  consumer := .idle

inductive QueueEvent (α : Type)
  /-- Producer `p` calls `enqueue` with `x` and passes `sem_wait(free_count)`. -/
  | call (p : Nat) (x : α)
  /-- The next step of producer `p`. -/
  | produce (p : Nat)
  /-- The next step of the consumer. -/
  | consume

namespace QueueState

variable (size : Nat) (s : QueueState α)

def goto (p : Nat) (c : Producer α) : QueueState α := { s with producer := upd s.producer p c }

/-- `sem_wait(free_count)` -/
def waitFree (p : Nat) (x : α) : Result (QueueState α) :=
  match s.producer p with
  | .idle => if 0 < s.free then .ok { s.goto p (.entered x) with free := s.free - 1 }
      else .error .blocked
  | _ => .error .blocked

/-- `enqueue` after `sem_wait(free_count)`. -/
def enqueue (p : Nat) : Result (QueueState α) :=
  match s.producer p with
  | .idle => .error .blocked
  | .entered x =>
      if s.tailLock = none then .ok { s.goto p (.locked x) with tailLock := some p }
      else .error .blocked
  | .locked x => .ok (s.goto p (.indexed x s.tail))
  | .indexed x i => .ok { s.goto p (.advanced x i) with tail := succ size s.tail }
  | .advanced x i => .ok { s.goto p (.copying x i) with slot := upd s.slot i none }
  | .copying x i => .ok { s.goto p .copied with slot := upd s.slot i (some x) }
  | .copied => .ok { s.goto p .unlocked with tailLock := none }
  | .unlocked => .ok { s.goto p .idle with busy := s.busy + 1 }

/-- The loop of the consumer: `sem_wait(busy_count)`, `dequeue`, `sem_post(free_count)`. -/
def serve : Result (QueueState α) :=
  match s.consumer with
  | .idle => if 0 < s.busy then .ok { s with busy := s.busy - 1, consumer := .woken }
      else .error .blocked
  | .woken => .ok { s with consumer := .picked s.head }
  | .picked i => .ok { s with head := succ size s.head, consumer := .using i }
  | .using _ => .ok { s with free := s.free + 1, consumer := .idle }

end QueueState

def queueStep (size : Nat) (s : QueueState α) : QueueEvent α → Result (QueueState α)
  | .call p x => s.waitFree p x
  | .produce p => s.enqueue size p
  | .consume => s.serve size

def queueSystem (α : Type) (size : Nat) : System (QueueState α) (QueueEvent α) where
  start := initMsgQueue size
  next s e s' := queueStep size s e = .ok s'

/-! ## What has happened -/

/-- The messages in the order of the `tail_lock` sections, what the consumer found in the
slots that `dequeue` returned, and how often the semaphores were passed and posted. -/
structure QueueHistory (α : Type) where
  sections : List α
  obtained : List (Option α)
  entered : Nat
  posted : Nat
  taken : Nat
  freed : Nat

def queueHistory (α : Type) : System.Observer (QueueState α) (QueueEvent α) (QueueHistory α) where
  start := ⟨[], [], 0, 0, 0, 0⟩
  obs h s e _ :=
    match e with
    | .call _ _ => { h with entered := h.entered + 1 }
    | .produce p =>
        match s.producer p with
        | .entered x => { h with sections := h.sections ++ [x] }
        | .unlocked => { h with posted := h.posted + 1 }
        | _ => h
    | .consume =>
        match s.consumer with
        | .idle => { h with taken := h.taken + 1 }
        | .woken => h
        | .picked i => { h with obtained := h.obtained ++ [s.slot i] }
        | .using _ => { h with freed := h.freed + 1 }

/-- The queue does what it is for. -/
structure QueueOk (size : Nat) (s : QueueState α) (h : QueueHistory α) : Prop where
  /-- The messages that were obtained are the first that were enqueued. -/
  order : h.obtained = (h.sections.take h.obtained.length).map some
  /-- When nobody is inside and nothing is left, all of them. -/
  complete : (∀ p, s.producer p = .idle) → s.consumer = .idle → s.busy = 0 →
    h.obtained = h.sections.map some
  /-- While the consumer works on a slot the message stays in it. -/
  stays : ∀ i, s.consumer = .using i →
    ∃ x, h.obtained.getLast? = some (some x) ∧ s.slot i = some x
  /-- Section `n` writes slot `n % size`, when the slot was posted free after every earlier
  message in it. -/
  freed : ∀ p x i, s.producer p = .copying x i →
    i = (h.sections.length - 1) % size ∧
      ∀ m, m + 1 < h.sections.length → m % size = i → m < h.freed

/-! ## The invariant -/

/-- The producer holds `tail_lock`. -/
def Producer.Inside : Producer α → Prop
  | .idle | .entered _ | .unlocked => False
  | .locked _ | .indexed _ _ | .advanced _ _ | .copying _ _ | .copied => True

def Producer.Entered : Producer α → Prop
  | .entered _ => True
  | _ => False

def Producer.Unlocked : Producer α → Prop
  | .unlocked => True
  | _ => False

theorem Producer.Inside.not_entered {c : Producer α} (h : c.Inside) : ¬ c.Entered := by
  cases c <;> first | exact id | exact h.elim

theorem Producer.Inside.not_unlocked {c : Producer α} (h : c.Inside) : ¬ c.Unlocked := by
  cases c <;> first | exact id | exact h.elim

/-- The producer that holds `tail_lock`. -/
def QueueState.inside (s : QueueState α) : Option (Producer α) := s.tailLock.map s.producer

/-- The sections whose message is in its slot. -/
def whole (n : Nat) : Option (Producer α) → Nat
  | some (.locked _) | some (.indexed _ _) | some (.advanced _ _) | some (.copying _ _) => n - 1
  | _ => n

/-- The last section is about `x`; `n` others were before it. -/
def Last (sections : List α) (x : α) (n : Nat) : Prop :=
  ∃ before, sections = before ++ [x] ∧ before.length = n

/-- What holds at each place of a section. -/
def Critical (size tail : Nat) (sections : List α) : Option (Producer α) → Prop
  | some (.locked x) => ∃ n, Last sections x n ∧ tail = n % size
  | some (.indexed x i) => ∃ n, Last sections x n ∧ i = n % size ∧ tail = n % size
  | some (.advanced x i) | some (.copying x i) =>
      ∃ n, Last sections x n ∧ i = n % size ∧ tail = (n + 1) % size
  | _ => tail = sections.length % size

/-- What holds at each place of the consumer, after `n` slots. -/
def Serving (size n taken freed : Nat) : Consumer → Prop
  | .idle => taken = n ∧ freed = n
  | .woken => taken = n + 1 ∧ freed = n
  | .picked i => taken = n + 1 ∧ freed = n ∧ i = n % size
  | .using i => taken = n ∧ freed + 1 = n ∧ i = freed % size

structure Inv (size : Nat) (s : QueueState α) (h : QueueHistory α) : Prop where
  waiting : ∃ n, Count (fun p => (s.producer p).Entered) n ∧ n + h.sections.length = h.entered
  leaving : ∃ n, Count (fun p => (s.producer p).Unlocked) n ∧
    n + h.posted + s.tailLock.toList.length = h.sections.length
  lock : ∀ p, s.tailLock = some p ↔ (s.producer p).Inside
  critical : Critical size s.tail h.sections s.inside
  free : s.free + h.entered = size + h.freed
  busy : s.busy + h.taken = h.posted
  head : s.head = h.obtained.length % size
  serving : Serving size h.obtained.length h.taken h.freed s.consumer
  slots : ∀ m x, h.freed ≤ m → m < whole h.sections.length s.inside →
    h.sections[m]? = some x → s.slot (m % size) = some x
  order : h.obtained = (h.sections.take h.obtained.length).map some

section Steps

variable {size : Nat} {s s' : QueueState α} {h : QueueHistory α} {p : Nat}

theorem mod_ne_of_near {m n : Nat} (hlt : m < n) (hnear : n < m + size) : m % size ≠ n % size := by
  intro heq
  have hdvd := (Nat.modEq_iff_dvd' hlt.le).mp heq
  have hle := Nat.le_of_dvd (Nat.sub_pos_of_lt hlt) hdvd
  omega

theorem whole_le (n : Nat) (c : Option (Producer α)) : whole n c ≤ n := by
  unfold whole
  split <;> omega

/-! ### Bounds -/

theorem Serving.le {n taken freed : Nat} {c : Consumer} (hs : Serving size n taken freed c) :
    freed ≤ n ∧ n ≤ taken := by
  cases c with
  | idle =>
      obtain ⟨htaken, hfreed⟩ := hs
      omega
  | woken =>
      obtain ⟨htaken, hfreed⟩ := hs
      omega
  | picked i =>
      obtain ⟨htaken, hfreed, -⟩ := hs
      omega
  | «using» i =>
      obtain ⟨htaken, hfreed, -⟩ := hs
      omega

/-- There are at most `size` messages that were not posted free. -/
theorem Inv.room (hi : Inv size s h) : h.sections.length ≤ size + h.freed := by
  obtain ⟨n, -, hn⟩ := hi.waiting
  have hfree := hi.free
  omega

/-- What was posted is in its slot. -/
theorem Inv.posted_le (hi : Inv size s h) : h.posted ≤ whole h.sections.length s.inside := by
  obtain ⟨n, -, hn⟩ := hi.leaving
  unfold QueueState.inside whole
  cases hlock : s.tailLock with
  | none => 
      rw [hlock] at hn
      simp only [Option.map_none]
      have hzero : (none : Option Nat).toList.length = 0 := rfl
      omega
  | some q =>
      rw [hlock] at hn
      have hone : (some q).toList.length = 1 := rfl
      simp only [Option.map_some]
      split <;> omega

theorem Inv.obtained_le (hi : Inv size s h) :
    h.obtained.length ≤ whole h.sections.length s.inside := by
  have hserving := hi.serving.le
  have hbusy := hi.busy
  have hposted := hi.posted_le
  omega

/-! ### The steps of the consumer -/

theorem getElem?_take_succ {l : List α} {n : Nat} {x : α} (hx : l[n]? = some x) :
    l.take (n + 1) = l.take n ++ [x] := by
  rw [List.take_add_one, hx]
  rfl

theorem Inv.wake (hi : Inv size s h) (hidle : s.consumer = .idle) (hbusy : 0 < s.busy) :
    Inv size { s with busy := s.busy - 1, consumer := .woken }
      { h with taken := h.taken + 1 } := by
  have hserving := hi.serving
  rw [hidle] at hserving
  refine ⟨hi.waiting, hi.leaving, hi.lock, hi.critical, hi.free, ?_, hi.head, ?_, hi.slots, hi.order⟩
  · show s.busy - 1 + (h.taken + 1) = h.posted
    have hcount := hi.busy
    omega
  · exact ⟨congrArg (· + 1) hserving.1, hserving.2⟩

theorem Inv.pick (hi : Inv size s h) (hwoken : s.consumer = .woken) :
    Inv size { s with consumer := .picked s.head } h := by
  have hserving := hi.serving
  rw [hwoken] at hserving
  exact ⟨hi.waiting, hi.leaving, hi.lock, hi.critical, hi.free, hi.busy, hi.head,
    ⟨hserving.1, hserving.2, hi.head⟩, hi.slots, hi.order⟩

/-- The slot that `dequeue` returns holds the next message. -/
theorem Inv.next (hi : Inv size s h) {i : Nat} (hpicked : s.consumer = .picked i) :
    ∃ x, h.sections[h.obtained.length]? = some x ∧ s.slot i = some x := by
  have hserving := hi.serving
  rw [hpicked] at hserving
  obtain ⟨htaken, hfreed, hindex⟩ := hserving
  have hbusy := hi.busy
  have hposted := hi.posted_le
  have hwhole := whole_le h.sections.length s.inside
  have hlt : h.obtained.length < whole h.sections.length s.inside := by omega
  have hsections : h.obtained.length < h.sections.length := by omega
  refine ⟨h.sections[h.obtained.length], List.getElem?_eq_getElem hsections, ?_⟩
  rw [hindex]
  exact hi.slots _ _ hfreed.le hlt (List.getElem?_eq_getElem hsections)

theorem Inv.dequeue {k : Nat} (hi : Inv (2 ^ k) s h) {i : Nat} (hpicked : s.consumer = .picked i) :
    Inv (2 ^ k) { s with head := succ (2 ^ k) s.head, consumer := .using i }
      { h with obtained := h.obtained ++ [s.slot i] } := by
  obtain ⟨x, hx, hslot⟩ := hi.next hpicked
  have hserving := hi.serving
  rw [hpicked] at hserving
  obtain ⟨htaken, hfreed, hindex⟩ := hserving
  have hlen : (h.obtained ++ [s.slot i]).length = h.obtained.length + 1 := by
    rw [List.length_append, List.length_singleton]
  refine ⟨hi.waiting, hi.leaving, hi.lock, hi.critical, hi.free, hi.busy, ?_, ?_, hi.slots, ?_⟩
  · show succ (2 ^ k) s.head = (h.obtained ++ [s.slot i]).length % 2 ^ k
    rw [hlen, hi.head, succ_mod]
  · show Serving (2 ^ k) (h.obtained ++ [s.slot i]).length h.taken h.freed (.using i)
    rw [hlen]
    refine ⟨htaken, congrArg (· + 1) hfreed, ?_⟩
    rw [hfreed]
    exact hindex
  · show h.obtained ++ [s.slot i] =
      (h.sections.take (h.obtained ++ [s.slot i]).length).map some
    rw [hlen, getElem?_take_succ hx, List.map_append, List.map_singleton, ← hi.order, hslot]

theorem Inv.release (hi : Inv size s h) {i : Nat} (husing : s.consumer = .using i) :
    Inv size { s with free := s.free + 1, consumer := .idle } { h with freed := h.freed + 1 } := by
  have hserving := hi.serving
  rw [husing] at hserving
  obtain ⟨htaken, hfreed, -⟩ := hserving
  refine ⟨hi.waiting, hi.leaving, hi.lock, hi.critical, ?_, hi.busy, hi.head, ⟨htaken, hfreed⟩, ?_,
    hi.order⟩
  · show s.free + 1 + h.entered = size + (h.freed + 1)
    have hfree := hi.free
    omega
  · intro m x hm
    exact hi.slots m x ((Nat.le_succ _).trans hm)

/-! ### The steps of a producer -/

theorem goto_same (c : Producer α) : (s.goto p c).producer p = c := upd_same _ _ _

theorem goto_of_ne {q : Nat} (c : Producer α) (hq : q ≠ p) :
    (s.goto p c).producer q = s.producer q := upd_of_ne _ _ hq

/-- A class of places to which neither the old nor the new one belongs, or both. -/
theorem count_goto {P : Producer α → Prop} {n : Nat} {c : Producer α}
    (hc : Count (fun q => P (s.producer q)) n) (h : P c ↔ P (s.producer p)) :
    Count (fun q => P ((s.goto p c).producer q)) n := by
  apply hc.congr
  intro q
  by_cases hq : q = p
  · rw [hq, goto_same, h]
  · rw [goto_of_ne c hq]

theorem count_goto_join {P : Producer α → Prop} {n : Nat} {c : Producer α}
    (hc : Count (fun q => P (s.producer q)) n) (hold : ¬ P (s.producer p)) (hnew : P c) :
    Count (fun q => P ((s.goto p c).producer q)) (n + 1) := by
  apply hc.join hold
  intro q
  by_cases hq : q = p
  · rw [hq, goto_same]
    exact iff_of_true hnew (.inl rfl)
  · rw [goto_of_ne c hq, or_iff_right hq]

theorem count_goto_leave {P : Producer α → Prop} {n : Nat} {c : Producer α}
    (hc : Count (fun q => P (s.producer q)) n) (hold : P (s.producer p)) (hnew : ¬ P c) :
    0 < n ∧ Count (fun q => P ((s.goto p c).producer q)) (n - 1) := by
  apply hc.leave hold
  intro q
  by_cases hq : q = p
  · rw [hq, goto_same]
    exact iff_of_false hnew fun hand => hand.1 rfl
  · rw [goto_of_ne c hq, and_iff_right hq]

theorem inside_goto_of_ne (c : Producer α) (hp : s.tailLock ≠ some p) :
    (s.goto p c).inside = s.inside := by
  unfold QueueState.inside
  cases hlock : s.tailLock with
  | none =>
      show s.tailLock.map _ = _
      rw [hlock]
      rfl
  | some q =>
      have hq : q ≠ p := fun heq => hp (heq ▸ hlock)
      show s.tailLock.map _ = _
      rw [hlock]
      exact congrArg some (goto_of_ne c hq)

theorem Inv.inside_eq (hi : Inv size s h) (hp : (s.producer p).Inside) :
    s.tailLock = some p ∧ s.inside = some (s.producer p) := by
  have hlock := (hi.lock p).mpr hp
  refine ⟨hlock, ?_⟩
  unfold QueueState.inside
  rw [hlock]
  rfl

theorem Inv.not_inside (hi : Inv size s h) (hp : ¬ (s.producer p).Inside) :
    s.tailLock ≠ some p := fun hlock => hp ((hi.lock p).mp hlock)

theorem Inv.lock_goto (hi : Inv size s h) {c : Producer α}
    (hc : c.Inside ↔ (s.producer p).Inside) (q : Nat) :
    s.tailLock = some q ↔ ((s.goto p c).producer q).Inside := by
  by_cases hq : q = p
  · rw [hq, goto_same, hc]
    exact hi.lock p
  · rw [goto_of_ne c hq]
    exact hi.lock q

theorem Inv.call (hi : Inv size s h) {x : α} (hidle : s.producer p = .idle) (hfree : 0 < s.free) :
    Inv size { s.goto p (.entered x) with free := s.free - 1 }
      { h with entered := h.entered + 1 } := by
  have hnot : s.tailLock ≠ some p := hi.not_inside (by rw [hidle]; exact id)
  have hinside := inside_goto_of_ne (.entered x) hnot
  obtain ⟨n, hwaiting, hn⟩ := hi.waiting
  obtain ⟨u, hleaving, hu⟩ := hi.leaving
  refine ⟨⟨n + 1, ?_, ?_⟩, ⟨u, ?_, hu⟩, ?_, ?_, ?_, hi.busy, hi.head, hi.serving, ?_, hi.order⟩
  · exact count_goto_join hwaiting (by rw [hidle]; exact id) trivial
  · show n + 1 + h.sections.length = h.entered + 1
    omega
  · exact count_goto hleaving (by rw [hidle]; exact iff_of_false id id)
  · exact hi.lock_goto (by rw [hidle]; exact iff_of_false id id)
  · show Critical size s.tail h.sections (s.goto p (.entered x)).inside
    rw [hinside]
    exact hi.critical
  · show s.free - 1 + (h.entered + 1) = size + h.freed
    have hcount := hi.free
    omega
  · show ∀ m x', h.freed ≤ m → m < whole h.sections.length (s.goto p (.entered x)).inside → _
    rw [hinside]
    exact hi.slots

theorem Inv.take (hi : Inv size s h) {x : α} (hentered : s.producer p = .entered x)
    (hlock : s.tailLock = none) :
    Inv size { s.goto p (.locked x) with tailLock := some p }
      { h with sections := h.sections ++ [x] } := by
  have hinside : s.inside = none := by
    unfold QueueState.inside
    rw [hlock]
    rfl
  have hlocked : QueueState.inside { s.goto p (.locked x) with tailLock := some p } =
      some (.locked x) := congrArg some (goto_same (.locked x))
  have hlen : (h.sections ++ [x]).length = h.sections.length + 1 := by
    rw [List.length_append, List.length_singleton]
  have htail := hi.critical
  have hslots := hi.slots
  rw [hinside] at htail hslots
  obtain ⟨n, hwaiting, hn⟩ := hi.waiting
  obtain ⟨u, hleaving, hu⟩ := hi.leaving
  rw [hlock] at hu
  obtain ⟨hpos, hwaiting'⟩ := count_goto_leave (c := .locked x) hwaiting
    (by rw [hentered]; trivial) id
  refine ⟨⟨n - 1, hwaiting', ?_⟩, ⟨u, ?_, ?_⟩, ?_, ?_, hi.free, hi.busy, hi.head, hi.serving, ?_, ?_⟩
  · show n - 1 + (h.sections ++ [x]).length = h.entered
    omega
  · exact count_goto hleaving (by rw [hentered]; exact iff_of_false id id)
  · show u + h.posted + (some p).toList.length = (h.sections ++ [x]).length
    rw [hlen, ← hu]
    rfl
  · intro q
    show some p = some q ↔ ((s.goto p (.locked x)).producer q).Inside
    by_cases hq : q = p
    · rw [hq, goto_same]
      exact iff_of_true rfl trivial
    · rw [goto_of_ne _ hq, ← hi.lock q, hlock]
      exact iff_of_false (fun heq => hq (Option.some.inj heq).symm) nofun
  · rw [hlocked]
    exact ⟨h.sections.length, ⟨h.sections, rfl, rfl⟩, htail⟩
  · intro m y hfreed hm hget
    rw [hlocked] at hm
    have hm' : m < h.sections.length := by
      have hlt : m < (h.sections ++ [x]).length - 1 := hm
      omega
    have hget' : h.sections[m]? = some y := by
      rwa [show (h.sections ++ [x])[m]? = h.sections[m]? from List.getElem?_append_left hm'] at hget
    exact hslots m y hfreed hm' hget'
  · have hle : h.obtained.length ≤ h.sections.length := by
      have hobtained := hi.obtained_le
      rwa [hinside] at hobtained
    show h.obtained = ((h.sections ++ [x]).take h.obtained.length).map some
    rw [List.take_append_of_le_length hle]
    exact hi.order

/-- A step inside the section that leaves `tail_lock` taken. -/
theorem Inv.within (hi : Inv size s h) (hp : (s.producer p).Inside) (c : Producer α)
    (hc : c.Inside) (tail : Nat) (slot : Nat → Option α)
    (hcritical : Critical size tail h.sections (some c))
    (hslots : ∀ m x, h.freed ≤ m → m < whole h.sections.length (some c) →
      h.sections[m]? = some x → slot (m % size) = some x) :
    Inv size { s.goto p c with tail := tail, slot := slot } h := by
  obtain ⟨hlock, -⟩ := hi.inside_eq hp
  have hinside : QueueState.inside { s.goto p c with tail := tail, slot := slot } = some c := by
    show s.tailLock.map _ = _
    rw [hlock]
    exact congrArg some (goto_same c)
  obtain ⟨n, hwaiting, hn⟩ := hi.waiting
  obtain ⟨u, hleaving, hu⟩ := hi.leaving
  refine ⟨⟨n, ?_, hn⟩, ⟨u, ?_, hu⟩, ?_, ?_, hi.free, hi.busy, hi.head, hi.serving, ?_, hi.order⟩
  · exact count_goto hwaiting (iff_of_false hc.not_entered hp.not_entered)
  · exact count_goto hleaving (iff_of_false hc.not_unlocked hp.not_unlocked)
  · exact hi.lock_goto (iff_of_true hc hp)
  · rw [hinside]
    exact hcritical
  · rw [hinside]
    exact hslots

/-- Writing the slot of the last section leaves the others alone. -/
theorem Inv.write (hi : Inv size s h) {x : α} {n : Nat} (hlast : Last h.sections x n)
    (hwhole : whole h.sections.length s.inside = h.sections.length - 1) (v : Option α)
    {m : Nat} {y : α} (hfreed : h.freed ≤ m) (hm : m < n) (hget : h.sections[m]? = some y) :
    upd s.slot (n % size) v (m % size) = some y := by
  obtain ⟨before, hsections, hbefore⟩ := hlast
  have hlen : h.sections.length = n + 1 := by
    rw [hsections, List.length_append, List.length_singleton, hbefore]
  have hroom := hi.room
  have hne : m % size ≠ n % size := mod_ne_of_near hm (by omega)
  rw [upd_of_ne _ _ hne]
  exact hi.slots m y hfreed (by rw [hwhole]; omega) hget

theorem Inv.index (hi : Inv size s h) {x : α} (hlocked : s.producer p = .locked x) :
    Inv size (s.goto p (.indexed x s.tail)) h := by
  obtain ⟨hlock, hinside⟩ := hi.inside_eq (by rw [hlocked]; trivial)
  have hcritical := hi.critical
  have hslots := hi.slots
  rw [hinside, hlocked] at hcritical hslots
  obtain ⟨n, hlast, htail⟩ := hcritical
  exact hi.within (by rw [hlocked]; trivial) (.indexed x s.tail) trivial s.tail s.slot
    ⟨n, hlast, htail, htail⟩ hslots

theorem Inv.advance {k : Nat} (hi : Inv (2 ^ k) s h) {x : α} {i : Nat}
    (hindexed : s.producer p = .indexed x i) :
    Inv (2 ^ k) { s.goto p (.advanced x i) with tail := succ (2 ^ k) s.tail } h := by
  obtain ⟨hlock, hinside⟩ := hi.inside_eq (by rw [hindexed]; trivial)
  have hcritical := hi.critical
  have hslots := hi.slots
  rw [hinside, hindexed] at hcritical hslots
  obtain ⟨n, hlast, hindex, htail⟩ := hcritical
  have hnext : succ (2 ^ k) s.tail = (n + 1) % 2 ^ k := by rw [htail, succ_mod]
  exact hi.within (by rw [hindexed]; trivial) (.advanced x i) trivial (succ (2 ^ k) s.tail) s.slot
    ⟨n, hlast, hindex, hnext⟩ hslots

/-- `memcpy` begins: the slot holds no message of its own any more. -/
theorem Inv.copy (hi : Inv size s h) {x : α} {i : Nat} (hadvanced : s.producer p = .advanced x i) :
    Inv size { s.goto p (.copying x i) with slot := upd s.slot i none } h := by
  obtain ⟨hlock, hinside⟩ := hi.inside_eq (by rw [hadvanced]; trivial)
  have hcritical := hi.critical
  rw [hinside, hadvanced] at hcritical
  obtain ⟨n, hlast, hindex, htail⟩ := hcritical
  have hwhole : whole h.sections.length s.inside = h.sections.length - 1 := by
    rw [hinside, hadvanced]
    rfl
  apply hi.within (by rw [hadvanced]; trivial) (.copying x i) trivial s.tail (upd s.slot i none)
    ⟨n, hlast, hindex, htail⟩
  intro m y hfreed hm hget
  have hm' : m < h.sections.length - 1 := hm
  have hlen : h.sections.length = n + 1 := by
    obtain ⟨before, hsections, hbefore⟩ := hlast
    rw [hsections, List.length_append, List.length_singleton, hbefore]
  rw [hindex]
  exact hi.write hlast hwhole none hfreed (by omega) hget

theorem Inv.copied (hi : Inv size s h) {x : α} {i : Nat} (hcopying : s.producer p = .copying x i) :
    Inv size { s.goto p .copied with slot := upd s.slot i (some x) } h := by
  obtain ⟨hlock, hinside⟩ := hi.inside_eq (by rw [hcopying]; trivial)
  have hcritical := hi.critical
  rw [hinside, hcopying] at hcritical
  obtain ⟨n, hlast, hindex, htail⟩ := hcritical
  have hwhole : whole h.sections.length s.inside = h.sections.length - 1 := by
    rw [hinside, hcopying]
    rfl
  have hlen : h.sections.length = n + 1 := by
    obtain ⟨before, hsections, hbefore⟩ := hlast
    rw [hsections, List.length_append, List.length_singleton, hbefore]
  have htail' : s.tail = h.sections.length % size := by rw [htail, hlen]
  apply hi.within (by rw [hcopying]; trivial) .copied trivial s.tail (upd s.slot i (some x)) htail'
  intro m y hfreed hm hget
  have hm' : m < h.sections.length := hm
  rw [hindex]
  by_cases hmn : m = n
  · -- the message that has just been copied
    have hxy : h.sections[n]? = some x := by
      obtain ⟨before, hsections, hbefore⟩ := hlast
      rw [hsections, ← hbefore]
      exact List.getElem?_concat_length
    rw [hmn, hxy] at hget
    rw [hmn, upd_same, hget]
  · exact hi.write hlast hwhole (some x) hfreed (by omega) hget

theorem Inv.unlock (hi : Inv size s h) (hcopied : s.producer p = .copied) :
    Inv size { s.goto p .unlocked with tailLock := none } h := by
  obtain ⟨hlock, hinside⟩ := hi.inside_eq (by rw [hcopied]; trivial)
  have hcritical := hi.critical
  have hslots := hi.slots
  rw [hinside, hcopied] at hcritical hslots
  obtain ⟨n, hwaiting, hn⟩ := hi.waiting
  obtain ⟨u, hleaving, hu⟩ := hi.leaving
  rw [hlock] at hu
  refine ⟨⟨n, ?_, hn⟩, ⟨u + 1, ?_, ?_⟩, ?_, hcritical, hi.free, hi.busy, hi.head, hi.serving, hslots,
    hi.order⟩
  · exact count_goto hwaiting (by rw [hcopied]; exact iff_of_false id id)
  · exact count_goto_join hleaving (by rw [hcopied]; exact id) trivial
  · show u + 1 + h.posted + (none : Option Nat).toList.length = h.sections.length
    rw [← hu]
    show u + 1 + h.posted + 0 = u + h.posted + 1
    omega
  · intro q
    show none = some q ↔ ((s.goto p .unlocked).producer q).Inside
    by_cases hq : q = p
    · rw [hq, goto_same]
      exact iff_of_false nofun id
    · rw [goto_of_ne _ hq, ← hi.lock q, hlock]
      exact iff_of_false nofun fun heq => hq (Option.some.inj heq).symm

theorem Inv.post (hi : Inv size s h) (hunlocked : s.producer p = .unlocked) :
    Inv size { s.goto p .idle with busy := s.busy + 1 } { h with posted := h.posted + 1 } := by
  have hnot : s.tailLock ≠ some p := hi.not_inside (by rw [hunlocked]; exact id)
  have hinside := inside_goto_of_ne .idle hnot
  obtain ⟨n, hwaiting, hn⟩ := hi.waiting
  obtain ⟨u, hleaving, hu⟩ := hi.leaving
  obtain ⟨hpos, hleaving'⟩ := count_goto_leave (c := .idle) hleaving
    (by rw [hunlocked]; trivial) id
  refine ⟨⟨n, ?_, hn⟩, ⟨u - 1, hleaving', ?_⟩, ?_, ?_, hi.free, ?_, hi.head, hi.serving, ?_, hi.order⟩
  · exact count_goto hwaiting (by rw [hunlocked]; exact iff_of_false id id)
  · show u - 1 + (h.posted + 1) + s.tailLock.toList.length = h.sections.length
    omega
  · exact hi.lock_goto (by rw [hunlocked]; exact iff_of_false id id)
  · show Critical size s.tail h.sections (s.goto p .idle).inside
    rw [hinside]
    exact hi.critical
  · show s.busy + 1 + h.taken = h.posted + 1
    have hbusy := hi.busy
    omega
  · show ∀ m x, h.freed ≤ m → m < whole h.sections.length (s.goto p .idle).inside → _
    rw [hinside]
    exact hi.slots

/-! ### A run -/

theorem Inv.start : Inv size (initMsgQueue size : QueueState α) (queueHistory α).start where
  waiting := ⟨0, Count.none fun _ => id, rfl⟩
  leaving := ⟨0, Count.none fun _ => id, rfl⟩
  lock _ := iff_of_false nofun id
  critical := (Nat.zero_mod size).symm
  free := rfl
  busy := rfl
  head := (Nat.zero_mod size).symm
  serving := ⟨rfl, rfl⟩
  slots m x _ hm := by cases hm
  order := rfl

theorem Inv.enqueue {k : Nat} (hi : Inv (2 ^ k) s h) (hstep : s.enqueue (2 ^ k) p = .ok s') :
    Inv (2 ^ k) s' ((queueHistory α).obs h s (.produce p) s') := by
  unfold QueueState.enqueue at hstep
  unfold queueHistory
  cases hp : s.producer p with
  | idle =>
      rw [hp] at hstep
      cases hstep
  | entered x =>
      simp only [hp, System.guard_eq_ok, Except.ok.injEq] at hstep
      obtain ⟨hlock, hstep⟩ := hstep
      simp only [hp, ← hstep]
      exact hi.take hp hlock
  | locked x =>
      simp only [hp, Except.ok.injEq] at hstep
      simp only [hp, ← hstep]
      exact hi.index hp
  | indexed x i =>
      simp only [hp, Except.ok.injEq] at hstep
      simp only [hp, ← hstep]
      exact hi.advance hp
  | advanced x i =>
      simp only [hp, Except.ok.injEq] at hstep
      simp only [hp, ← hstep]
      exact hi.copy hp
  | copying x i =>
      simp only [hp, Except.ok.injEq] at hstep
      simp only [hp, ← hstep]
      exact hi.copied hp
  | copied =>
      simp only [hp, Except.ok.injEq] at hstep
      simp only [hp, ← hstep]
      exact hi.unlock hp
  | unlocked =>
      simp only [hp, Except.ok.injEq] at hstep
      simp only [hp, ← hstep]
      exact hi.post hp

theorem Inv.serve {k : Nat} (hi : Inv (2 ^ k) s h) (hstep : s.serve (2 ^ k) = .ok s') :
    Inv (2 ^ k) s' ((queueHistory α).obs h s .consume s') := by
  unfold QueueState.serve at hstep
  unfold queueHistory
  cases hc : s.consumer with
  | idle =>
      simp only [hc, System.guard_eq_ok, Except.ok.injEq] at hstep
      obtain ⟨hbusy, hstep⟩ := hstep
      simp only [hc, ← hstep]
      exact hi.wake hc hbusy
  | woken =>
      simp only [hc, Except.ok.injEq] at hstep
      simp only [hc, ← hstep]
      exact hi.pick hc
  | picked i =>
      simp only [hc, Except.ok.injEq] at hstep
      simp only [hc, ← hstep]
      exact hi.dequeue hc
  | «using» i =>
      simp only [hc, Except.ok.injEq] at hstep
      simp only [hc, ← hstep]
      exact hi.release hc

theorem Inv.step {k : Nat} (hi : Inv (2 ^ k) s h) {e : QueueEvent α}
    (hstep : queueStep (2 ^ k) s e = .ok s') :
    Inv (2 ^ k) s' ((queueHistory α).obs h s e s') := by
  cases e with
  | call p x =>
      have hcall : s.waitFree p x = .ok s' := hstep
      unfold QueueState.waitFree at hcall
      split at hcall
      · rename_i hidle
        by_cases hfree : 0 < s.free
        · rw [if_pos hfree, Except.ok.injEq] at hcall
          subst hcall
          exact hi.call hidle hfree
        · rw [if_neg hfree] at hcall
          cases hcall
      · cases hcall
  | produce p => exact hi.enqueue hstep
  | consume => exact hi.serve hstep

theorem reach_inv {k : Nat} {x : QueueState α × QueueHistory α}
    (hx : ((queueSystem α (2 ^ k)).withHist (queueHistory α)).Reach x) : Inv (2 ^ k) x.1 x.2 := by
  apply hx.invariant (I := fun x => Inv (2 ^ k) x.1 x.2)
  · exact .start
  · intro x e x' _ hi hstep
    rw [hstep.2]
    exact hi.step hstep.1

/-! ## The result -/

/-- When nobody is inside and nothing is left, all messages were obtained. -/
theorem Inv.complete (hi : Inv size s h) (hidle : ∀ p, s.producer p = .idle)
    (hconsumer : s.consumer = .idle) (hbusy : s.busy = 0) : h.obtained = h.sections.map some := by
  obtain ⟨u, hleaving, hu⟩ := hi.leaving
  have hnone : u = 0 := by
    obtain ⟨members, hmembers, hcard⟩ := hleaving
    rw [← hcard, Finset.card_eq_zero, Finset.eq_empty_iff_forall_notMem]
    intro p hp
    have hunlocked : (s.producer p).Unlocked := (hmembers p).mp hp
    rw [hidle p] at hunlocked
    exact hunlocked
  have hlock : s.tailLock = none := by
    cases hlock : s.tailLock with
    | none => rfl
    | some p =>
        have hinside := (hi.lock p).mp hlock
        rw [hidle p] at hinside
        exact hinside.elim
  have hserving := hi.serving
  rw [hconsumer] at hserving
  obtain ⟨htaken, -⟩ := hserving
  have hcount := hi.busy
  rw [hlock] at hu
  have hzero : (none : Option Nat).toList.length = 0 := rfl
  have hlen : h.obtained.length = h.sections.length := by omega
  rw [hi.order, hlen, List.take_length]

/-- The message stays in the slot the consumer works on. -/
theorem Inv.stays (hi : Inv size s h) {i : Nat} (husing : s.consumer = .using i) :
    ∃ x, h.obtained.getLast? = some (some x) ∧ s.slot i = some x := by
  have hserving := hi.serving
  rw [husing] at hserving
  obtain ⟨htaken, hfreed, hindex⟩ := hserving
  have hobtained := hi.obtained_le
  have hwhole := whole_le h.sections.length s.inside
  have hlt : h.freed < h.sections.length := by omega
  have hget : h.sections[h.freed]? = some h.sections[h.freed] := List.getElem?_eq_getElem hlt
  refine ⟨h.sections[h.freed], ?_, ?_⟩
  · rw [hi.order, ← hfreed, getElem?_take_succ hget, List.map_append, List.map_singleton,
      List.getLast?_concat]
  · rw [hindex]
    exact hi.slots _ _ le_rfl (by omega) hget

/-- A slot is written when all earlier messages in it were posted free. -/
theorem Inv.freed_of_copying (hi : Inv size s h) {x : α} {i : Nat}
    (hcopying : s.producer p = .copying x i) : i = (h.sections.length - 1) % size ∧
      ∀ m, m + 1 < h.sections.length → m % size = i → m < h.freed := by
  obtain ⟨-, hinside⟩ := hi.inside_eq (by rw [hcopying]; trivial)
  have hcritical := hi.critical
  rw [hinside, hcopying] at hcritical
  obtain ⟨n, hlast, hindex, -⟩ := hcritical
  have hlen : h.sections.length = n + 1 := by
    obtain ⟨before, hsections, hbefore⟩ := hlast
    rw [hsections, List.length_append, List.length_singleton, hbefore]
  have hroom := hi.room
  rw [hlen, Nat.add_sub_cancel]
  refine ⟨hindex, ?_⟩
  intro m hm hslot
  by_contra hnot
  exact mod_ne_of_near (show m < n by omega) (show n < m + size by omega) (hslot.trans hindex)

theorem Inv.ok (hi : Inv size s h) : QueueOk size s h where
  order := hi.order
  complete := hi.complete
  stays _ := hi.stays
  freed _ _ _ := hi.freed_of_copying

end Steps

/-- For every size that is a power of two, over every run. -/
theorem msg_queue_ok (k : Nat) {x : QueueState α × QueueHistory α}
    (hx : ((queueSystem α (2 ^ k)).withHist (queueHistory α)).Reach x) :
    QueueOk (2 ^ k) x.1 x.2 :=
  (reach_inv hx).ok

/-- Two producers on two slots: both wait for `tail_lock`, and the consumer gets the message of
the one that had it first. -/
def twoProducers : List (QueueEvent Nat) :=
  [.call 0 10, .call 1 11, .produce 1, .produce 1, .produce 1, .produce 1, .produce 1, .produce 1,
    .produce 0, .produce 1, .consume, .produce 0, .consume, .consume]

theorem msg_queue_ok_twoProducers : ∃ x : QueueState Nat × QueueHistory Nat,
    ((queueSystem Nat 2).withHist (queueHistory Nat)).Reach x ∧
      (∃ i, x.1.consumer = .using i ∧ x.1.slot i = some 11) ∧ QueueOk 2 x.1 x.2 := by
  obtain ⟨s, hs, husing⟩ := System.exists_execBy (S := queueSystem Nat 2) (f := queueStep 2)
    (fun _ _ _ hstep => hstep) twoProducers
    (fun s => match s.consumer with
      | .using i => s.slot i = some 11
      | _ => false) (by decide)
  obtain ⟨h, hh⟩ := hs.exists_hist (queueHistory Nat)
  refine ⟨(s, h), hh, ?_, msg_queue_ok 1 hh⟩
  split at husing
  · rename_i i hi
    exact ⟨i, hi, of_decide_eq_true husing⟩
  · cases husing

end Jiajia.MsgQueue
