import Jiajia.Lib.Scan
import Jiajia.Lib.Transition

/-!
# The message buffer

`freemsg_lock` passes the semaphore and scans the slots once with a compare and
swap; `freemsg_unlock` frees the slot and posts the semaphore.  The threads'
atomic steps interleave in any order.
-/

namespace Jiajia.MsgBuffer

open Transition Scan

inductive SlotState
  | free
  | busy
  deriving DecidableEq, Repr

/-- Where a thread stands. -/
inductive Pc
  /-- In neither of the two functions. -/
  | idle
  /-- In the loop of `freemsg_lock`, at the head of iteration `i`. -/
  | scan (i : Nat)
  /-- In `freemsg_unlock`, between the store and `sem_post`. -/
  | post
  /-- `freemsg_lock` returned `NULL`; `passed` tells whether `sem_wait` had let it pass. -/
  | null (passed : Bool)
  deriving DecidableEq, Repr

/-- A thread with the slots that `freemsg_lock` has returned to it. -/
structure Thread where
  pc : Pc
  held : List Nat

structure Buffer (ι : Type*) where
  size : Nat
  count : Nat
  slot : Nat → SlotState
  thread : ι → Thread

/-- The atomic steps; `interrupted` is a `sem_wait` that fails. -/
inductive Action
  | semWait
  | interrupted
  | compareExchange
  | storeFree (i : Nat)
  | semPost
  deriving DecidableEq, Repr

variable {ι : Type*}

def Buffer.setSlot (s : Buffer ι) (i : Nat) (x : SlotState) : Buffer ι :=
  { s with slot := Function.update s.slot i x }

@[simp] theorem setSlot_size (s : Buffer ι) (i : Nat) (x : SlotState) :
    (s.setSlot i x).size = s.size := rfl

@[simp] theorem setSlot_count (s : Buffer ι) (i : Nat) (x : SlotState) :
    (s.setSlot i x).count = s.count := rfl

@[simp] theorem setSlot_slot (s : Buffer ι) (i : Nat) (x : SlotState) :
    (s.setSlot i x).slot = Function.update s.slot i x := rfl

@[simp] theorem setSlot_thread (s : Buffer ι) (i : Nat) (x : SlotState) :
    (s.setSlot i x).thread = s.thread := rfl

variable [DecidableEq ι]

/-- A size that is not positive stands for the default size. -/
def initMsgBuffer (msgBufferSize size : Int) : Buffer ι :=
  let size := (if size ≤ 0 then msgBufferSize else size).toNat
  { size, count := size, slot := fun _ => .free, thread := fun _ => ⟨.idle, []⟩ }

def Buffer.setThread (s : Buffer ι) (t : ι) (x : Thread) : Buffer ι :=
  { s with thread := Function.update s.thread t x }

/-- One iteration of the loop of `freemsg_lock`. -/
def Buffer.scanStep (s : Buffer ι) (t : ι) (i : Nat) : Buffer ι :=
  if i < s.size then
    if s.slot i = .free then
      (s.setSlot i .busy).setThread t ⟨.idle, i :: (s.thread t).held⟩
    else s.setThread t { s.thread t with pc := .scan (i + 1) }
  else s.setThread t { s.thread t with pc := .null true }

def step (s : Buffer ι) (t : ι) (a : Action) : Option (Buffer ι) :=
  match (s.thread t).pc, a with
  | .idle, .semWait =>
      if 0 < s.count then
        some ({ s with count := s.count - 1 }.setThread t { s.thread t with pc := .scan 0 })
      else none
  | .idle, .interrupted => some (s.setThread t { s.thread t with pc := .null false })
  | .scan i, .compareExchange => some (s.scanStep t i)
  | .idle, .storeFree i =>
      if i ∈ (s.thread t).held then
        some ((s.setSlot i .free).setThread t ⟨.post, (s.thread t).held.erase i⟩)
      else none
  | .post, .semPost =>
      some ({ s with count := s.count + 1 }.setThread t { s.thread t with pc := .idle })
  | _, _ => none

/-- Any thread may take the next step. -/
def system (msgBufferSize size : Int) : System (Buffer ι) (ι × Action) where
  start := initMsgBuffer msgBufferSize size
  next s e s' := step s e.1 e.2 = some s'

/-! ## What one step does -/

@[simp] theorem setThread_size (s : Buffer ι) (t : ι) (x : Thread) :
    (s.setThread t x).size = s.size := rfl

@[simp] theorem setThread_count (s : Buffer ι) (t : ι) (x : Thread) :
    (s.setThread t x).count = s.count := rfl

@[simp] theorem setThread_slot (s : Buffer ι) (t : ι) (x : Thread) :
    (s.setThread t x).slot = s.slot := rfl

@[simp] theorem setThread_thread (s : Buffer ι) (t : ι) (x : Thread) :
    (s.setThread t x).thread = Function.update s.thread t x := rfl

/-- The steps by what they change. -/
inductive Moves (s : Buffer ι) (t : ι) : Buffer ι → Prop
  | semWait (hpc : (s.thread t).pc = .idle) (hcount : 0 < s.count) :
      Moves s t ({ s with count := s.count - 1 }.setThread t { s.thread t with pc := .scan 0 })
  | interrupted (hpc : (s.thread t).pc = .idle) :
      Moves s t (s.setThread t { s.thread t with pc := .null false })
  | taken (i : Nat) (hpc : (s.thread t).pc = .scan i) (hi : i < s.size)
      (hfree : s.slot i = .free) :
      Moves s t ((s.setSlot i .busy).setThread t ⟨.idle, i :: (s.thread t).held⟩)
  | passed (i : Nat) (hpc : (s.thread t).pc = .scan i) (hi : i < s.size)
      (hbusy : s.slot i ≠ .free) :
      Moves s t (s.setThread t { s.thread t with pc := .scan (i + 1) })
  | missed (i : Nat) (hpc : (s.thread t).pc = .scan i) (hi : s.size ≤ i) :
      Moves s t (s.setThread t { s.thread t with pc := .null true })
  | storeFree (i : Nat) (hpc : (s.thread t).pc = .idle) (hi : i ∈ (s.thread t).held) :
      Moves s t ((s.setSlot i .free).setThread t ⟨.post, (s.thread t).held.erase i⟩)
  | semPost (hpc : (s.thread t).pc = .post) :
      Moves s t ({ s with count := s.count + 1 }.setThread t { s.thread t with pc := .idle })

theorem step_moves {s s' : Buffer ι} {t : ι} {a : Action} (h : step s t a = some s') :
    Moves s t s' := by
  unfold step at h
  split at h
  · rename_i hpc
    split at h
    · rename_i hcount
      exact Option.some.inj h ▸ .semWait hpc hcount
    · cases h
  · rename_i hpc
    exact Option.some.inj h ▸ .interrupted hpc
  · rename_i i hpc
    rw [← Option.some.inj h, Buffer.scanStep]
    split
    · rename_i hi
      split
      · rename_i hfree
        exact .taken i hpc hi hfree
      · rename_i hbusy
        exact .passed i hpc hi hbusy
    · rename_i hi
      exact .missed i hpc (Nat.le_of_not_lt hi)
  · rename_i i hpc
    split at h
    · rename_i hi
      exact Option.some.inj h ▸ .storeFree i hpc hi
    · cases h
  · rename_i hpc
    exact Option.some.inj h ▸ .semPost hpc
  · cases h

/-! ## Slots and their holders -/

/-- A slot that a thread holds is busy and is held once. -/
structure Owned (s : Buffer ι) : Prop where
  busy : ∀ t, ∀ i ∈ (s.thread t).held, i < s.size ∧ s.slot i = .busy
  nodup : ∀ t, (s.thread t).held.Nodup
  apart : ∀ t u, t ≠ u → ∀ i ∈ (s.thread t).held, i ∉ (s.thread u).held

omit [DecidableEq ι] in
/-- What a thread holds depends on its own steps only. -/
theorem Owned.of_held {s s' : Buffer ι} (h : Owned s) (hsize : s'.size = s.size)
    (hslot : s'.slot = s.slot) (hheld : ∀ t, (s'.thread t).held = (s.thread t).held) :
    Owned s' where
  busy t i hi := by
    rw [hheld] at hi
    rw [hsize, hslot]
    exact h.busy t i hi
  nodup t := by
    rw [hheld]
    exact h.nodup t
  apart t u htu i hi := by
    rw [hheld] at hi ⊢
    exact h.apart t u htu i hi

theorem held_setPc (s : Buffer ι) (t : ι) (pc : Pc) (u : ι) :
    ((s.setThread t { s.thread t with pc := pc }).thread u).held = (s.thread u).held := by
  rw [setThread_thread]
  by_cases hu : u = t
  · subst hu
    rw [Function.update_self]
  · rw [Function.update_of_ne hu]

theorem Owned.taken {s : Buffer ι} (h : Owned s) (t : ι) {i : Nat} (hi : i < s.size)
    (hfree : s.slot i = .free) :
    Owned ((s.setSlot i .busy).setThread t ⟨.idle, i :: (s.thread t).held⟩) := by
  have hnew : ∀ u, i ∉ (s.thread u).held := by
    intro u hmem
    have hbusy := (h.busy u i hmem).2
    rw [hfree] at hbusy
    cases hbusy
  have hheld : ∀ u j, j ∈ (Function.update s.thread t ⟨.idle, i :: (s.thread t).held⟩ u).held →
      (u = t ∧ j = i) ∨ j ∈ (s.thread u).held := by
    intro u j hj
    by_cases hu : u = t
    · subst hu
      rw [Function.update_self, List.mem_cons] at hj
      exact hj.imp (fun heq => ⟨rfl, heq⟩) id
    · rw [Function.update_of_ne hu] at hj
      exact .inr hj
  constructor
  · intro u j hj
    show j < s.size ∧ Function.update s.slot i .busy j = .busy
    by_cases hji : j = i
    · subst hji
      exact ⟨hi, Function.update_self ..⟩
    · rw [Function.update_of_ne hji]
      cases hheld u j hj with
      | inl heq => exact absurd heq.2 hji
      | inr hmem => exact h.busy u j hmem
  · intro u
    rw [setThread_thread, setSlot_thread]
    by_cases hu : u = t
    · subst hu
      rw [Function.update_self]
      exact List.nodup_cons.mpr ⟨hnew u, h.nodup u⟩
    · rw [Function.update_of_ne hu]
      exact h.nodup u
  · intro u v huv j hju hjv
    cases hheld u j hju with
    | inl heq =>
        cases hheld v j hjv with
        | inl heq' => exact huv (heq.1.trans heq'.1.symm)
        | inr hmem => exact hnew v (heq.2 ▸ hmem)
    | inr hmem =>
        cases hheld v j hjv with
        | inl heq => exact hnew u (heq.2 ▸ hmem)
        | inr hmem' => exact h.apart u v huv j hmem hmem'

theorem Owned.storeFree {s : Buffer ι} (h : Owned s) {t : ι} {i : Nat}
    (hi : i ∈ (s.thread t).held) :
    Owned ((s.setSlot i .free).setThread t ⟨.post, (s.thread t).held.erase i⟩) := by
  have hheld : ∀ u j,
      j ∈ (Function.update s.thread t ⟨.post, (s.thread t).held.erase i⟩ u).held →
      j ≠ i ∧ j ∈ (s.thread u).held := by
    intro u j hj
    by_cases hu : u = t
    · subst hu
      rw [Function.update_self] at hj
      exact (List.Nodup.mem_erase_iff (h.nodup u)).mp hj
    · rw [Function.update_of_ne hu] at hj
      have hne : j ≠ i := fun heq => h.apart t u (Ne.symm hu) i hi (heq ▸ hj)
      exact ⟨hne, hj⟩
  constructor
  · intro u j hj
    have hmem := hheld u j hj
    show j < s.size ∧ Function.update s.slot i .free j = .busy
    rw [Function.update_of_ne hmem.1]
    exact h.busy u j hmem.2
  · intro u
    rw [setThread_thread, setSlot_thread]
    by_cases hu : u = t
    · subst hu
      rw [Function.update_self]
      exact (h.nodup u).erase i
    · rw [Function.update_of_ne hu]
      exact h.nodup u
  · intro u v huv j hju hjv
    exact h.apart u v huv j (hheld u j hju).2 (hheld v j hjv).2

theorem Owned.moves {s s' : Buffer ι} {t : ι} (h : Owned s) (hm : Moves s t s') : Owned s' := by
  cases hm with
  | semWait hpc hcount => exact h.of_held rfl rfl (held_setPc _ t _)
  | interrupted hpc => exact h.of_held rfl rfl (held_setPc s t _)
  | taken i hpc hi hfree => exact h.taken t hi hfree
  | passed i hpc hi hbusy => exact h.of_held rfl rfl (held_setPc s t _)
  | missed i hpc hi => exact h.of_held rfl rfl (held_setPc s t _)
  | storeFree i hpc hi => exact h.storeFree hi
  | semPost hpc => exact h.of_held rfl rfl (held_setPc _ t _)

/-! ## Free slots and permits -/

/-- The position of a thread in the loop of `freemsg_lock`. -/
def Pc.position : Pc → Option Nat
  | .scan i => some i
  | _ => none

def Buffer.position (s : Buffer ι) (t : ι) : Option Nat := (s.thread t).pc.position

def Buffer.freeSlots (s : Buffer ι) : Finset Nat :=
  (Finset.range s.size).filter fun i => s.slot i = .free

omit [DecidableEq ι] in
theorem mem_freeSlots {s : Buffer ι} {i : Nat} :
    i ∈ s.freeSlots ↔ i < s.size ∧ s.slot i = .free := by
  rw [Buffer.freeSlots, Finset.mem_filter, Finset.mem_range]

theorem position_setThread (s : Buffer ι) (t : ι) (x : Thread) :
    (s.setThread t x).position = Function.update s.position t x.pc.position := by
  ext1 u
  rw [Buffer.position, setThread_thread]
  by_cases hu : u = t
  · subst hu
    rw [Function.update_self, Function.update_self]
  · rw [Function.update_of_ne hu, Function.update_of_ne hu, Buffer.position]

theorem freeSlots_setThread (s : Buffer ι) (t : ι) (x : Thread) :
    (s.setThread t x).freeSlots = s.freeSlots := rfl

omit [DecidableEq ι] in
theorem freeSlots_taken (s : Buffer ι) (i : Nat) :
    (s.setSlot i .busy).freeSlots = s.freeSlots.erase i := by
  ext j
  rw [mem_freeSlots, Finset.mem_erase, mem_freeSlots, setSlot_slot, setSlot_size]
  by_cases hj : j = i
  · simp [hj]
  · simp [hj]

omit [DecidableEq ι] in
theorem freeSlots_storeFree (s : Buffer ι) {i : Nat} (hi : i < s.size) :
    (s.setSlot i .free).freeSlots = insert i s.freeSlots := by
  ext j
  rw [mem_freeSlots, Finset.mem_insert, mem_freeSlots, setSlot_slot, setSlot_size]
  by_cases hj : j = i
  · simp [hj, hi]
  · simp [hj]

variable [Fintype ι]

/-- The threads between their store and their `sem_post`. -/
def Buffer.posting (s : Buffer ι) : Finset ι :=
  Finset.univ.filter fun t => (s.thread t).pc = .post

/-- The permits and the free slots: scanning threads, the semaphore's count and
pending posts share them out. -/
structure Permits (s : Buffer ι) : Prop where
  enough : Enough s.position s.freeSlots
  total : s.freeSlots.card = (scanners s.position 0).card + s.count + s.posting.card
  found : ∀ t, (s.thread t).pc ≠ .null true

theorem posting_setThread (s : Buffer ι) (t : ι) (x : Thread) :
    (s.setThread t x).posting =
      if x.pc = .post then insert t s.posting else s.posting.erase t := by
  ext u
  rw [Buffer.posting, Finset.mem_filter, setThread_thread]
  by_cases hu : u = t
  · subst hu
    split <;> simp_all
  · rw [Function.update_of_ne hu]
    split <;> simp [Buffer.posting, hu]

omit [DecidableEq ι] in
theorem mem_posting {s : Buffer ι} {t : ι} : t ∈ s.posting ↔ (s.thread t).pc = .post := by
  simp [Buffer.posting]

omit [Fintype ι] in
theorem found_setThread {s : Buffer ι} (h : ∀ t, (s.thread t).pc ≠ .null true) {t : ι}
    {x : Thread} (hx : x.pc ≠ .null true) (u : ι) :
    ((s.setThread t x).thread u).pc ≠ .null true := by
  rw [setThread_thread]
  by_cases hu : u = t
  · subst hu
    rw [Function.update_self]
    exact hx
  · rw [Function.update_of_ne hu]
    exact h u

omit [DecidableEq ι] [Fintype ι] in
theorem position_none {s : Buffer ι} {t : ι} {pc : Pc} (hpc : (s.thread t).pc = pc)
    (hpos : pc.position = none) : s.position t = none := by
  rw [Buffer.position, hpc, hpos]

omit [DecidableEq ι] [Fintype ι] in
theorem position_some {s : Buffer ι} {t : ι} {i : Nat} (hpc : (s.thread t).pc = .scan i) :
    s.position t = some i := by
  rw [Buffer.position, hpc, Pc.position]

/-! ## The permits through a step -/

namespace Permits

variable {s : Buffer ι} {t : ι}

omit [DecidableEq ι] in
theorem start (msgBufferSize size : Int) :
    Permits (initMsgBuffer msgBufferSize size : Buffer ι) where
  enough := .init _
  total := by
    have hpos : (initMsgBuffer msgBufferSize size : Buffer ι).position = fun _ => none := rfl
    have hpost : (initMsgBuffer msgBufferSize size : Buffer ι).posting = ∅ := by
      ext t
      simp [mem_posting, initMsgBuffer]
    rw [hpos, scanners_none, hpost]
    simp [Buffer.freeSlots, initMsgBuffer]
  found t := by
    rw [initMsgBuffer]
    exact Pc.noConfusion

theorem semWait (h : Permits s) (hpc : (s.thread t).pc = .idle) (hcount : 0 < s.count) :
    Permits ({ s with count := s.count - 1 }.setThread t
      { s.thread t with pc := .scan 0 }) := by
  have hpos : s.position t = none := position_none hpc rfl
  have htotal := h.total
  constructor
  · rw [position_setThread, freeSlots_setThread]
    exact h.enough.enter hpos (by omega)
  · rw [position_setThread, freeSlots_setThread, posting_setThread, if_neg Pc.noConfusion]
    have hnot : t ∉ s.posting := fun hmem => Pc.noConfusion (hpc.symm.trans (mem_posting.mp hmem))
    show s.freeSlots.card = (scanners (Function.update s.position t (some 0)) 0).card +
      (s.count - 1) + (s.posting.erase t).card
    rw [Finset.erase_eq_of_notMem hnot, scanners_update_some, if_pos (Nat.le_refl 0),
      Finset.card_insert_of_notMem (not_mem_scanners hpos 0)]
    omega
  · exact found_setThread h.found Pc.noConfusion

/-- A thread that is in neither function leaves the counts as they are. -/
theorem interrupted (h : Permits s) (hpc : (s.thread t).pc = .idle) :
    Permits (s.setThread t { s.thread t with pc := .null false }) := by
  have hpos : s.position t = none := position_none hpc rfl
  have hsame : Function.update s.position t none = s.position := by
    rw [← hpos, Function.update_eq_self]
  have hnot : t ∉ s.posting := fun hmem => Pc.noConfusion (hpc.symm.trans (mem_posting.mp hmem))
  constructor
  · rw [position_setThread, freeSlots_setThread]
    exact hsame.symm ▸ h.enough
  · rw [position_setThread, freeSlots_setThread, posting_setThread, if_neg Pc.noConfusion,
      Finset.erase_eq_of_notMem hnot]
    exact hsame.symm ▸ h.total
  · exact found_setThread h.found (by simp)

theorem taken (h : Permits s) {i : Nat} (hpc : (s.thread t).pc = .scan i) (hi : i < s.size)
    (hfree : s.slot i = .free) :
    Permits ((s.setSlot i .busy).setThread t ⟨.idle, i :: (s.thread t).held⟩) := by
  have hpos : s.position t = some i := position_some hpc
  have hmem : i ∈ s.freeSlots := mem_freeSlots.mpr ⟨hi, hfree⟩
  have hscan : t ∈ scanners s.position 0 := mem_scanners.mpr ⟨i, hpos, Nat.zero_le i⟩
  have hnot : t ∉ s.posting := fun hmem => Pc.noConfusion (hpc.symm.trans (mem_posting.mp hmem))
  constructor
  · rw [position_setThread, freeSlots_setThread, freeSlots_taken]
    exact h.enough.take hpos
  · rw [position_setThread, freeSlots_setThread, freeSlots_taken, posting_setThread,
      if_neg Pc.noConfusion]
    show (s.freeSlots.erase i).card = (scanners (Function.update s.position t none) 0).card +
      s.count + (s.posting.erase t).card
    have htotal := h.total
    have hpositive := Finset.card_pos.mpr ⟨t, hscan⟩
    rw [Finset.erase_eq_of_notMem hnot, scanners_update_none, Finset.card_erase_of_mem hmem,
      Finset.card_erase_of_mem hscan]
    omega
  · exact found_setThread (s := s.setSlot i .busy) h.found Pc.noConfusion

theorem passed (h : Permits s) {i : Nat} (hpc : (s.thread t).pc = .scan i)
    (hbusy : s.slot i ≠ .free) :
    Permits (s.setThread t { s.thread t with pc := .scan (i + 1) }) := by
  have hpos : s.position t = some i := position_some hpc
  have hscan : t ∈ scanners s.position 0 := mem_scanners.mpr ⟨i, hpos, Nat.zero_le i⟩
  have hnot : t ∉ s.posting := fun hmem => Pc.noConfusion (hpc.symm.trans (mem_posting.mp hmem))
  constructor
  · rw [position_setThread, freeSlots_setThread]
    exact h.enough.skip hpos fun hmem => hbusy (mem_freeSlots.mp hmem).2
  · rw [position_setThread, freeSlots_setThread, posting_setThread, if_neg Pc.noConfusion]
    show s.freeSlots.card = (scanners (Function.update s.position t (some (i + 1))) 0).card +
      s.count + (s.posting.erase t).card
    rw [Finset.erase_eq_of_notMem hnot, scanners_update_some, if_pos (Nat.zero_le _),
      Finset.insert_eq_of_mem hscan]
    exact h.total
  · exact found_setThread h.found Pc.noConfusion

omit [DecidableEq ι] in
/-- A scanning thread has not passed the last slot. -/
theorem position_lt (h : Permits s) {i : Nat} (hpc : (s.thread t).pc = .scan i) :
    ∃ k, i ≤ k ∧ k < s.size ∧ s.slot k = .free := by
  obtain ⟨k, hk, hle⟩ := h.enough.exists_free (position_some hpc)
  exact ⟨k, hle, mem_freeSlots.mp hk⟩

theorem storeFree (h : Permits s) {i : Nat} (hpc : (s.thread t).pc = .idle) (hi : i < s.size)
    (hbusy : s.slot i = .busy) :
    Permits ((s.setSlot i .free).setThread t ⟨.post, (s.thread t).held.erase i⟩) := by
  have hpos : s.position t = none := position_none hpc rfl
  have hsame : Function.update s.position t none = s.position := by
    rw [← hpos, Function.update_eq_self]
  have hnew : i ∉ s.freeSlots := by
    intro hmem
    have hfree := (mem_freeSlots.mp hmem).2
    rw [hbusy] at hfree
    cases hfree
  have hnot : t ∉ s.posting := fun hmem => Pc.noConfusion (hpc.symm.trans (mem_posting.mp hmem))
  constructor
  · rw [position_setThread, freeSlots_setThread, freeSlots_storeFree s hi]
    show Enough (Function.update s.position t none) (insert i s.freeSlots)
    rw [hsame]
    exact h.enough.give i
  · rw [position_setThread, freeSlots_setThread, freeSlots_storeFree s hi, posting_setThread,
      if_pos rfl]
    show (insert i s.freeSlots).card = (scanners (Function.update s.position t none) 0).card +
      s.count + (insert t s.posting).card
    rw [hsame, Finset.card_insert_of_notMem hnew, Finset.card_insert_of_notMem hnot, h.total]
    omega
  · exact found_setThread (s := s.setSlot i .free) h.found Pc.noConfusion

theorem semPost (h : Permits s) (hpc : (s.thread t).pc = .post) :
    Permits ({ s with count := s.count + 1 }.setThread t { s.thread t with pc := .idle }) := by
  have hpos : s.position t = none := position_none hpc rfl
  have hsame : Function.update s.position t none = s.position := by
    rw [← hpos, Function.update_eq_self]
  have hmem : t ∈ s.posting := mem_posting.mpr hpc
  constructor
  · rw [position_setThread, freeSlots_setThread]
    show Enough (Function.update s.position t none) s.freeSlots
    exact hsame.symm ▸ h.enough
  · rw [position_setThread, freeSlots_setThread, posting_setThread, if_neg Pc.noConfusion]
    show s.freeSlots.card = (scanners (Function.update s.position t none) 0).card +
      (s.count + 1) + (s.posting.erase t).card
    have hpositive := Finset.card_pos.mpr ⟨t, hmem⟩
    rw [hsame, Finset.card_erase_of_mem hmem, h.total]
    omega
  · exact found_setThread h.found Pc.noConfusion

/-- The permits stay in step with the free slots; the last case of a scan does not arise. -/
theorem moves {s' : Buffer ι} (h : Permits s) (ho : Owned s) (hm : Moves s t s') :
    Permits s' := by
  cases hm with
  | semWait hpc hcount => exact h.semWait hpc hcount
  | interrupted hpc => exact h.interrupted hpc
  | taken i hpc hi hfree => exact h.taken hpc hi hfree
  | passed i hpc hi hbusy => exact h.passed hpc hbusy
  | missed i hpc hi =>
      obtain ⟨k, hik, hk, _⟩ := h.position_lt hpc
      omega
  | storeFree i hpc hi =>
      have hbusy := ho.busy t i hi
      exact h.storeFree hpc hbusy.1 hbusy.2
  | semPost hpc => exact h.semPost hpc

end Permits

theorem reach_permits {msgBufferSize size : Int} {s : Buffer ι}
    (hs : (system msgBufferSize size).Reach s) : Owned s ∧ Permits s := by
  apply hs.invariant (I := fun s => Owned s ∧ Permits s)
  · constructor
    · constructor <;> intros <;> simp_all [system, initMsgBuffer]
    · exact Permits.start msgBufferSize size
  · intro s e s' _ h hstep
    have hm := step_moves hstep
    exact ⟨h.1.moves hm, h.2.moves h.1 hm⟩

/-! ## A pass of `freemsg_lock` -/

omit [Fintype ι] in
theorem Moves.other {s s' : Buffer ι} {t u : ι} (hm : Moves s t s') (hu : u ≠ t) :
    s'.thread u = s.thread u := by
  cases hm <;> exact Function.update_of_ne hu _ _

omit [Fintype ι] in
theorem Moves.size {s s' : Buffer ι} {t : ι} (hm : Moves s t s') : s'.size = s.size := by
  cases hm <;> rfl

/-- A step of a scanning thread takes the slot or moves on. -/
theorem Moves.scanning {s s' : Buffer ι} {t : ι} (hm : Moves s t s') (h : Permits s) {i : Nat}
    (hpc : (s.thread t).pc = .scan i) :
    (i < s.size ∧ s'.thread t = ⟨.idle, i :: (s.thread t).held⟩) ∨
      s'.thread t = ⟨.scan (i + 1), (s.thread t).held⟩ := by
  cases hm with
  | taken k hk hlt hfree =>
      have hki : k = i := Pc.scan.inj (hk.symm.trans hpc)
      subst hki
      exact .inl ⟨hlt, Function.update_self ..⟩
  | passed k hk hlt hbusy =>
      have hki : k = i := Pc.scan.inj (hk.symm.trans hpc)
      subst hki
      exact .inr (Function.update_self ..)
  | missed k hk hle =>
      obtain ⟨j, hkj, hj, _⟩ := h.position_lt hk
      omega
  | semWait h' _ => exact Pc.noConfusion (h'.symm.trans hpc)
  | interrupted h' => exact Pc.noConfusion (h'.symm.trans hpc)
  | storeFree k h' _ => exact Pc.noConfusion (h'.symm.trans hpc)
  | semPost h' => exact Pc.noConfusion (h'.symm.trans hpc)

/-- Somewhere in the run the thread leaves `freemsg_lock` with a slot. -/
def GetsSlot (msgBufferSize size : Int) (s : Buffer ι) (t : ι) (es : List (ι × Action)) : Prop :=
  ∃ es₁ es₂ s₁ k, es = es₁ ++ es₂ ∧ (system msgBufferSize size).Run s es₁ s₁ ∧ k < s.size ∧
    s₁.thread t = ⟨.idle, k :: (s.thread t).held⟩

/-- A scan succeeds before the steps of its thread reach the end of the buffer. -/
theorem scan_gets_slot {msgBufferSize size : Int} {s s' : Buffer ι} {t : ι} {i : Nat}
    {es : List (ι × Action)} (hs : (system msgBufferSize size).Reach s)
    (hpc : (s.thread t).pc = .scan i) (hrun : (system msgBufferSize size).Run s es s')
    (hlen : s.size ≤ i + es.countP (·.1 = t)) : GetsSlot msgBufferSize size s t es := by
  induction hrun generalizing i with
  | nil s =>
      obtain ⟨k, hik, hk, _⟩ := (reach_permits hs).2.position_lt hpc
      simp at hlen
      omega
  | @cons s s₁ s' e es hstep hrun ih =>
      have hm := step_moves hstep
      by_cases he : e.1 = t
      · rw [List.countP_cons_of_pos (by simpa using he)] at hlen
        rw [he] at hm
        cases hm.scanning (reach_permits hs).2 hpc with
        | inl htaken =>
            exact ⟨[e], es, s₁, i, rfl, .cons hstep (.nil s₁), htaken.1, htaken.2⟩
        | inr hnext =>
            have hlen' : s₁.size ≤ (i + 1) + es.countP (·.1 = t) := by
              rw [hm.size]
              omega
            obtain ⟨es₁, es₂, s₂, k, heq, hrun₁, hk, hthread⟩ :=
              ih (hs.step hstep) (by rw [hnext]) hlen'
            rw [hm.size] at hk
            rw [hnext] at hthread
            exact ⟨e :: es₁, es₂, s₂, k, by rw [heq, List.cons_append], .cons hstep hrun₁, hk,
              hthread⟩
      · rw [List.countP_cons_of_neg (by simpa using he)] at hlen
        have hsame : s₁.thread t = s.thread t := hm.other (Ne.symm he)
        obtain ⟨es₁, es₂, s₂, k, heq, hrun₁, hk, hthread⟩ :=
          ih (hs.step hstep) (by rw [hsame, hpc]) (by rw [hm.size]; exact hlen)
        rw [hm.size] at hk
        rw [hsame] at hthread
        exact ⟨e :: es₁, es₂, s₂, k, by rw [heq, List.cons_append], .cons hstep hrun₁, hk,
          hthread⟩

/-- A thread that passed `sem_wait` is never sent away without a slot, finds one within its
single pass, and no slot has two holders. -/
theorem freemsg_lock_gets_slot {msgBufferSize size : Int} {s : Buffer ι}
    (hs : (system msgBufferSize size).Reach s) :
    (∀ t, (s.thread t).pc ≠ .null true) ∧
    (∀ t i, (s.thread t).pc = .scan i → ∃ k, i ≤ k ∧ k < s.size ∧ s.slot k = .free) ∧
    (∀ t i es s', (s.thread t).pc = .scan i → (system msgBufferSize size).Run s es s' →
      s.size ≤ i + es.countP (·.1 = t) → GetsSlot msgBufferSize size s t es) ∧
    (∀ t u k, k ∈ (s.thread t).held → k ∈ (s.thread u).held → t = u) ∧
    (∀ t, (s.thread t).held.Nodup) := by
  have h := reach_permits hs
  refine ⟨h.2.found, ?_, ?_, ?_, h.1.nodup⟩
  · intro t i hpc
    exact h.2.position_lt hpc
  · intro t i es s' hpc hrun hlen
    exact scan_gets_slot hs hpc hrun hlen
  · intro t u k ht hu
    by_contra hne
    exact h.1.apart t u hne k ht hu

/-- Two threads at a buffer of two slots: the second one scans past the slot of the first. -/
theorem freemsg_lock_gets_slot_two : ∃ s : Buffer (Fin 2), (system 0 2).Reach s ∧
    (s.thread 1).pc = .scan 1 ∧ (∀ t, (s.thread t).pc ≠ .null true) ∧
    (∃ k, 1 ≤ k ∧ k < s.size ∧ s.slot k = .free) ∧
    ∀ t u k, k ∈ (s.thread t).held → k ∈ (s.thread u).held → t = u := by
  have h₁ : (system 0 2).Reach _ := .step (e := ((0 : Fin 2), .semWait)) .start rfl
  have h₂ : (system 0 2).Reach _ := h₁.step (e := (1, .semWait)) rfl
  have h₃ : (system 0 2).Reach _ := h₂.step (e := (0, .compareExchange)) rfl
  have h₄ : (system 0 2).Reach _ := h₃.step (e := (1, .compareExchange)) rfl
  have hall := freemsg_lock_gets_slot h₄
  exact ⟨_, h₄, rfl, hall.1, hall.2.1 1 1 rfl, hall.2.2.2.1⟩

end Jiajia.MsgBuffer
