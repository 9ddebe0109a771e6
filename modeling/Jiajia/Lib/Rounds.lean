import Mathlib.Data.List.Nodup
import Mathlib.Data.List.Count
import Mathlib.Tactic.Common

/-!
# Rounds of a counting coordinator

Parties enter a round with a burst of messages to a coordinator, the last of
which counts.  When as many have counted as there are parties, the coordinator
starts the next round and answers every party with the same burst.  One counter
and one flag per party are reused for all rounds.
-/

namespace Rounds

variable {α β : Type}

/-- A list whose last message, and no other, closes it. -/
def Burst (closes : α → Bool) (msgs : List α) : Prop :=
  ∃ first last, msgs = first ++ [last] ∧ (∀ m ∈ first, closes m = false) ∧ closes last = true

section Burst

variable {closes : α → Bool} {m : α} {msgs : List α}

theorem Burst.ne_nil (h : Burst closes msgs) : msgs ≠ [] := by
  obtain ⟨first, last, rfl, -, -⟩ := h
  simp

theorem Burst.tail_of_open (h : Burst closes (m :: msgs)) (hm : closes m = false) :
    Burst closes msgs := by
  obtain ⟨first, last, heq, hfirst, hlast⟩ := h
  cases first with
  | nil =>
      rw [List.nil_append, List.cons.injEq] at heq
      rw [heq.1, hlast] at hm
      cases hm
  | cons m' first =>
      rw [List.cons_append, List.cons.injEq] at heq
      exact ⟨first, last, heq.2, fun x hx => hfirst x (List.mem_cons_of_mem _ hx), hlast⟩

theorem Burst.tail_of_close (h : Burst closes (m :: msgs)) (hm : closes m = true) :
    msgs = [] := by
  obtain ⟨first, last, heq, hfirst, hlast⟩ := h
  cases first with
  | nil =>
      rw [List.nil_append, List.cons.injEq] at heq
      exact heq.2
  | cons m' first =>
      rw [List.cons_append, List.cons.injEq] at heq
      rw [heq.1, hfirst m' List.mem_cons_self] at hm
      cases hm

end Burst

/-- The parties' flags, the bursts in flight both ways, the counter, and the
history: arrivals sent and counted, rounds started, answers taken, and the
messages of each round as they were sent, recorded and heard. -/
@[ext] structure State (α β : Type) where
  inside : Nat → Bool
  sent : Nat → Nat
  up : Nat → List α
  arrived : Nat → Nat
  count : Nat
  rounds : Nat
  down : Nat → List β
  granted : Nat → Nat
  offered : Nat → Nat → List α
  recorded : Nat → List (Nat × α)
  answer : Nat → List β
  heard : Nat → Nat → List β

/-- `f` with another value at `a`. -/
def set {γ : Type} (f : Nat → γ) (a : Nat) (v : γ) : Nat → γ := fun b => if b = a then v else f b

@[simp] theorem set_same {γ : Type} (f : Nat → γ) (a : Nat) (v : γ) : set f a v a = v := by
  simp [set]

@[simp] theorem set_of_ne {γ : Type} (f : Nat → γ) {a b : Nat} (v : γ) (h : b ≠ a) :
    set f a v b = f b := by
  simp [set, h]

@[simp] theorem set_eq_self {γ : Type} (f : Nat → γ) (a : Nat) : set f a (f a) = f := by
  funext b
  by_cases h : b = a
  · simp [h]
  · simp [h]

def init : State α β where
  inside _ := false
  sent _ := 0
  up _ := []
  arrived _ := 0
  count := 0
  rounds := 0
  down _ := []
  granted _ := 0
  offered _ _ := []
  recorded _ := []
  answer _ := []
  heard _ _ := []

namespace State

variable (x : State α β)

/-- Party `i` enters with `msgs`. -/
def enter (i : Nat) (msgs : List α) : State α β :=
  { x with
    inside := set x.inside i true
    sent := set x.sent i (x.sent i + 1)
    up := set x.up i (x.up i ++ msgs)
    offered := set x.offered i (set (x.offered i) (x.sent i) msgs) }

/-- The coordinator takes the next message of `i`. -/
def take (i : Nat) (m : α) (rest : List α) : State α β :=
  { x with
    up := set x.up i rest
    recorded := set x.recorded x.rounds (x.recorded x.rounds ++ [(i, m)]) }

/-- It has taken the last message of the burst of `i`. -/
def arrive (i count : Nat) : State α β :=
  { x with arrived := set x.arrived i (x.arrived i + 1), count := count }

/-- The round is over, and all `n` parties are told. -/
def next (n : Nat) (reply : List β) : State α β :=
  { x with
    rounds := x.rounds + 1
    answer := set x.answer x.rounds reply
    down := fun j => if j < n then x.down j ++ reply else x.down j }

/-- Party `i` takes a message of the answer. -/
def hear (i : Nat) (m : β) (rest : List β) : State α β :=
  { x with
    down := set x.down i rest
    heard := set x.heard i (set (x.heard i) (x.granted i) (x.heard i (x.granted i) ++ [m])) }

def leave (i : Nat) : State α β :=
  { x with inside := set x.inside i false, granted := set x.granted i (x.granted i + 1) }

end State

section Machine

variable (n : Nat) (closes : α → Bool) (ends : β → Bool)
  (Answers : Nat → List (Nat × α) → List β → Prop)

/-- `Answers k rec reply`: what was recorded in round `k` may be answered by `reply`. -/
inductive Step : State α β → State α β → Prop
  | enter {x : State α β} (i : Nat) {msgs : List α} (hi : i < n) (h : x.inside i = false)
      (hmsgs : Burst closes msgs) : Step x (x.enter i msgs)
  | take {x : State α β} (i : Nat) {m : α} {rest : List α} (h : x.up i = m :: rest)
      (hm : closes m = false) : Step x (x.take i m rest)
  | arrive {x : State α β} (i : Nat) {m : α} {rest : List α} (h : x.up i = m :: rest)
      (hm : closes m = true) (hc : x.count + 1 ≠ n) :
      Step x ((x.take i m rest).arrive i (x.count + 1))
  | last {x : State α β} (i : Nat) {m : α} {rest : List α} {reply : List β}
      (h : x.up i = m :: rest) (hm : closes m = true) (hc : x.count + 1 = n)
      (hreply : Burst ends reply)
      (hans : Answers x.rounds (x.recorded x.rounds ++ [(i, m)]) reply) :
      Step x (((x.take i m rest).arrive i 0).next n reply)
  | hear {x : State α β} (i : Nat) {m : β} {rest : List β} (hi : i < n) (h : x.down i = m :: rest)
      (hm : ends m = false) : Step x (x.hear i m rest)
  | leave {x : State α β} (i : Nat) {m : β} {rest : List β} (hi : i < n)
      (h : x.down i = m :: rest) (hm : ends m = true) : Step x ((x.hear i m rest).leave i)

/-! ## Rounds do not overlap -/

/-- How far the parties and the coordinator can be apart. -/
structure Inv (x : State α β) : Prop where
  lower : ∀ i < n, x.rounds ≤ x.arrived i
  upper : ∀ i < n, x.arrived i ≤ x.rounds + 1
  count : x.count = (List.range n).countP fun i => x.arrived i = x.rounds + 1
  count_lt : x.count < n
  up : ∀ i, (x.sent i = x.arrived i ∧ x.up i = []) ∨
    (x.sent i = x.arrived i + 1 ∧ Burst closes (x.up i))
  idle : ∀ i, n ≤ i → x.up i = []
  down : ∀ i < n, (x.rounds = x.granted i ∧ x.down i = []) ∨
    (x.rounds = x.granted i + 1 ∧ Burst ends (x.down i))
  inside : ∀ i, x.sent i = x.granted i + (x.inside i).toNat

end Machine

section Inv

variable {n : Nat} {closes : α → Bool} {ends : β → Bool}
  {Answers : Nat → List (Nat × α) → List β → Prop} {x : State α β} {i : Nat}

theorem inv_init (hn : 0 < n) : Inv n closes ends (init : State α β) where
  lower _ _ := Nat.le_refl 0
  upper _ _ := Nat.zero_le 1
  count := by simp [init]
  count_lt := hn
  up _ := Or.inl ⟨rfl, rfl⟩
  idle _ _ := rfl
  down _ _ := Or.inl ⟨rfl, rfl⟩
  inside _ := rfl

/-- A party whose burst is in flight has not arrived in this round. -/
theorem Inv.taking (h : Inv n closes ends x) {m : α} {rest : List α} (hup : x.up i = m :: rest) :
    i < n ∧ x.arrived i = x.rounds ∧ x.sent i = x.arrived i + 1 ∧ Burst closes (m :: rest) := by
  have hi : i < n := by
    by_contra hi
    have hnil := h.idle i (by omega)
    rw [hup] at hnil
    cases hnil
  rcases h.up i with ⟨-, hnil⟩ | ⟨hsent, hburst⟩
  · rw [hup] at hnil
    cases hnil
  · have hlower := h.lower i hi
    have hinside := h.inside i
    have hbool : (x.inside i).toNat ≤ 1 := Bool.toNat_le _
    have hgranted : x.granted i ≤ x.rounds := by
      rcases h.down i hi with ⟨hr, -⟩ | ⟨hr, -⟩ <;> omega
    rw [hup] at hburst
    exact ⟨hi, by omega, hsent, hburst⟩

/-- A party that has an answer in flight waits for it. -/
theorem Inv.hearing (h : Inv n closes ends x) (hi : i < n) {m : β} {rest : List β}
    (hdown : x.down i = m :: rest) :
    x.rounds = x.granted i + 1 ∧ x.inside i = true ∧ Burst ends (m :: rest) := by
  rcases h.down i hi with ⟨-, hnil⟩ | ⟨hr, hburst⟩
  · rw [hdown] at hnil
    cases hnil
  · have hlower := h.lower i hi
    have hinside := h.inside i
    have hle : x.arrived i ≤ x.sent i := by
      rcases h.up i with ⟨hs, -⟩ | ⟨hs, -⟩ <;> omega
    rw [hdown] at hburst
    refine ⟨hr, ?_, hburst⟩
    by_contra hout
    rw [Bool.not_eq_true] at hout
    rw [hout, Bool.toNat_false] at hinside
    omega

/-- No party gets an answer before every party has entered the round. -/
theorem Inv.separated (h : Inv n closes ends x) {j : Nat} (hi : i < n) (hj : j < n) :
    x.granted i ≤ x.rounds ∧ x.rounds ≤ x.arrived j ∧ x.arrived j ≤ x.sent j := by
  refine ⟨?_, h.lower j hj, ?_⟩
  · rcases h.down i hi with ⟨hr, -⟩ | ⟨hr, -⟩ <;> omega
  · rcases h.up j with ⟨hs, -⟩ | ⟨hs, -⟩ <;> omega

/-- While nothing is in flight some party is outside. -/
theorem Inv.outsider (h : Inv n closes ends x) (hup : ∀ j, x.up j = [])
    (hdown : ∀ j < n, x.down j = []) : ∃ j < n, x.inside j = false := by
  by_contra hcon
  have harrived : ∀ j < n, x.arrived j = x.rounds + 1 := by
    intro j hj
    have hin : x.inside j = true := by
      by_contra hout
      exact hcon ⟨j, hj, Bool.eq_false_iff.mpr hout⟩
    have hsent : x.sent j = x.arrived j := by
      rcases h.up j with ⟨hs, -⟩ | ⟨-, hburst⟩
      · exact hs
      · exact absurd (hup j) hburst.ne_nil
    have hgranted : x.rounds = x.granted j := by
      rcases h.down j hj with ⟨hr, -⟩ | ⟨-, hburst⟩
      · exact hr
      · exact absurd (hdown j hj) hburst.ne_nil
    have hinside := h.inside j
    rw [hin, Bool.toNat_true] at hinside
    omega
  have hall : ((List.range n).countP fun j => x.arrived j = x.rounds + 1) = n := by
    rw [List.countP_eq_length.mpr, List.length_range]
    intro j hj
    exact decide_eq_true (harrived j (List.mem_range.mp hj))
  have hlt := h.count_lt
  have hcount := h.count
  omega

theorem inv_enter (h : Inv n closes ends x) {msgs : List α} (hi : i < n)
    (hout : x.inside i = false) (hmsgs : Burst closes msgs) :
    Inv n closes ends (x.enter i msgs) where
  lower := h.lower
  upper := h.upper
  count := h.count
  count_lt := h.count_lt
  up j := by
    by_cases hj : j = i
    · subst hj
      have hinside := h.inside j
      have hlower := h.lower j hi
      have hgranted : x.granted j ≤ x.rounds := (h.separated hi hi).1
      rw [hout, Bool.toNat_false] at hinside
      rcases h.up j with ⟨hs, hnil⟩ | ⟨hs, -⟩
      · right
        simp only [State.enter, set_same, hnil, List.nil_append]
        exact ⟨by omega, hmsgs⟩
      · omega
    · simpa [State.enter, hj] using h.up j
  idle j hj := by
    have hne : j ≠ i := by omega
    simpa [State.enter, hne] using h.idle j hj
  down := h.down
  inside j := by
    by_cases hj : j = i
    · subst hj
      have hinside := h.inside j
      rw [hout, Bool.toNat_false] at hinside
      simp [State.enter, hinside]
    · simpa [State.enter, hj] using h.inside j

theorem inv_take (h : Inv n closes ends x) {m : α} {rest : List α} (hup : x.up i = m :: rest)
    (hm : closes m = false) : Inv n closes ends (x.take i m rest) where
  lower := h.lower
  upper := h.upper
  count := h.count
  count_lt := h.count_lt
  up j := by
    by_cases hj : j = i
    · subst hj
      obtain ⟨-, -, hsent, hburst⟩ := h.taking hup
      right
      simp only [State.take, set_same]
      exact ⟨hsent, hburst.tail_of_open hm⟩
    · simpa [State.take, hj] using h.up j
  idle j hj := by
    have hne : j ≠ i := by
      have hi := (h.taking hup).1
      omega
    simpa [State.take, hne] using h.idle j hj
  down := h.down
  inside := h.inside

/-- Counting the parties again after one of them has arrived. -/
theorem Inv.count_arrive (h : Inv n closes ends x) {m : α} {rest : List α}
    (hup : x.up i = m :: rest) :
    ((List.range n).countP fun j => set x.arrived i (x.arrived i + 1) j = x.rounds + 1) =
      x.count + 1 := by
  obtain ⟨hi, harrived, -, -⟩ := h.taking hup
  obtain ⟨l, r, hlr⟩ := List.append_of_mem (List.mem_range.mpr hi)
  have hnodup : (List.range n).Nodup := List.nodup_range
  have hcount := h.count
  rw [hlr] at hnodup hcount ⊢
  rw [List.nodup_middle, List.nodup_cons, List.mem_append, not_or] at hnodup
  have hsame : ∀ js : List Nat, i ∉ js →
      (js.countP fun j => set x.arrived i (x.arrived i + 1) j = x.rounds + 1) =
        js.countP fun j => x.arrived j = x.rounds + 1 := by
    intro js hjs
    apply List.countP_congr
    intro j hj
    have hne : j ≠ i := by
      rintro rfl
      exact hjs hj
    rw [set_of_ne _ _ hne]
  have hone : set x.arrived i (x.arrived i + 1) i = x.rounds + 1 := by rw [set_same, harrived]
  have hzero : ¬ x.arrived i = x.rounds + 1 := by omega
  rw [List.countP_append, List.countP_cons, hsame l hnodup.1.1, hsame r hnodup.1.2]
  rw [List.countP_append, List.countP_cons] at hcount
  simp only [hone, hzero, decide_true, decide_false, if_true, Bool.false_eq_true,
    if_false] at hcount ⊢
  omega

/-- What the arrival of a party leaves, apart from the round and the counter. -/
theorem Inv.up_arrive (h : Inv n closes ends x) {m : α} {rest : List α}
    (hup : x.up i = m :: rest) (hm : closes m = true) (j : Nat) :
    (x.sent j = set x.arrived i (x.arrived i + 1) j ∧ set x.up i rest j = []) ∨
      (x.sent j = set x.arrived i (x.arrived i + 1) j + 1 ∧ Burst closes (set x.up i rest j)) := by
  by_cases hj : j = i
  · subst hj
    obtain ⟨-, -, hsent, hburst⟩ := h.taking hup
    left
    rw [set_same, set_same]
    exact ⟨hsent, hburst.tail_of_close hm⟩
  · simpa [hj] using h.up j

theorem Inv.idle_arrive (h : Inv n closes ends x) {m : α} {rest : List α}
    (hup : x.up i = m :: rest) (j : Nat) (hj : n ≤ j) : set x.up i rest j = [] := by
  have hne : j ≠ i := by
    have hi := (h.taking hup).1
    omega
  rw [set_of_ne _ _ hne]
  exact h.idle j hj

theorem inv_arrive (h : Inv n closes ends x) {m : α} {rest : List α} (hup : x.up i = m :: rest)
    (hm : closes m = true) (hc : x.count + 1 ≠ n) :
    Inv n closes ends ((x.take i m rest).arrive i (x.count + 1)) where
  lower j hj := by
    have hlower := h.lower j hj
    by_cases hji : j = i
    · subst hji
      simp only [State.arrive, State.take, set_same]
      omega
    · simpa [State.arrive, State.take, hji] using hlower
  upper j hj := by
    by_cases hji : j = i
    · subst hji
      obtain ⟨-, harrived, -, -⟩ := h.taking hup
      simp only [State.arrive, State.take, set_same]
      omega
    · simpa [State.arrive, State.take, hji] using h.upper j hj
  count := (h.count_arrive hup).symm
  count_lt := by
    have hlt := h.count_lt
    simp only [State.arrive]
    omega
  up := h.up_arrive hup hm
  idle := h.idle_arrive hup
  down := h.down
  inside := h.inside

theorem inv_last (h : Inv n closes ends x) {m : α} {rest : List α} {reply : List β}
    (hup : x.up i = m :: rest) (hm : closes m = true) (hc : x.count + 1 = n)
    (hreply : Burst ends reply) :
    Inv n closes ends (((x.take i m rest).arrive i 0).next n reply) := by
  -- all parties have arrived in the round that ends
  have hall : ∀ j < n, set x.arrived i (x.arrived i + 1) j = x.rounds + 1 := by
    have hcount := (h.count_arrive hup).trans hc
    have hlen : ((List.range n).countP fun j =>
        set x.arrived i (x.arrived i + 1) j = x.rounds + 1) = (List.range n).length := by
      rw [hcount, List.length_range]
    intro j hj
    simpa using List.countP_eq_length.mp hlen j (List.mem_range.mpr hj)
  refine ⟨?_, ?_, ?_, ?_, h.up_arrive hup hm, h.idle_arrive hup, ?_, h.inside⟩
  · intro j hj
    exact Nat.le_of_eq (hall j hj).symm
  · intro j hj
    exact Nat.le_succ_of_le (Nat.le_of_eq (hall j hj))
  · symm
    simp only [State.next, State.arrive, State.take]
    rw [List.countP_eq_zero]
    intro j hj
    have harr := hall j (List.mem_range.mp hj)
    simp [harr]
  · have hlt := h.count_lt
    simp only [State.next, State.arrive]
    omega
  · intro j hj
    right
    simp only [State.next, State.arrive, State.take, if_pos hj]
    -- no party is two answers behind, since it has entered the round that ends
    have hgranted : x.rounds = x.granted j ∧ x.down j = [] := by
      rcases h.down j hj with hdown | ⟨hr, -⟩
      · exact hdown
      · have hinside := h.inside j
        have hbool : (x.inside j).toNat ≤ 1 := Bool.toNat_le _
        have harr := hall j hj
        rcases h.up_arrive hup hm j with ⟨hs, -⟩ | ⟨hs, -⟩ <;> omega
    rw [hgranted.2, List.nil_append]
    exact ⟨by rw [hgranted.1], hreply⟩

theorem inv_hear (h : Inv n closes ends x) {m : β} {rest : List β} (hi : i < n)
    (hdown : x.down i = m :: rest) (hm : ends m = false) :
    Inv n closes ends (x.hear i m rest) where
  lower := h.lower
  upper := h.upper
  count := h.count
  count_lt := h.count_lt
  up := h.up
  idle := h.idle
  down j hj := by
    by_cases hji : j = i
    · subst hji
      obtain ⟨hr, -, hburst⟩ := h.hearing hi hdown
      right
      simp only [State.hear, set_same]
      exact ⟨hr, hburst.tail_of_open hm⟩
    · simpa [State.hear, hji] using h.down j hj
  inside := h.inside

theorem inv_leave (h : Inv n closes ends x) {m : β} {rest : List β} (hi : i < n)
    (hdown : x.down i = m :: rest) (hm : ends m = true) :
    Inv n closes ends ((x.hear i m rest).leave i) where
  lower := h.lower
  upper := h.upper
  count := h.count
  count_lt := h.count_lt
  up := h.up
  idle := h.idle
  down j hj := by
    by_cases hji : j = i
    · subst hji
      obtain ⟨hr, -, hburst⟩ := h.hearing hi hdown
      left
      simp only [State.leave, State.hear, set_same]
      exact ⟨hr, hburst.tail_of_close hm⟩
    · simpa [State.leave, State.hear, hji] using h.down j hj
  inside j := by
    have hinside := h.inside j
    by_cases hji : j = i
    · subst hji
      rw [(h.hearing hi hdown).2.1] at hinside
      simpa [State.leave, State.hear] using hinside
    · simpa [State.leave, State.hear, hji] using hinside

theorem inv_step {y : State α β} (h : Inv n closes ends x) (hs : Step n closes ends Answers x y) :
    Inv n closes ends y := by
  cases hs with
  | enter i hi hout hmsgs => exact inv_enter h hi hout hmsgs
  | take i hup hm => exact inv_take h hup hm
  | arrive i hup hm hc => exact inv_arrive h hup hm hc
  | last i hup hm hc hreply hans => exact inv_last h hup hm hc hreply
  | hear i hi hdown hm => exact inv_hear h hi hdown hm
  | leave i hi hdown hm => exact inv_leave h hi hdown hm

end Inv

/-! ## Every message belongs to its round -/

/-- What was recorded from one party. -/
def ofParty (i : Nat) (msgs : List (Nat × α)) : List α :=
  (msgs.filter fun y => y.1 = i).map Prod.snd

@[simp] theorem ofParty_nil (i : Nat) : ofParty i ([] : List (Nat × α)) = [] := rfl

theorem ofParty_snoc_same (i : Nat) (msgs : List (Nat × α)) (m : α) :
    ofParty i (msgs ++ [(i, m)]) = ofParty i msgs ++ [m] := by
  simp [ofParty]

theorem ofParty_snoc_ne {i j : Nat} (msgs : List (Nat × α)) (m : α) (h : i ≠ j) :
    ofParty j (msgs ++ [(i, m)]) = ofParty j msgs := by
  simp [ofParty, h]

/-- The coordinator records in each round what the parties sent for it. -/
structure Records (n : Nat) (x : State α β) : Prop where
  late : ∀ i k, x.sent i ≤ k → x.offered i k = []
  recorded : ∀ i k, ofParty i (x.recorded k) ++ (if k = x.arrived i then x.up i else []) =
    x.offered i k
  party : ∀ k, ∀ y ∈ x.recorded k, y.1 < n

/-- A party hears in each round the answer of that round. -/
structure Replies (n : Nat) (Answers : Nat → List (Nat × α) → List β → Prop)
    (x : State α β) : Prop where
  late : ∀ k, x.rounds ≤ k → x.answer k = []
  answers : ∀ k < x.rounds, Answers k (x.recorded k) (x.answer k)
  heard : ∀ i < n, ∀ k, x.heard i k ++ (if k = x.granted i then x.down i else []) = x.answer k

section History

variable {n : Nat} {closes : α → Bool} {ends : β → Bool}
  {Answers : Nat → List (Nat × α) → List β → Prop} {x : State α β} {i : Nat}

theorem records_init : Records n (init : State α β) where
  late _ _ _ := rfl
  recorded i k := by
    show [] ++ (if k = 0 then [] else []) = []
    rw [ite_self, List.append_nil]
  party k y hy := by cases hy

theorem replies_init : Replies n Answers (init : State α β) where
  late _ _ := rfl
  answers k hk := absurd hk (Nat.not_lt_zero k)
  heard i _ k := by
    show [] ++ (if k = 0 then [] else []) = []
    rw [ite_self, List.append_nil]

theorem records_enter (h : Records n x) (hinv : Inv n closes ends x) (hi : i < n)
    (hout : x.inside i = false) (msgs : List α) : Records n (x.enter i msgs) := by
  have hinside := hinv.inside i
  rw [hout, Bool.toNat_false] at hinside
  have hsep := hinv.separated hi hi
  have hidle : x.sent i = x.arrived i ∧ x.up i = [] := by
    rcases hinv.up i with hup | ⟨hs, -⟩
    · exact hup
    · omega
  refine ⟨?_, ?_, h.party⟩
  · intro j k hk
    by_cases hj : j = i
    · subst hj
      simp only [State.enter, set_same] at hk ⊢
      rw [set_of_ne _ _ (by omega)]
      exact h.late j k (by omega)
    · simp only [State.enter, set_of_ne _ _ hj] at hk ⊢
      exact h.late j k hk
  · intro j k
    have hrec := h.recorded j k
    by_cases hj : j = i
    · subst hj
      simp only [State.enter, set_same]
      by_cases hk : k = x.arrived j
      · rw [if_pos hk, hidle.2, List.append_nil, h.late j k (by omega)] at hrec
        rw [if_pos hk, hidle.2, hrec, hk, ← hidle.1, set_same]
        rfl
      · rw [if_neg hk] at hrec ⊢
        rw [set_of_ne _ _ (by omega)]
        exact hrec
    · simpa only [State.enter, set_of_ne _ _ hj] using hrec

theorem records_take (h : Records n x) {m : α} {rest : List α} (hi : i < n)
    (harrived : x.arrived i = x.rounds) (hup : x.up i = m :: rest) :
    Records n (x.take i m rest) where
  late := h.late
  recorded j k := by
    have hrec := h.recorded j k
    by_cases hk : k = x.rounds
    · subst hk
      by_cases hj : j = i
      · subst hj
        rw [if_pos harrived.symm, hup] at hrec
        simp only [State.take, set_same, ofParty_snoc_same, if_pos harrived.symm, ← hrec]
        simp
      · simpa only [State.take, set_same, set_of_ne _ _ hj,
          ofParty_snoc_ne _ _ (Ne.symm hj)] using hrec
    · by_cases hj : j = i
      · subst hj
        have hne : ¬ k = x.arrived j := by omega
        have hgoal : ofParty j (x.recorded k) ++ (if k = x.arrived j then rest else []) =
            x.offered j k := by rwa [if_neg hne] at hrec ⊢
        simpa only [State.take, set_of_ne _ _ hk, set_same] using hgoal
      · simpa only [State.take, set_of_ne _ _ hk, set_of_ne _ _ hj] using hrec
  party k y hy := by
    by_cases hk : k = x.rounds
    · subst hk
      simp only [State.take, set_same, List.mem_append, List.mem_singleton] at hy
      rcases hy with hy | rfl
      · exact h.party _ y hy
      · exact hi
    · simp only [State.take, set_of_ne _ _ hk] at hy
      exact h.party k y hy

theorem records_arrive (h : Records n x) (hup : x.up i = []) (count : Nat) :
    Records n (x.arrive i count) where
  late := h.late
  recorded j k := by
    have hrec := h.recorded j k
    by_cases hj : j = i
    · subst hj
      rw [hup, ite_self] at hrec
      simpa only [State.arrive, hup, ite_self] using hrec
    · simpa only [State.arrive, set_of_ne _ _ hj] using hrec
  party := h.party

theorem replies_take (h : Replies n Answers x) (m : α) (rest : List α) :
    Replies n Answers (x.take i m rest) where
  late := h.late
  answers k hk := by
    have hne : k ≠ x.rounds := Nat.ne_of_lt hk
    simpa only [State.take, set_of_ne _ _ hne] using h.answers k hk
  heard := h.heard

theorem replies_next (h : Replies n Answers x) {reply : List β}
    (hdown : ∀ j < n, x.rounds = x.granted j ∧ x.down j = [])
    (hans : Answers x.rounds (x.recorded x.rounds) reply) :
    Replies n Answers (x.next n reply) where
  late k hk := by
    simp only [State.next] at hk ⊢
    rw [set_of_ne _ _ (by omega)]
    exact h.late k (by omega)
  answers k hk := by
    simp only [State.next] at hk ⊢
    by_cases hkr : k = x.rounds
    · rw [hkr, set_same]
      exact hans
    · rw [set_of_ne _ _ hkr]
      exact h.answers k (by omega)
  heard j hj k := by
    have hheard := h.heard j hj k
    obtain ⟨hr, hnil⟩ := hdown j hj
    simp only [State.next, if_pos hj]
    rw [hnil, ite_self, List.append_nil] at hheard
    by_cases hk : k = x.rounds
    · rw [hk, h.late _ (Nat.le_refl _)] at hheard
      rw [hk, if_pos hr, hnil, hheard, set_same]
      rfl
    · rw [if_neg (by omega), set_of_ne _ _ hk, List.append_nil]
      exact hheard

theorem replies_hear (h : Replies n Answers x) {m : β} {rest : List β}
    (hdown : x.down i = m :: rest) : Replies n Answers (x.hear i m rest) where
  late := h.late
  answers := h.answers
  heard j hj k := by
    have hheard := h.heard j hj k
    by_cases hji : j = i
    · subst hji
      by_cases hk : k = x.granted j
      · subst hk
        rw [if_pos rfl, hdown] at hheard
        simp only [State.hear, set_same, if_true, ← hheard]
        simp
      · simpa only [State.hear, set_same, set_of_ne _ _ hk, if_neg hk] using hheard
    · simpa only [State.hear, set_of_ne _ _ hji] using hheard

theorem replies_leave (h : Replies n Answers x) (hdown : x.down i = []) :
    Replies n Answers (x.leave i) where
  late := h.late
  answers := h.answers
  heard j hj k := by
    have hheard := h.heard j hj k
    by_cases hji : j = i
    · subst hji
      rw [hdown, ite_self] at hheard
      simpa only [State.leave, hdown, ite_self] using hheard
    · simpa only [State.leave, set_of_ne _ _ hji] using hheard

/-- All parties have their answers before a round ends. -/
theorem Inv.answered (h : Inv n closes ends x) {m : α} {rest : List α} (hup : x.up i = m :: rest)
    (hc : x.count + 1 = n) {j : Nat} (hj : j < n) : x.rounds = x.granted j ∧ x.down j = [] := by
  rcases h.down j hj with hdown | ⟨hr, -⟩
  · exact hdown
  · have hcount := (h.count_arrive hup).trans hc
    have hlen : ((List.range n).countP fun j =>
        set x.arrived i (x.arrived i + 1) j = x.rounds + 1) = (List.range n).length := by
      rw [hcount, List.length_range]
    have harr : set x.arrived i (x.arrived i + 1) j = x.rounds + 1 := by
      simpa using List.countP_eq_length.mp hlen j (List.mem_range.mpr hj)
    have hinside := h.inside j
    have hbool : (x.inside j).toNat ≤ 1 := Bool.toNat_le _
    have hle : set x.arrived i (x.arrived i + 1) j ≤ x.sent j := by
      by_cases hji : j = i
      · subst hji
        rw [set_same]
        exact Nat.le_of_eq (h.taking hup).2.2.1.symm
      · rw [set_of_ne _ _ hji]
        exact (h.separated hj hj).2.2
    omega

theorem records_step {y : State α β} (h : Records n x) (hinv : Inv n closes ends x)
    (hs : Step n closes ends Answers x y) : Records n y := by
  cases hs with
  | enter i hi hout hmsgs => exact records_enter h hinv hi hout _
  | take i hup hm =>
      obtain ⟨hi, harrived, -, -⟩ := hinv.taking hup
      exact records_take h hi harrived hup
  | arrive i hup hm hc =>
      obtain ⟨hi, harrived, -, hburst⟩ := hinv.taking hup
      refine records_arrive (records_take h hi harrived hup) ?_ _
      simpa only [State.take, set_same] using hburst.tail_of_close hm
  | last i hup hm hc hreply hans =>
      obtain ⟨hi, harrived, -, hburst⟩ := hinv.taking hup
      have hnil := hburst.tail_of_close hm
      subst hnil
      have hr := records_arrive (i := i) (records_take h hi harrived hup)
        (by simp only [State.take, set_same]) 0
      exact ⟨hr.late, hr.recorded, hr.party⟩
  | hear i hi hdown hm => exact ⟨h.late, h.recorded, h.party⟩
  | leave i hi hdown hm => exact ⟨h.late, h.recorded, h.party⟩

theorem replies_step {y : State α β} (h : Replies n Answers x) (hinv : Inv n closes ends x)
    (hs : Step n closes ends Answers x y) : Replies n Answers y := by
  cases hs with
  | enter i hi hout hmsgs => exact ⟨h.late, h.answers, h.heard⟩
  | take i hup hm => exact replies_take h _ _
  | @arrive i m rest hup hm hc =>
      have hr := replies_take (i := i) h m rest
      exact ⟨hr.late, hr.answers, hr.heard⟩
  | @last i m rest reply hup hm hc hreply hans =>
      have hr := replies_take (i := i) h m rest
      have hr : Replies n Answers ((x.take i m rest).arrive i 0) := ⟨hr.late, hr.answers, hr.heard⟩
      refine replies_next hr (fun j hj => hinv.answered hup hc hj) ?_
      simpa only [State.arrive, State.take, set_same] using hans
  | hear i hi hdown hm => exact replies_hear h hdown
  | leave i hi hdown hm =>
      obtain ⟨-, -, hburst⟩ := hinv.hearing hi hdown
      refine replies_leave (replies_hear h hdown) ?_
      simpa only [State.hear, set_same] using hburst.tail_of_close hm

/-- Nothing was recorded for a round that no party has entered. -/
theorem Records.recorded_nil (h : Records n x) {k : Nat} (hk : ∀ i < n, x.sent i ≤ k) :
    x.recorded k = [] := by
  rw [List.eq_nil_iff_forall_not_mem]
  intro y hy
  have hrec := h.recorded y.1 k
  rw [h.late y.1 k (hk y.1 (h.party k y hy))] at hrec
  have hnil := (List.append_eq_nil_iff.mp hrec).1
  have hmem : y.2 ∈ ofParty y.1 (x.recorded k) := by
    rw [ofParty, List.mem_map]
    exact ⟨y, List.mem_filter.mpr ⟨hy, by simp⟩, rfl⟩
  rw [hnil] at hmem
  cases hmem

theorem Records.recorded_late (h : Records n x) (hinv : Inv n closes ends x) {k : Nat}
    (hk : x.rounds < k) : x.recorded k = [] := by
  apply h.recorded_nil
  intro i hi
  have hinside := hinv.inside i
  have hbool : (x.inside i).toNat ≤ 1 := Bool.toNat_le _
  have hsep := hinv.separated hi hi
  omega

/-- A round that a party has left: everything sent for it was recorded, and the
party has heard the whole answer to that and nothing later. -/
theorem Replies.complete (h : Replies n Answers x) (hrec : Records n x)
    (hinv : Inv n closes ends x) (hi : i < n) {k : Nat} (hk : k < x.granted i) :
    Answers k (x.recorded k) (x.heard i k) ∧
      ∀ j < n, ofParty j (x.recorded k) = x.offered j k := by
  have hle := (hinv.separated hi hi).1
  constructor
  · have hheard := h.heard i hi k
    rw [if_neg (by omega), List.append_nil] at hheard
    rw [hheard]
    exact h.answers k (by omega)
  · intro j hj
    have hrecorded := hrec.recorded j k
    have hlower := hinv.lower j hj
    rwa [if_neg (by omega), List.append_nil] at hrecorded

/-- A party that is not inside has heard nothing of a later round. -/
theorem Replies.heard_late (h : Replies n Answers x) (hi : i < n)
    (hinv : Inv n closes ends x) {k : Nat} (hk : x.sent i ≤ k) : x.heard i k = [] := by
  have hheard := h.heard i hi k
  have hsep := hinv.separated hi hi
  rw [h.late k (by omega)] at hheard
  exact (List.append_eq_nil_iff.mp hheard).1

end History

end Rounds
