import Jiajia.Lib.LockQueue
import Mathlib.Logic.Relation
import Mathlib.Order.Lattice

/-!
# A lock manager that stamps notes

The manager of a lock has a clock that each release moves on.  It keeps notes, stamped
with the clock and with their writer, and tells a client that gets the lock the notes
later than the client's last grant.  Clients ask with the stamp of that grant.
-/

namespace LockStamps

open LockQueue (set set_same set_of_ne)

/-- The manager's clock, the requests it holds with the stamps they came with and the notes
by writer (`none` for several), then for each client the stamp of the last grant it has
seen, its requests and its grants in flight, and the stamp of the last grant sent to it. -/
@[ext] structure State (σ : Type) where
  clock : σ
  queue : List (Nat × σ)
  notes : List (Option Nat × σ)
  mine : Nat → σ
  asks : Nat → List σ
  grants : Nat → List σ
  granted : Nat → σ

variable {σ : Type}

namespace State

/-- The client the lock belongs to. -/
def holder (x : State σ) : Option Nat := (x.queue.map Prod.fst).head?

/-- The lock goes to the head of the queue. -/
def grantHead (x : State σ) : State σ :=
  match x.queue with
  | [] => x
  | (a, _) :: _ =>
      { x with grants := set x.grants a (x.grants a ++ [x.clock]), granted := set x.granted a x.clock }

theorem grantHead_nil {x : State σ} (h : x.queue = []) : x.grantHead = x := by
  rw [grantHead, h]

theorem grantHead_cons {x : State σ} {a : Nat} {t : σ} {q : List (Nat × σ)}
    (h : x.queue = (a, t) :: q) :
    x.grantHead = { x with
      grants := set x.grants a (x.grants a ++ [x.clock]), granted := set x.granted a x.clock } := by
  rw [grantHead, h]

end State

variable [LinearOrder σ]

inductive Step : State σ → State σ → Prop
  | ask {x : State σ} (a : Nat) : Step x { x with asks := set x.asks a (x.asks a ++ [x.mine a]) }
  | grant {x : State σ} (a : Nat) {t : σ} {rest : List σ} (h : x.asks a = t :: rest)
      (hempty : x.queue = []) (hfree : ∀ b, x.grants b = []) :
      Step x (State.grantHead { x with queue := [(a, t)], asks := set x.asks a rest })
  | enqueue {x : State σ} (a : Nat) {t : σ} {rest : List σ} (h : x.asks a = t :: rest)
      (hne : x.queue ≠ []) :
      Step x { x with queue := x.queue ++ [(a, t)], asks := set x.asks a rest }
  /-- New notes are the holder's; others may be forgotten. -/
  | note {x : State σ} {notes : List (Option Nat × σ)}
      (h : ∀ n ∈ notes, n ∈ x.notes ∨
        n.2 = x.clock ∧ ∀ a, n.1 = some a → x.holder = some a ∧ x.grants a = []) :
      Step x { x with notes := notes }
  | release {x : State σ} {clock : σ} (hle : x.clock ≤ clock) (hfree : ∀ a, x.grants a = []) :
      Step x (State.grantHead { x with queue := x.queue.tail, clock := clock })
  | enter {x : State σ} (a : Nat) {t : σ} (h : x.grants a = [t]) (hask : x.asks a = [])
      (hholder : x.holder = some a) (hnodup : (x.queue.map Prod.fst).Nodup) :
      Step x { x with mine := set x.mine a t, grants := set x.grants a [] }

/-- Who holds the lock has seen the clock; stamps under way are those of the last grants; no
client has written a note after its last grant. -/
structure Inv (x : State σ) : Prop where
  mine_le : ∀ a, x.mine a ≤ x.clock
  holder : ∀ a, x.holder = some a → x.grants a = [] → x.mine a = x.clock
  granting : ∀ a, ∀ t ∈ x.grants a, t = x.clock
  asking : ∀ a, ∀ t ∈ x.asks a, t = x.mine a
  queued : ∀ q ∈ x.queue, q ∈ x.queue.tail ∨ x.grants q.1 ≠ [] → q.2 = x.mine q.1
  notes : ∀ n ∈ x.notes, ∀ a, n.1 = some a → n.2 ≤ x.mine a
  last : ∀ a, x.granted a = (x.grants a).getLast?.getD (x.mine a)

/-- What a client is told when it gets the lock was not written by it alone. -/
theorem Inv.not_own {x : State σ} (h : Inv x) {q : Nat × σ} (hq : q ∈ x.queue)
    (hgrant : x.grants q.1 ≠ []) {n : Option Nat × σ} (hn : n ∈ x.notes) (hlt : q.2 < n.2) :
    n.1 ≠ some q.1 := by
  intro hown
  have hle := h.notes n hn q.1 hown
  rw [h.queued q hq (Or.inr hgrant)] at hlt
  exact absurd hlt hle.not_gt

section Step

variable {x y : State σ}

theorem inv_ask (h : Inv x) (a : Nat) :
    Inv { x with asks := set x.asks a (x.asks a ++ [x.mine a]) } := by
  refine ⟨h.mine_le, h.holder, h.granting, ?_, h.queued, h.notes, h.last⟩
  intro b t ht
  by_cases hb : b = a
  · subst hb
    simp only [set_same, List.mem_append, List.mem_singleton] at ht
    exact ht.elim (h.asking b t) id
  · simp only [set_of_ne _ _ hb] at ht
    exact h.asking b t ht

/-- A request leaves its channel. -/
theorem asking_rest (h : Inv x) {a : Nat} {t : σ} {rest : List σ} (hask : x.asks a = t :: rest) :
    t = x.mine a ∧ ∀ b, ∀ u ∈ set x.asks a rest b, u = x.mine b := by
  have hall := h.asking a
  rw [hask] at hall
  refine ⟨hall t List.mem_cons_self, ?_⟩
  intro b u hu
  by_cases hb : b = a
  · subst hb
    rw [set_same] at hu
    exact hall u (List.mem_cons_of_mem _ hu)
  · rw [set_of_ne _ _ hb] at hu
    exact h.asking b u hu

/-- A grant goes to the head of the queue, which came with the stamp of its last grant. -/
theorem inv_grantHead (hfree : ∀ a, x.grants a = []) (hmine : ∀ a, x.mine a ≤ x.clock)
    (hask : ∀ a, ∀ t ∈ x.asks a, t = x.mine a) (hqueue : ∀ q ∈ x.queue, q.2 = x.mine q.1)
    (hnotes : ∀ n ∈ x.notes, ∀ a, n.1 = some a → n.2 ≤ x.mine a)
    (hlast : ∀ a, x.granted a = x.mine a) : Inv x.grantHead := by
  cases hx : x.queue with
  | nil =>
      rw [State.grantHead_nil hx]
      refine ⟨hmine, ?_, ?_, hask, ?_, hnotes, ?_⟩
      · intro a ha
        rw [State.holder, hx] at ha
        cases ha
      · intro a t ht
        rw [hfree a] at ht
        cases ht
      · intro q hq
        exact fun _ => hqueue q hq
      · intro a
        rw [hfree a, hlast a]
        rfl
  | cons q rest =>
      obtain ⟨b, stamp⟩ := q
      rw [State.grantHead_cons hx, hfree b, List.nil_append]
      refine ⟨hmine, ?_, ?_, hask, ?_, hnotes, ?_⟩
      · intro a ha hnone
        rw [State.holder, hx] at ha
        obtain rfl : b = a := Option.some.inj ha
        simp at hnone
      · intro a t ht
        by_cases hab : a = b
        · subst hab
          simpa using ht
        · simp [hab, hfree a] at ht
      · intro q hq _
        exact hqueue q hq
      · intro a
        by_cases hab : a = b
        · subst hab
          simp
        · simp [hab, hfree a, hlast a]

theorem Inv.granted_eq (h : Inv x) (hfree : ∀ a, x.grants a = []) (a : Nat) :
    x.granted a = x.mine a := by
  rw [h.last a, hfree a]
  rfl

theorem inv_grant (h : Inv x) {a : Nat} {t : σ} {rest : List σ} (hask : x.asks a = t :: rest)
    (hfree : ∀ b, x.grants b = []) :
    Inv (State.grantHead { x with queue := [(a, t)], asks := set x.asks a rest }) := by
  obtain ⟨ht, hrest⟩ := asking_rest h hask
  refine inv_grantHead hfree h.mine_le hrest ?_ h.notes (h.granted_eq hfree)
  intro q hq
  rw [List.mem_singleton.mp hq]
  exact ht

theorem inv_enqueue (h : Inv x) {a : Nat} {t : σ} {rest : List σ} (hask : x.asks a = t :: rest)
    (hne : x.queue ≠ []) :
    Inv { x with queue := x.queue ++ [(a, t)], asks := set x.asks a rest } := by
  obtain ⟨ht, hrest⟩ := asking_rest h hask
  refine ⟨h.mine_le, ?_, h.granting, hrest, ?_, h.notes, h.last⟩
  · intro b hb
    refine h.holder b ?_
    rwa [State.holder, List.map_append, List.head?_append_of_ne_nil] at hb
    rwa [Ne, List.map_eq_nil_iff]
  · intro q hq hcase
    rw [List.tail_append_of_ne_nil hne, List.mem_append] at hcase
    rcases List.mem_append.mp hq with hold | hnew
    · rcases hcase with (htail | hnew) | hgrant
      · exact h.queued q hold (Or.inl htail)
      · rw [List.mem_singleton.mp hnew]
        exact ht
      · exact h.queued q hold (Or.inr hgrant)
    · rw [List.mem_singleton.mp hnew]
      exact ht

theorem inv_note (h : Inv x) {notes : List (Option Nat × σ)}
    (hnotes : ∀ n ∈ notes, n ∈ x.notes ∨
      n.2 = x.clock ∧ ∀ a, n.1 = some a → x.holder = some a ∧ x.grants a = []) :
    Inv { x with notes := notes } := by
  refine ⟨h.mine_le, h.holder, h.granting, h.asking, h.queued, ?_, h.last⟩
  intro n hn a ha
  rcases hnotes n hn with hold | ⟨hclock, hwriter⟩
  · exact h.notes n hold a ha
  · obtain ⟨hholder, hnone⟩ := hwriter a ha
    rw [hclock]
    exact (h.holder a hholder hnone).ge

theorem inv_release (h : Inv x) {clock : σ} (hle : x.clock ≤ clock)
    (hfree : ∀ a, x.grants a = []) :
    Inv (State.grantHead { x with queue := x.queue.tail, clock := clock }) := by
  refine inv_grantHead hfree ?_ h.asking ?_ h.notes (h.granted_eq hfree)
  · exact fun a => (h.mine_le a).trans hle
  · intro q hq
    exact h.queued q (List.mem_of_mem_tail hq) (Or.inl hq)

theorem inv_enter (h : Inv x) {a : Nat} {t : σ} (hgrant : x.grants a = [t]) (hask : x.asks a = [])
    (hholder : x.holder = some a) (hnodup : (x.queue.map Prod.fst).Nodup) :
    Inv { x with mine := set x.mine a t, grants := set x.grants a [] } := by
  have ht : t = x.clock := h.granting a t (by rw [hgrant]; exact List.mem_singleton_self t)
  have hmine : ∀ b, x.mine b ≤ set x.mine a t b := by
    intro b
    by_cases hb : b = a
    · subst hb
      rw [set_same, ht]
      exact h.mine_le b
    · rw [set_of_ne _ _ hb]
  obtain ⟨stamp, rest, hqueue⟩ : ∃ stamp rest, x.queue = (a, stamp) :: rest := by
    cases hx : x.queue with
    | nil =>
        rw [State.holder, hx] at hholder
        cases hholder
    | cons q rest =>
        rw [State.holder, hx] at hholder
        exact ⟨q.2, rest, by rw [← Option.some.inj hholder]⟩
  refine ⟨?_, ?_, ?_, ?_, ?_, ?_, ?_⟩
  · intro b
    by_cases hb : b = a
    · subst hb
      exact (set_same x.mine b t).le.trans ht.le
    · simpa [hb] using h.mine_le b
  · intro b hb hnone
    obtain rfl : a = b := Option.some.inj (hholder.symm.trans hb)
    simpa using ht
  · intro b u hu
    by_cases hb : b = a
    · subst hb
      simp at hu
    · exact h.granting b u (by simpa [hb] using hu)
  · intro b u hu
    by_cases hb : b = a
    · subst hb
      rw [show _ = _ from hask] at hu
      cases hu
    · simpa [hb] using h.asking b u hu
  · intro q hq hcase
    -- the holder stands at the head only
    have hne : q ∈ rest → q.1 ≠ a := by
      intro hmem heq
      rw [hqueue, List.map_cons, List.nodup_cons] at hnodup
      exact hnodup.1 (List.mem_map.mpr ⟨q, hmem, heq⟩)
    rcases hcase with htail | hgrants
    · have hqa := hne (by simpa [hqueue] using htail)
      simpa [hqa] using h.queued q hq (Or.inl htail)
    · by_cases hqa : q.1 = a
      · simp [hqa] at hgrants
      · simp only [set_of_ne _ _ hqa] at hgrants ⊢
        exact h.queued q hq (Or.inr hgrants)
  · intro n hn b hb
    exact (h.notes n hn b hb).trans (hmine b)
  · intro b
    by_cases hb : b = a
    · subst hb
      simpa [hgrant] using h.last b
    · simpa [hb] using h.last b

theorem inv_step (h : Inv x) (hs : Step x y) : Inv y := by
  cases hs with
  | ask a => exact inv_ask h a
  | grant a hask hempty hfree => exact inv_grant h hask hfree
  | enqueue a hask hne => exact inv_enqueue h hask hne
  | note hnotes => exact inv_note h hnotes
  | release hle hfree => exact inv_release h hle hfree
  | enter a hgrant hask hholder hnodup => exact inv_enter h hgrant hask hholder hnodup

theorem inv_steps (h : Inv x) (hs : Relation.ReflTransGen Step x y) : Inv y := by
  induction hs with
  | refl => exact h
  | tail _ hstep ih => exact inv_step ih hstep

end Step

/-- Before the first request every client has a stamp before the clock. -/
theorem inv_init (first clock : σ) (hle : first ≤ clock) :
    Inv ⟨clock, [], [], fun _ => first, fun _ => [], fun _ => [], fun _ => first⟩ where
  mine_le _ := hle
  holder _ h := by cases h
  granting _ _ h := by cases h
  asking _ _ h := by cases h
  queued _ h := by cases h
  notes _ h := by cases h
  last _ := rfl

end LockStamps
