import Mathlib.Logic.Function.Basic

/-!
# One location under bulk synchronisation

A location has a home and copies elsewhere that are written in private and written
back.  All parties go through the same rounds.  A party that leaves a round drops a
copy that another party has overtaken in that round; until then copies may be stale.
Where no two parties store to the location in one round, every party reads what it
would read from a single memory that changes between rounds.
-/

namespace BulkSync

universe u v

variable {ι : Type u} {α : Type v}

/-- A copy of the location: as it was fetched, or opened for writing with what it
held then. -/
inductive Copy (α : Type v)
  | none
  | clean (v : α)
  | dirty (v base : α)

/-- The location as all parties see it.  `late i r` says that another party has
changed the home in round `r` since party `i` took its copy; `done` rounds are over,
and `final r` is what the home held when round `r` ended. -/
structure State (ι : Type u) (α : Type v) where
  home : α
  copy : ι → Copy α
  late : ι → Nat → Prop
  done : Nat
  round : ι → Nat
  stored : ι → Nat → Option α
  final : Nat → α

namespace State

variable (x : State ι α)

/-- What the home held when round `r` started. -/
def start (init : α) : Nat → α
  | 0 => init
  | r + 1 => x.final r

/-- The value that party `i` has stored or would read after a fetch. -/
def latest (i : ι) : α :=
  match x.copy i with
  | .dirty v _ => v
  | _ => x.home

/-- Party `i` stores to the location in the round that is not over. -/
def Alone (i : ι) (r : Nat) : Prop := ∀ j, j ≠ i → x.stored j r = none

/-- Party `i` of a location with home `h` may read `v`. -/
inductive Reads (h i : ι) : α → Prop
  | home (hi : i = h) : Reads h i x.home
  | clean (v : α) (hi : i ≠ h) (hc : x.copy i = .clean v) : Reads h i v
  | dirty (v base : α) (hi : i ≠ h) (hc : x.copy i = .dirty v base) : Reads h i v

end State

section Step

variable [DecidableEq ι]

/-- The home changes in the round that is not over. -/
def State.overtake (x : State ι α) (i : ι) (v : α) : State ι α :=
  { x with home := v, late := fun j r => x.late j r ∨ (j ≠ i ∧ r = x.done) }

/-- Party `i` has another copy. -/
def State.setCopy (x : State ι α) (i : ι) (c : Copy α) : State ι α :=
  { x with copy := Function.update x.copy i c }

/-- Party `i` has stored `v` in the round that is not over. -/
def State.note (x : State ι α) (i : ι) (v : α) : State ι α :=
  { x with stored := Function.update x.stored i (Function.update (x.stored i) x.done (some v)) }

/-- Steps of the parties of a location with home `h`. -/
inductive Step (h : ι) (x : State ι α) : State ι α → Prop
  | storeHome (v : α) (hr : x.round h = x.done) : Step h x ((x.overtake h v).note h v)
  | store (i : ι) (v w base : α) (hi : i ≠ h) (hr : x.round i = x.done)
      (hc : x.copy i = .dirty w base) : Step h x ((x.setCopy i (.dirty v base)).note i v)
  | fetch (i : ι) (hi : i ≠ h) (hr : x.round i = x.done)
      (hc : ∀ v base, x.copy i ≠ .dirty v base) :
      Step h x { x.setCopy i (.clean x.home) with late := Function.update x.late i fun _ => False }
  | openCopy (i : ι) (v : α) (hi : i ≠ h) (hr : x.round i = x.done) (hc : x.copy i = .clean v) :
      Step h x (x.setCopy i (.dirty v v))
  | flush (i : ι) (v base : α) (hi : i ≠ h) (hr : x.round i = x.done)
      (hc : x.copy i = .dirty v base) (hne : v ≠ base) :
      Step h x ((x.overtake i v).setCopy i (.clean v))
  | settle (i : ι) (v : α) (hi : i ≠ h) (hr : x.round i = x.done) (hc : x.copy i = .dirty v v) :
      Step h x (x.setCopy i (.clean v))
  | dropCopy (i : ι) (hc : ∀ v base, x.copy i ≠ .dirty v base) : Step h x (x.setCopy i .none)
  | close (hall : ∀ i, x.round i = x.done) (hclean : ∀ i v base, x.copy i ≠ .dirty v base) :
      Step h x { x with final := Function.update x.final x.done x.home, done := x.done + 1 }
  | leave (i : ι) (hr : x.round i + 1 = x.done)
      (hc : x.copy i = .none ∨ ¬ x.late i (x.round i)) :
      Step h x { x with round := Function.update x.round i (x.round i + 1) }

end Step

/-! ## The invariant -/

/-- What holds of a location with home `h` that started with `init`. -/
structure Inv (h : ι) (init : α) (x : State ι α) : Prop where
  home_copy : x.copy h = .none
  round_le : ∀ i, x.round i ≤ x.done
  round_ge : ∀ i, x.done ≤ x.round i + 1
  late_le : ∀ i r, x.late i r → r ≤ x.done
  late_stored : ∀ i r, x.late i r → ∃ j, j ≠ i ∧ x.stored j r ≠ none
  stored_le : ∀ i r, x.done < r → x.stored i r = none
  waiting : ∀ i, x.round i < x.done → ∀ v base, x.copy i ≠ .dirty v base
  clean : ∀ i v, x.copy i = .clean v → (∀ r, x.round i ≤ r → ¬ x.late i r) → v = x.home
  dirty : ∀ i v base, x.copy i = .dirty v base → (∀ r, x.round i ≤ r → ¬ x.late i r) →
    base = x.home
  snapshot : ∀ i v, x.round i < x.done → x.copy i = .clean v → ¬ x.late i (x.round i) →
    v = x.final (x.round i)
  untouched : ∀ i v base, x.copy i = .dirty v base → x.stored i x.done = none → v = base
  sole : ∀ i v, x.stored i x.done = some v → x.Alone i x.done → x.latest i = v
  quiet : (∀ i, x.stored i x.done = none) → x.home = x.start init x.done
  ended : ∀ r < x.done, ∀ i, x.Alone i r → x.final r = (x.stored i r).getD (x.start init r)

/-- A location that nobody has touched. -/
def State.init (v : α) : State ι α where
  home := v
  copy _ := .none
  late _ _ := False
  done := 0
  round _ := 0
  stored _ _ := none
  final _ := v

theorem inv_init (h : ι) (init : α) : Inv h init (State.init init) where
  home_copy := rfl
  round_le _ := Nat.le_refl 0
  round_ge _ := Nat.zero_le _
  late_le _ _ hl := hl.elim
  late_stored _ _ hl := hl.elim
  stored_le _ _ _ := rfl
  waiting _ hr := absurd hr (Nat.lt_irrefl 0)
  clean _ _ hc := by cases hc
  dirty _ _ _ hc := by cases hc
  snapshot _ _ hr := absurd hr (Nat.lt_irrefl 0)
  untouched _ _ _ hc := by cases hc
  sole _ _ hs := by cases hs
  quiet _ := rfl
  ended _ hr := absurd hr (Nat.not_lt_zero _)

namespace Inv

variable {h : ι} {init : α} {x : State ι α}

/-- A party that is alone in the round has an up-to-date copy. -/
theorem fresh (hx : Inv h init x) {i : ι} (hr : x.round i = x.done) (halone : x.Alone i x.done) :
    ∀ r, x.round i ≤ r → ¬ x.late i r := by
  intro r hle hlate
  have hdone : r = x.done := by
    have := hx.late_le i r hlate
    omega
  subst hdone
  obtain ⟨j, hj, hstored⟩ := hx.late_stored i _ hlate
  exact hstored (halone j hj)

/-- What a party reads in a round in which no other one has stored: its own last
value, or what the location held when the round started. -/
theorem reads (hx : Inv h init x) {i : ι} {v : α} (hr : x.round i = x.done)
    (halone : x.Alone i x.done) (hv : x.Reads h i v) :
    v = (x.stored i x.done).getD (x.start init x.done) := by
  have hfresh := hx.fresh hr halone
  cases hs : x.stored i x.done with
  | some w =>
      have hlatest := hx.sole i w hs halone
      cases hv with
      | home hi =>
          subst hi
          simpa [State.latest, hx.home_copy] using hlatest
      | clean _ hi hc =>
          rw [hx.clean i v hc hfresh]
          simpa [State.latest, hc] using hlatest
      | dirty _ base hi hc => simpa [State.latest, hc] using hlatest
  | none =>
      have hnone : ∀ j, x.stored j x.done = none := by
        intro j
        by_cases hj : j = i
        · rw [hj, hs]
        · exact halone j hj
      have hhome := hx.quiet hnone
      cases hv with
      | home hi => exact hhome
      | clean _ hi hc => exact (hx.clean i v hc hfresh).trans hhome
      | dirty _ base hi hc =>
          rw [hx.untouched i v base hc hs, hx.dirty i v base hc hfresh]
          exact hhome

end Inv

/-! ## Steps keep the invariant -/

theorem start_eq_of_final {init : α} {x y : State ι α} {d : Nat}
    (hf : ∀ r, r < d → y.final r = x.final r) {r : Nat} (hr : r ≤ d) :
    y.start init r = x.start init r := by
  cases r with
  | zero => rfl
  | succ r => exact hf r hr

section Steps

variable [DecidableEq ι] {h : ι} {init : α} {x y : State ι α}

theorem note_stored (x : State ι α) (i : ι) (v : α) (j : ι) (r : Nat) :
    (x.note i v).stored j r = if j = i ∧ r = x.done then some v else x.stored j r := by
  unfold State.note
  by_cases hj : j = i
  · subst hj
    by_cases hr : r = x.done
    · subst hr
      simp
    · simp [hr]
  · simp [hj]

theorem setCopy_copy (x : State ι α) (i : ι) (c : Copy α) (j : ι) :
    (x.setCopy i c).copy j = if j = i then c else x.copy j := by
  unfold State.setCopy
  by_cases hj : j = i
  · subst hj
    simp
  · simp [hj]

/-- After a store of party `i` no other party is alone in the round. -/
theorem alone_note {i j : ι} {v : α} (ha : (x.note i v).Alone j x.done) : j = i := by
  by_contra hne
  have hnone := ha i (Ne.symm hne)
  rw [note_stored, if_pos ⟨rfl, rfl⟩] at hnone
  cases hnone

/-- What a store leaves of the rounds before. -/
theorem ended_note (hx : Inv h init x) {i : ι} {v : α}
    (hstored : ∀ j r, y.stored j r = (x.note i v).stored j r) (hfinal : y.final = x.final) :
    ∀ r < x.done, ∀ j, y.Alone j r → y.final r = (y.stored j r).getD (y.start init r) := by
  intro r hr j ha
  have hold : ∀ k, y.stored k r = x.stored k r := by
    intro k
    rw [hstored, note_stored, if_neg fun hcon => by omega]
  rw [hold, hfinal, start_eq_of_final (x := x) (d := r) (fun _ _ => by rw [hfinal]) (Nat.le_refl r)]
  exact hx.ended r hr j fun k hk => (hold k).symm.trans (ha k hk)

theorem Inv.storeHome (hx : Inv h init x) {v : α} (hr : x.round h = x.done) :
    Inv h init ((x.overtake h v).note h v) where
  home_copy := hx.home_copy
  round_le := hx.round_le
  round_ge := hx.round_ge
  late_le := by
    rintro i r (hl | ⟨-, rfl⟩)
    · exact hx.late_le i r hl
    · exact Nat.le_refl _
  late_stored := by
    intro i r hl
    rcases hl with hl | ⟨hi, rfl⟩
    · obtain ⟨j, hj, hs⟩ := hx.late_stored i r hl
      refine ⟨j, hj, ?_⟩
      rw [note_stored]
      split
      · exact Option.some_ne_none v
      · exact hs
    · refine ⟨h, Ne.symm hi, ?_⟩
      rw [note_stored, if_pos ⟨rfl, rfl⟩]
      exact Option.some_ne_none v
  stored_le := by
    intro i r hlt
    have hlt' : x.done < r := hlt
    rw [note_stored, if_neg fun hcon => by have : r = x.done := hcon.2; omega]
    exact hx.stored_le i r hlt'
  waiting := hx.waiting
  clean := by
    intro i w hc hno
    by_cases hi : i = h
    · subst hi
      have hnone : x.copy i = .clean w := hc
      rw [hx.home_copy] at hnone
      cases hnone
    · exact absurd (Or.inr ⟨hi, rfl⟩) (hno x.done (hx.round_le i))
  dirty := by
    intro i w base hc hno
    by_cases hi : i = h
    · subst hi
      have hnone : x.copy i = .dirty w base := hc
      rw [hx.home_copy] at hnone
      cases hnone
    · exact absurd (Or.inr ⟨hi, rfl⟩) (hno x.done (hx.round_le i))
  snapshot := by
    intro i w hlt hc hno
    exact hx.snapshot i w hlt hc fun hl => hno (Or.inl hl)
  untouched := by
    intro i w base hc hs
    rw [note_stored] at hs
    split at hs
    · cases hs
    · exact hx.untouched i w base hc hs
  sole := by
    intro i w hs ha
    obtain rfl := alone_note ha
    rw [note_stored, if_pos ⟨rfl, rfl⟩] at hs
    have hcopy : ((x.overtake i v).note i v).copy i = .none := hx.home_copy
    rw [State.latest, hcopy]
    exact Option.some.inj hs
  quiet := by
    intro hnone
    have hsome := hnone h
    rw [note_stored, if_pos ⟨rfl, rfl⟩] at hsome
    cases hsome
  ended := ended_note (x := x) (i := h) (v := v) hx (fun _ _ => rfl) rfl

theorem Inv.store (hx : Inv h init x) {i : ι} {v w base : α} (hi : i ≠ h)
    (hr : x.round i = x.done) (hc : x.copy i = .dirty w base) :
    Inv h init ((x.setCopy i (.dirty v base)).note i v) where
  home_copy := by
    change (x.setCopy i _).copy h = _
    rw [setCopy_copy, if_neg (Ne.symm hi)]
    exact hx.home_copy
  round_le := hx.round_le
  round_ge := hx.round_ge
  late_le := hx.late_le
  late_stored := by
    intro j r hl
    obtain ⟨k, hk, hs⟩ := hx.late_stored j r hl
    refine ⟨k, hk, ?_⟩
    rw [note_stored]
    split
    · exact Option.some_ne_none v
    · exact hs
  stored_le := by
    intro j r hlt
    have hlt' : x.done < r := hlt
    rw [note_stored, if_neg fun hcon => by have : r = x.done := hcon.2; omega]
    exact hx.stored_le j r hlt'
  waiting := by
    intro j hlt v' base' hc'
    change (x.setCopy i _).copy j = _ at hc'
    rw [setCopy_copy] at hc'
    split at hc'
    · rename_i hj
      subst hj
      have hlt' : x.round j < x.done := hlt
      omega
    · exact hx.waiting j hlt v' base' hc'
  clean := by
    intro j v' hc' hno
    change (x.setCopy i _).copy j = _ at hc'
    rw [setCopy_copy] at hc'
    split at hc'
    · cases hc'
    · exact hx.clean j v' hc' hno
  dirty := by
    intro j v' base' hc' hno
    change (x.setCopy i _).copy j = _ at hc'
    rw [setCopy_copy] at hc'
    split at hc'
    · rename_i hj
      subst hj
      cases hc'
      exact hx.dirty j w base hc hno
    · exact hx.dirty j v' base' hc' hno
  snapshot := by
    intro j v' hlt hc' hno
    change (x.setCopy i _).copy j = _ at hc'
    rw [setCopy_copy] at hc'
    split at hc'
    · cases hc'
    · exact hx.snapshot j v' hlt hc' hno
  untouched := by
    intro j v' base' hc' hs
    change (x.setCopy i _).copy j = _ at hc'
    rw [setCopy_copy] at hc'
    rw [note_stored] at hs
    by_cases hj : j = i
    · rw [if_pos ⟨hj, rfl⟩] at hs
      cases hs
    · rw [if_neg hj] at hc'
      rw [if_neg fun hcon => hj hcon.1] at hs
      exact hx.untouched j v' base' hc' hs
  sole := by
    intro j v' hs ha
    obtain rfl := alone_note ha
    rw [note_stored, if_pos ⟨rfl, rfl⟩] at hs
    have hcopy : ((x.setCopy j (.dirty v base)).note j v).copy j = .dirty v base := by
      change (x.setCopy j _).copy j = _
      rw [setCopy_copy, if_pos rfl]
    rw [State.latest, hcopy]
    exact Option.some.inj hs
  quiet := by
    intro hnone
    have hsome := hnone i
    rw [note_stored, if_pos ⟨rfl, rfl⟩] at hsome
    cases hsome
  ended := ended_note (x := x) (i := i) (v := v) hx (fun _ _ => rfl) rfl

/-- A step that changes one copy, and what is known of that copy. -/
theorem Inv.setCopy (hx : Inv h init x) {i : ι} {c : Copy α} (hi : i = h → c = .none)
    (hwait : x.round i < x.done → ∀ v base, c ≠ .dirty v base)
    (hclean : ∀ v, c = .clean v → (∀ r, x.round i ≤ r → ¬ x.late i r) → v = x.home)
    (hdirty : ∀ v base, c = .dirty v base → (∀ r, x.round i ≤ r → ¬ x.late i r) → base = x.home)
    (hsnap : ∀ v, x.round i < x.done → c = .clean v → ¬ x.late i (x.round i) →
      v = x.final (x.round i))
    (huntouched : ∀ v base, c = .dirty v base → x.stored i x.done = none → v = base)
    (hsole : ∀ v, x.stored i x.done = some v → x.Alone i x.done →
      (x.setCopy i c).latest i = v) :
    Inv h init (x.setCopy i c) where
  home_copy := by
    rw [setCopy_copy]
    split
    · rename_i hh
      exact hi hh.symm
    · exact hx.home_copy
  round_le := hx.round_le
  round_ge := hx.round_ge
  late_le := hx.late_le
  late_stored := hx.late_stored
  stored_le := hx.stored_le
  waiting := by
    intro j hlt v base hc
    rw [setCopy_copy] at hc
    split at hc
    · rename_i hj
      subst hj
      exact hwait hlt v base hc
    · exact hx.waiting j hlt v base hc
  clean := by
    intro j v hc hno
    rw [setCopy_copy] at hc
    split at hc
    · rename_i hj
      subst hj
      exact hclean v hc hno
    · exact hx.clean j v hc hno
  dirty := by
    intro j v base hc hno
    rw [setCopy_copy] at hc
    split at hc
    · rename_i hj
      subst hj
      exact hdirty v base hc hno
    · exact hx.dirty j v base hc hno
  snapshot := by
    intro j v hlt hc hno
    rw [setCopy_copy] at hc
    split at hc
    · rename_i hj
      subst hj
      exact hsnap v hlt hc hno
    · exact hx.snapshot j v hlt hc hno
  untouched := by
    intro j v base hc hs
    rw [setCopy_copy] at hc
    split at hc
    · rename_i hj
      subst hj
      exact huntouched v base hc hs
    · exact hx.untouched j v base hc hs
  sole := by
    intro j v hs ha
    by_cases hj : j = i
    · subst hj
      exact hsole v hs ha
    · have hcopy : (x.setCopy i c).copy j = x.copy j := by rw [setCopy_copy, if_neg hj]
      have hlatest := hx.sole j v hs ha
      unfold State.latest at hlatest ⊢
      rw [hcopy]
      exact hlatest
  quiet := hx.quiet
  ended := hx.ended

theorem latest_setCopy (x : State ι α) (i : ι) (c : Copy α) :
    (x.setCopy i c).latest i = match c with
      | .dirty v _ => v
      | _ => x.home := by
  unfold State.latest
  rw [setCopy_copy, if_pos rfl]
  rfl

theorem Inv.openCopy (hx : Inv h init x) {i : ι} {v : α} (hi : i ≠ h) (hr : x.round i = x.done)
    (hc : x.copy i = .clean v) : Inv h init (x.setCopy i (.dirty v v)) := by
  refine hx.setCopy (fun hcon => absurd hcon hi) (fun hlt => by omega) (fun _ hcon => by cases hcon)
    ?_ (fun _ hlt => by omega) ?_ ?_
  · intro w base heq hno
    cases heq
    exact hx.clean i v hc hno
  · intro w base heq _
    cases heq
    rfl
  · intro w hs ha
    have hlatest := hx.sole i w hs ha
    rw [latest_setCopy]
    rw [State.latest, hc] at hlatest
    exact (hx.clean i v hc (hx.fresh hr ha)).trans hlatest

theorem Inv.settle (hx : Inv h init x) {i : ι} {v : α} (hi : i ≠ h) (hr : x.round i = x.done)
    (hc : x.copy i = .dirty v v) : Inv h init (x.setCopy i (.clean v)) := by
  refine hx.setCopy (fun hcon => absurd hcon hi) (fun hlt => by omega) ?_
    (fun _ _ hcon => by cases hcon) (fun _ hlt => by omega) (fun _ _ hcon => by cases hcon) ?_
  · intro w heq hno
    cases heq
    exact hx.dirty i v v hc hno
  · intro w hs ha
    have hlatest := hx.sole i w hs ha
    rw [latest_setCopy]
    rw [State.latest, hc] at hlatest
    exact (hx.dirty i v v hc (hx.fresh hr ha)).symm.trans hlatest

theorem Inv.dropCopy (hx : Inv h init x) {i : ι} (hc : ∀ v base, x.copy i ≠ .dirty v base) :
    Inv h init (x.setCopy i .none) := by
  refine hx.setCopy (fun _ => rfl) (fun _ _ _ hcon => by cases hcon) (fun _ hcon => by cases hcon)
    (fun _ _ hcon => by cases hcon) (fun _ _ hcon => by cases hcon)
    (fun _ _ hcon => by cases hcon) ?_
  intro w hs ha
  have hlatest := hx.sole i w hs ha
  rw [latest_setCopy]
  unfold State.latest at hlatest
  split at hlatest
  · rename_i v base heq
    exact absurd heq (hc v base)
  · exact hlatest

/-- Nothing is late for a party that has just fetched. -/
theorem Inv.resetLate (hx : Inv h init x) {i : ι} (hr : x.round i = x.done)
    (hc : ∀ v, x.copy i = .clean v → v = x.home) (hd : ∀ v base, x.copy i ≠ .dirty v base) :
    Inv h init { x with late := Function.update x.late i fun _ => False } where
  home_copy := hx.home_copy
  round_le := hx.round_le
  round_ge := hx.round_ge
  late_le := by
    intro j r hl
    by_cases hj : j = i
    · subst hj
      simp at hl
    · exact hx.late_le j r (by simpa [hj] using hl)
  late_stored := by
    intro j r hl
    by_cases hj : j = i
    · subst hj
      simp at hl
    · exact hx.late_stored j r (by simpa [hj] using hl)
  stored_le := hx.stored_le
  waiting := hx.waiting
  clean := by
    intro j v hcj hno
    by_cases hj : j = i
    · subst hj
      exact hc v hcj
    · refine hx.clean j v hcj ?_
      simpa [hj] using hno
  dirty := by
    intro j v base hcj hno
    by_cases hj : j = i
    · subst hj
      exact absurd hcj (hd v base)
    · refine hx.dirty j v base hcj ?_
      simpa [hj] using hno
  snapshot := by
    intro j v hlt hcj hno
    by_cases hj : j = i
    · subst hj
      have hlt' : x.round j < x.done := hlt
      omega
    · refine hx.snapshot j v hlt hcj ?_
      simpa [hj] using hno
  untouched := hx.untouched
  sole := hx.sole
  quiet := hx.quiet
  ended := hx.ended

theorem Inv.fetch (hx : Inv h init x) {i : ι} (hi : i ≠ h) (hr : x.round i = x.done)
    (hd : ∀ v base, x.copy i ≠ .dirty v base) :
    Inv h init { x.setCopy i (.clean x.home) with
      late := Function.update x.late i fun _ => False } := by
  have hset : Inv h init (x.setCopy i (.clean x.home)) := by
    refine hx.setCopy (fun hcon => absurd hcon hi) (fun hlt => by omega) ?_
      (fun _ _ hcon => by cases hcon) (fun _ hlt => by omega) (fun _ _ hcon => by cases hcon) ?_
    · intro w heq _
      cases heq
      rfl
    · intro w hs ha
      have hlatest := hx.sole i w hs ha
      rw [latest_setCopy]
      unfold State.latest at hlatest
      split at hlatest
      · rename_i v base heq
        exact absurd heq (hd v base)
      · exact hlatest
  refine hset.resetLate hr ?_ ?_
  · intro w heq
    rw [setCopy_copy, if_pos rfl] at heq
    cases heq
    rfl
  · intro w base heq
    rw [setCopy_copy, if_pos rfl] at heq
    cases heq

theorem Inv.flush (hx : Inv h init x) {i : ι} {v base : α} (hi : i ≠ h) (hr : x.round i = x.done)
    (hc : x.copy i = .dirty v base) (hne : v ≠ base) :
    Inv h init ((x.overtake i v).setCopy i (.clean v)) := by
  -- the party has stored in this round
  have hself : x.stored i x.done ≠ none := fun hs => hne (hx.untouched i v base hc hs)
  have hcopy : ∀ j, ((x.overtake i v).setCopy i (.clean v)).copy j =
      if j = i then .clean v else x.copy j := setCopy_copy (x.overtake i v) i (.clean v)
  refine ⟨?_, hx.round_le, hx.round_ge, ?_, ?_, hx.stored_le, ?_, ?_, ?_, ?_, ?_, ?_, ?_, hx.ended⟩
  · rw [hcopy, if_neg (Ne.symm hi)]
    exact hx.home_copy
  · rintro j r (hl | ⟨-, rfl⟩)
    · exact hx.late_le j r hl
    · exact Nat.le_refl _
  · rintro j r (hl | ⟨hj, rfl⟩)
    · exact hx.late_stored j r hl
    · exact ⟨i, Ne.symm hj, hself⟩
  · intro j hlt w b hcj
    rw [hcopy] at hcj
    split at hcj
    · cases hcj
    · exact hx.waiting j hlt w b hcj
  · intro j w hcj hno
    by_cases hj : j = i
    · rw [hcopy, if_pos hj] at hcj
      cases hcj
      rfl
    · exact absurd (Or.inr ⟨hj, rfl⟩) (hno x.done (hx.round_le j))
  · intro j w b hcj hno
    by_cases hj : j = i
    · rw [hcopy, if_pos hj] at hcj
      cases hcj
    · exact absurd (Or.inr ⟨hj, rfl⟩) (hno x.done (hx.round_le j))
  · intro j w hlt hcj hno
    have hlt' : x.round j < x.done := hlt
    have hj : j ≠ i := by
      rintro rfl
      omega
    rw [hcopy, if_neg hj] at hcj
    exact hx.snapshot j w hlt' hcj fun hl => hno (Or.inl hl)
  · intro j w b hcj hs
    rw [hcopy] at hcj
    split at hcj
    · cases hcj
    · exact hx.untouched j w b hcj hs
  · intro j w hs ha
    have hj : j = i := by
      by_contra hj
      exact hself (ha i (Ne.symm hj))
    subst hj
    have hlatest := hx.sole j w hs ha
    rw [State.latest, hc] at hlatest
    rw [State.latest, hcopy, if_pos rfl]
    exact hlatest
  · intro hnone
    exact absurd (hnone i) hself

theorem Inv.close (hx : Inv h init x) (hall : ∀ i, x.round i = x.done)
    (hclean : ∀ i v base, x.copy i ≠ .dirty v base) :
    Inv h init { x with final := Function.update x.final x.done x.home, done := x.done + 1 } := by
  have hfinal : ∀ r, r < x.done → Function.update x.final x.done x.home r = x.final r := by
    intro r hr
    rw [Function.update_of_ne (Nat.ne_of_lt hr)]
  have hlate : ∀ i, ¬ x.late i x.done → ∀ r, x.round i ≤ r → ¬ x.late i r := by
    intro i hno r hle hl
    have hdone : r = x.done := by
      have := hx.late_le i r hl
      have := hall i
      omega
    exact hno (hdone ▸ hl)
  refine ⟨hx.home_copy, ?_, ?_, ?_, hx.late_stored, ?_, ?_, ?_, ?_, ?_, ?_, ?_, ?_, ?_⟩
  · intro i
    exact Nat.le_succ_of_le (hx.round_le i)
  · intro i
    exact Nat.succ_le_succ (Nat.le_of_eq (hall i).symm)
  · intro i r hl
    exact Nat.le_succ_of_le (hx.late_le i r hl)
  · intro i r hlt
    exact hx.stored_le i r (Nat.lt_of_succ_lt hlt)
  · exact fun i _ => hclean i
  · exact hx.clean
  · exact fun i v base hc => absurd hc (hclean i v base)
  · intro i v _ hc hno
    change v = Function.update x.final x.done x.home (x.round i)
    have hno' : ¬ x.late i (x.round i) := hno
    rw [hall i] at hno' ⊢
    rw [Function.update_self]
    exact hx.clean i v hc (hlate i hno')
  · exact fun i v base hc => absurd hc (hclean i v base)
  · intro i v hs
    have hnone : x.stored i (x.done + 1) = none := hx.stored_le i _ (Nat.lt_succ_self _)
    have hs' : x.stored i (x.done + 1) = some v := hs
    rw [hnone] at hs'
    cases hs'
  · intro _
    exact (Function.update_self x.done x.home x.final).symm
  · intro r hr i ha
    have hstart : ({ x with final := Function.update x.final x.done x.home, done := x.done + 1 } :
        State ι α).start init r = x.start init r :=
      start_eq_of_final hfinal (Nat.lt_succ_iff.mp hr)
    rw [hstart]
    change Function.update x.final x.done x.home r = (x.stored i r).getD _
    rcases Nat.lt_succ_iff_lt_or_eq.mp hr with hr | rfl
    · rw [hfinal r hr]
      exact hx.ended r hr i ha
    · rw [Function.update_self]
      have ha' : x.Alone i x.done := ha
      cases hs : x.stored i x.done with
      | some v =>
          have hlatest := hx.sole i v hs ha'
          unfold State.latest at hlatest
          split at hlatest
          · rename_i w base heq
            exact absurd heq (hclean i w base)
          · exact hlatest
      | none =>
          refine hx.quiet fun j => ?_
          by_cases hj : j = i
          · rw [hj, hs]
          · exact ha' j hj

theorem Inv.leave (hx : Inv h init x) {i : ι} (hr : x.round i + 1 = x.done)
    (hc : x.copy i = .none ∨ ¬ x.late i (x.round i)) :
    Inv h init { x with round := Function.update x.round i (x.round i + 1) } := by
  have hround : ∀ j, j ≠ i → Function.update x.round i (x.round i + 1) j = x.round j :=
    fun j hj => Function.update_of_ne hj _ _
  -- what is late for a party with a copy is late from the round it enters on
  have hlate : ∀ j, x.copy j ≠ .none →
      (∀ r, Function.update x.round i (x.round i + 1) j ≤ r → ¬ x.late j r) →
      ∀ r, x.round j ≤ r → ¬ x.late j r := by
    intro j hcopy hno r hle
    by_cases hj : j = i
    · subst hj
      rw [Function.update_self] at hno
      rcases Nat.eq_or_lt_of_le hle with rfl | hlt
      · exact hc.resolve_left hcopy
      · exact hno r hlt
    · rw [hround j hj] at hno
      exact hno r hle
  refine ⟨hx.home_copy, ?_, ?_, hx.late_le, hx.late_stored, hx.stored_le, ?_, ?_, ?_, ?_,
    hx.untouched, hx.sole, hx.quiet, hx.ended⟩
  · intro j
    by_cases hj : j = i
    · subst hj
      simp only [Function.update_self]
      omega
    · simpa only [hround j hj] using hx.round_le j
  · intro j
    by_cases hj : j = i
    · subst hj
      simp only [Function.update_self]
      omega
    · simpa only [hround j hj] using hx.round_ge j
  · intro j hlt
    by_cases hj : j = i
    · subst hj
      simp only [Function.update_self] at hlt
      omega
    · exact hx.waiting j (by simpa only [hround j hj] using hlt)
  · intro j v hcj hno
    refine hx.clean j v hcj (hlate j ?_ hno)
    have hcj' : x.copy j = .clean v := hcj
    rw [hcj']
    exact nofun
  · intro j v base hcj hno
    refine hx.dirty j v base hcj (hlate j ?_ hno)
    have hcj' : x.copy j = .dirty v base := hcj
    rw [hcj']
    exact nofun
  · intro j v hlt hcj hno
    by_cases hj : j = i
    · subst hj
      simp only [Function.update_self] at hlt
      omega
    · simp only [hround j hj] at hlt hno ⊢
      exact hx.snapshot j v hlt hcj hno

/-- Every step keeps the invariant. -/
theorem inv_step (hx : Inv h init x) (hs : Step h x y) : Inv h init y := by
  cases hs with
  | storeHome v hr => exact hx.storeHome hr
  | store i v w base hi hr hc => exact hx.store hi hr hc
  | fetch i hi hr hc => exact hx.fetch hi hr hc
  | openCopy i v hi hr hc => exact hx.openCopy hi hr hc
  | flush i v base hi hr hc hne => exact hx.flush hi hr hc hne
  | settle i v hi hr hc => exact hx.settle hi hr hc
  | dropCopy i hc => exact hx.dropCopy hc
  | close hall hclean => exact hx.close hall hclean
  | leave i hr hc => exact hx.leave hr hc

end Steps

end BulkSync
