import Mathlib.Tactic.Common

/-!
# Transition systems with history

A system is a start state and a labelled step relation.  An observer folds the
steps of a run into a history value that the system itself does not keep.
-/

namespace Transition

universe u v w

/-- A start state and a labelled step relation. -/
structure System (σ : Type u) (ε : Type v) where
  start : σ
  next : σ → ε → σ → Prop

variable {σ : Type u} {ε : Type v} {η : Type w}

namespace System

/-- States some run reaches. -/
inductive Reach (S : System σ ε) : σ → Prop
  | start : Reach S S.start
  | step {s s' : σ} {e : ε} (hs : Reach S s) (h : S.next s e s') : Reach S s'

/-- The runs from one state to another, by their labels. -/
inductive Run (S : System σ ε) : σ → List ε → σ → Prop
  | nil (s : σ) : Run S s [] s
  | cons {s s' s'' : σ} {e : ε} {es : List ε} (h : S.next s e s') (hrun : Run S s' es s'') :
      Run S s (e :: es) s''

variable {S : System σ ε}

/-- An invariant may use that the state before a step is reachable. -/
theorem Reach.invariant {I : σ → Prop} (hstart : I S.start)
    (hstep : ∀ s e s', S.Reach s → I s → S.next s e s' → I s') {s : σ} (hs : S.Reach s) :
    I s := by
  induction hs with
  | start => exact hstart
  | step hs h ih => exact hstep _ _ _ hs ih h

theorem Reach.run {s s' : σ} {es : List ε} (hs : S.Reach s) (h : S.Run s es s') :
    S.Reach s' := by
  induction h with
  | nil s => exact hs
  | cons hnext _ ih => exact ih (hs.step hnext)

/-- An invariant of single steps holds after every run. -/
theorem Run.invariant {I : σ → Prop} (hstep : ∀ s e s', I s → S.next s e s' → I s')
    {s s' : σ} {es : List ε} (h : S.Run s es s') (hs : I s) : I s' := by
  induction h with
  | nil s => exact hs
  | cons hnext _ ih => exact ih (hstep _ _ _ hs hnext)

/-! ## Traces -/

/-- The labels of a run from the start, the last one at the end. -/
inductive Trace (S : System σ ε) : List ε → σ → Prop
  | nil : Trace S [] S.start
  | snoc {es : List ε} {s s' : σ} {e : ε} (h : Trace S es s) (hstep : S.next s e s') :
      Trace S (es ++ [e]) s'

theorem Trace.reach {es : List ε} {s : σ} (h : S.Trace es s) : S.Reach s := by
  induction h with
  | nil => exact .start
  | snoc _ hnext ih => exact ih.step hnext

theorem Reach.trace {s : σ} (hs : S.Reach s) : ∃ es, S.Trace es s := by
  induction hs with
  | start => exact ⟨[], .nil⟩
  | step _ hnext ih =>
      obtain ⟨es, h⟩ := ih
      exact ⟨_, h.snoc hnext⟩

/-- An invariant may speak of the steps up to a state. -/
theorem Trace.invariant {I : List ε → σ → Prop} (hstart : I [] S.start)
    (hstep : ∀ es s e s', S.Trace es s → I es s → S.next s e s' → I (es ++ [e]) s')
    {es : List ε} {s : σ} (h : S.Trace es s) : I es s := by
  induction h with
  | nil => exact hstart
  | snoc h hnext ih => exact hstep _ _ _ _ h ih hnext

/-- A system whose steps are matched by another one has no other traces. -/
theorem Trace.simulate {τ : Type*} {T : System τ ε} {R : σ → τ → Prop}
    (hstart : R S.start T.start)
    (hstep : ∀ s t e s', R s t → S.next s e s' → ∃ t', T.next t e t' ∧ R s' t')
    {es : List ε} {s : σ} (h : S.Trace es s) : ∃ t, T.Trace es t ∧ R s t := by
  induction h with
  | nil => exact ⟨T.start, .nil, hstart⟩
  | snoc _ hnext ih =>
      obtain ⟨t, ht, hR⟩ := ih
      obtain ⟨t', hnext', hR'⟩ := hstep _ _ _ _ hR hnext
      exact ⟨t', ht.snoc hnext', hR'⟩

/-- A system some of whose steps are matched by steps of another one, while the others do not
show there, has its traces up to these. -/
theorem Trace.project {τ : Type*} {δ : Type*} {T : System τ δ} {R : σ → τ → Prop}
    (f : ε → Option δ) (hstart : R S.start T.start)
    (hsilent : ∀ s t e s', R s t → S.next s e s' → f e = none → R s' t)
    (hseen : ∀ s t e d s', R s t → S.next s e s' → f e = some d → ∃ t', T.next t d t' ∧ R s' t')
    {es : List ε} {s : σ} (h : S.Trace es s) : ∃ t, T.Trace (es.filterMap f) t ∧ R s t := by
  induction h with
  | nil => exact ⟨T.start, .nil, hstart⟩
  | @snoc es s s' e _ hnext ih =>
      obtain ⟨t, ht, hR⟩ := ih
      rw [List.filterMap_append]
      cases hf : f e with
      | none =>
          refine ⟨t, ?_, hsilent _ _ _ _ hR hnext hf⟩
          simpa [hf] using ht
      | some d =>
          obtain ⟨t', hnext', hR'⟩ := hseen _ _ _ _ _ hR hnext hf
          refine ⟨t', ?_, hR'⟩
          simpa [hf] using ht.snoc hnext'

/-- The runs all of whose steps meet a condition. -/
def restrict (S : System σ ε) (C : σ → ε → Prop) : System σ ε where
  start := S.start
  next s e s' := C s e ∧ S.next s e s'

theorem Reach.unrestrict {C : σ → ε → Prop} {s : σ} (h : (S.restrict C).Reach s) : S.Reach s := by
  induction h with
  | start => exact .start
  | step _ h ih => exact ih.step h.2

theorem Trace.unrestrict {C : σ → ε → Prop} {es : List ε} {s : σ}
    (h : (S.restrict C).Trace es s) : S.Trace es s := by
  induction h with
  | nil => exact .nil
  | snoc _ hstep ih => exact ih.snoc hstep.2

/-! ## Executable steps -/

/-- A step with a guard. -/
theorem guard_eq_ok {α β : Type*} {c : Prop} [Decidable c] {x : Except α β} {a : α} {b : β} :
    (if c then x else .error a) = .ok b ↔ c ∧ x = .ok b := by
  by_cases hc : c
  · rw [if_pos hc]
    exact ⟨fun hx => ⟨hc, hx⟩, And.right⟩
  · rw [if_neg hc]
    exact ⟨nofun, fun h => absurd h.1 hc⟩

/-- Execute a list of labels with a step function. -/
def execBy {α : Type*} (f : σ → ε → Except α σ) : List ε → σ → Except α σ
  | [], s => .ok s
  | e :: es, s =>
      match f s e with
      | .ok s' => execBy f es s'
      | .error a => .error a

theorem Reach.execBy {α : Type*} {f : σ → ε → Except α σ}
    (hnext : ∀ s e s', f s e = .ok s' → S.next s e s') {es : List ε} {s s' : σ} (hs : S.Reach s)
    (h : execBy f es s = .ok s') : S.Reach s' := by
  induction es generalizing s with
  | nil =>
      rw [System.execBy, Except.ok.injEq] at h
      exact h ▸ hs
  | cons e es ih =>
      rw [System.execBy] at h
      split at h
      · rename_i s₁ hstep
        exact ih (hs.step (hnext _ _ _ hstep)) h
      · cases h

theorem Trace.execBy {α : Type*} {f : σ → ε → Except α σ}
    (hnext : ∀ s e s', f s e = .ok s' → S.next s e s') {es₀ es : List ε} {s s' : σ}
    (hs : S.Trace es₀ s) (h : execBy f es s = .ok s') : S.Trace (es₀ ++ es) s' := by
  induction es generalizing es₀ s with
  | nil =>
      rw [System.execBy, Except.ok.injEq] at h
      rw [List.append_nil]
      exact h ▸ hs
  | cons e es ih =>
      rw [System.execBy] at h
      split at h
      · rename_i s₁ hstep
        have htrace := ih (hs.snoc (hnext _ _ _ hstep)) h
        rwa [List.append_assoc] at htrace
      · cases h

/-- A list of labels can be executed, and what holds at its end was evaluated. -/
theorem exists_execBy {α : Type*} {f : σ → ε → Except α σ}
    (hnext : ∀ s e s', f s e = .ok s' → S.next s e s') (es : List ε) (P : σ → Bool)
    (h : (match execBy f es S.start with
      | .ok s => P s
      | .error _ => false) = true) :
    ∃ s, S.Reach s ∧ P s = true := by
  split at h
  · rename_i s hs
    exact ⟨s, Reach.start.execBy hnext hs, h⟩
  · cases h

/-- A list of labels that can be executed is a trace. -/
theorem exists_trace {α : Type*} {f : σ → ε → Except α σ}
    (hnext : ∀ s e s', f s e = .ok s' → S.next s e s') (es : List ε)
    (h : (execBy f es S.start).isOk = true) : ∃ s, S.Trace es s := by
  cases hs : execBy f es S.start with
  | ok s => exact ⟨s, Trace.nil.execBy hnext hs⟩
  | error a =>
      rw [hs] at h
      cases h

/-! ## History variables -/

/-- A value folded over the steps of a run. -/
structure Observer (σ : Type u) (ε : Type v) (η : Type w) where
  start : η
  obs : η → σ → ε → σ → η

/-- The system that also carries the history. -/
def withHist (S : System σ ε) (o : Observer σ ε η) : System (σ × η) ε where
  start := (S.start, o.start)
  next x e x' := S.next x.1 e x'.1 ∧ x'.2 = o.obs x.2 x.1 e x'.1

theorem Reach.forget {o : Observer σ ε η} {x : σ × η} (h : (S.withHist o).Reach x) :
    S.Reach x.1 := by
  induction h with
  | start => exact .start
  | step _ h ih => exact ih.step h.1

/-- The history follows a step. -/
theorem Reach.hist {o : Observer σ ε η} {x : σ × η} (hx : (S.withHist o).Reach x) {e : ε}
    {s' : σ} (h : S.next x.1 e s') : (S.withHist o).Reach (s', o.obs x.2 x.1 e s') :=
  hx.step ⟨h, rfl⟩

/-- Every reachable state has a history. -/
theorem Reach.exists_hist (o : Observer σ ε η) {s : σ} (h : S.Reach s) :
    ∃ x : η, (S.withHist o).Reach (s, x) := by
  induction h with
  | start => exact ⟨_, .start⟩
  | @step s s' e _ h ih =>
      obtain ⟨x, hx⟩ := ih
      exact ⟨o.obs x s e s', hx.step ⟨h, rfl⟩⟩

/-- Two histories side by side. -/
def Observer.prod {θ : Type*} (o : Observer σ ε η) (o' : Observer σ ε θ) :
    Observer σ ε (η × θ) where
  start := (o.start, o'.start)
  obs x s e s' := (o.obs x.1 s e s', o'.obs x.2 s e s')

theorem Reach.fst {θ : Type*} {o : Observer σ ε η} {o' : Observer σ ε θ} {x : σ × η × θ}
    (h : (S.withHist (o.prod o')).Reach x) : (S.withHist o).Reach (x.1, x.2.1) := by
  induction h with
  | start => exact .start
  | step _ h ih => exact ih.step ⟨h.1, congrArg Prod.fst h.2⟩

theorem Reach.snd {θ : Type*} {o : Observer σ ε η} {o' : Observer σ ε θ} {x : σ × η × θ}
    (h : (S.withHist (o.prod o')).Reach x) : (S.withHist o').Reach (x.1, x.2.2) := by
  induction h with
  | start => exact .start
  | step _ h ih => exact ih.step ⟨h.1, congrArg Prod.snd h.2⟩

/-- A history that may look at another one. -/
def Observer.chain {θ : Type*} (o : Observer σ ε η) (start : θ) (obs : η → θ → σ → ε → σ → θ) :
    Observer σ ε (η × θ) where
  start := (o.start, start)
  obs x s e s' := (o.obs x.1 s e s', obs x.1 x.2 s e s')

theorem Reach.unchain {θ : Type*} {o : Observer σ ε η} {start : θ} {obs : η → θ → σ → ε → σ → θ}
    {x : σ × η × θ} (h : (S.withHist (o.chain start obs)).Reach x) :
    (S.withHist o).Reach (x.1, x.2.1) := by
  induction h with
  | start => exact .start
  | step _ h ih => exact ih.step ⟨h.1, congrArg Prod.fst h.2⟩

/-- A run with one history has one with a second history on top. -/
theorem Reach.rechain {θ : Type*} {o : Observer σ ε η} {x : σ × η}
    (h : (S.withHist o).Reach x) (start : θ) (obs : η → θ → σ → ε → σ → θ) :
    ∃ y : θ, (S.withHist (o.chain start obs)).Reach (x.1, x.2, y) := by
  induction h with
  | start => exact ⟨start, .start⟩
  | @step x x' e _ h ih =>
      obtain ⟨y, hy⟩ := ih
      refine ⟨obs x.2 y x.1 e x'.1, hy.step ⟨h.1, ?_⟩⟩
      rw [h.2]
      rfl

end System

end Transition
