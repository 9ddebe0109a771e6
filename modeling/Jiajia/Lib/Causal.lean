import Jiajia.Lib.Transition
import Mathlib.Data.List.Infix

/-!
# Causal delivery

Parties that send one message at a time: a party's next message leaves only when
the one before has reached its destination.  A message reaches its destination
when the single receiver there holds it, or, from the same party, in the inbox.
The messages are handled in an order that agrees with causality.
-/

namespace Causal

open Transition

universe u

variable {μ : Type u}

/-- What happens to messages at a party. -/
inductive Act (μ : Type u)
  | handed (i : Nat) (m : μ)
  | handled (i : Nat) (m : μ)
deriving DecidableEq, Repr

/-- What comes before a message: what its party handed or handled earlier, and
what came before that. -/
inductive Before (log : List (Act μ)) : μ → μ → Prop
  | order {i : Nat} {m m' : μ} (h : [Act.handed i m, Act.handed i m'].Sublist log) :
      Before log m m'
  | reply {i : Nat} {m m' : μ} (h : [Act.handled i m, Act.handed i m'].Sublist log) :
      Before log m m'
  | trans {m m' m'' : μ} (h : Before log m m') (h' : Before log m' m'') : Before log m m''

/-- What a party knows of. -/
def Past (log : List (Act μ)) (i : Nat) (p : μ) : Prop :=
  ∃ x, (Act.handed i x ∈ log ∨ Act.handled i x ∈ log) ∧ (p = x ∨ Before log p x)

section Before

variable {log : List (Act μ)} {p q m : μ} {i : Nat} {a b c : Act μ}

theorem pair_sublist_snoc {l : List (Act μ)} (h : [a, b].Sublist (l ++ [c])) :
    [a, b].Sublist l ∨ a ∈ l ∧ b = c := by
  obtain ⟨l₁, l₂, heq, h₁, h₂⟩ := List.sublist_append_iff.mp h
  cases l₂ with
  | nil =>
      rw [List.append_nil] at heq
      exact .inl (heq ▸ h₁)
  | cons x xs =>
      have hle := h₂.length_le
      cases xs with
      | cons y ys =>
          simp at hle
      | nil =>
          obtain rfl : x = c := List.mem_singleton.mp (h₂.subset List.mem_cons_self)
          obtain ⟨rfl, rfl⟩ : l₁ = [a] ∧ x = b := by
            have hpair : [a] ++ [b] = l₁ ++ [x] := heq
            have h := List.append_inj' hpair rfl
            exact ⟨h.1.symm, (List.cons.inj h.2).1.symm⟩
          exact .inr ⟨h₁.subset List.mem_cons_self, rfl⟩

theorem Before.left (h : Before log p q) : ∃ i, Act.handed i p ∈ log ∨ Act.handled i p ∈ log := by
  induction h with
  | order h => exact ⟨_, .inl (h.subset List.mem_cons_self)⟩
  | reply h => exact ⟨_, .inr (h.subset List.mem_cons_self)⟩
  | trans _ _ ih _ => exact ih

theorem Before.right (h : Before log p q) : ∃ i, Act.handed i q ∈ log := by
  have hlast : ∀ {x y : Act μ}, [x, y].Sublist log → y ∈ log := fun h =>
    h.subset (List.mem_cons_of_mem _ List.mem_cons_self)
  induction h with
  | order h => exact ⟨_, hlast h⟩
  | reply h => exact ⟨_, hlast h⟩
  | trans _ _ _ ih => exact ih

/-- Handling a message puts nothing before another one. -/
theorem Before.of_handled (h : Before (log ++ [.handled i m]) p q) : Before log p q := by
  induction h with
  | order h =>
      rcases pair_sublist_snoc h with h | ⟨-, h⟩
      · exact .order h
      · cases h
  | reply h =>
      rcases pair_sublist_snoc h with h | ⟨-, h⟩
      · exact .reply h
      · cases h
  | trans _ _ ih ih' => exact ih.trans ih'

/-- What comes before a new message is what its party knows of. -/
theorem Before.of_handed (hfresh : ∀ j, Act.handed j m ∉ log ∧ Act.handled j m ∉ log)
    (h : Before (log ++ [.handed i m]) p q) : Before log p q ∨ q = m ∧ Past log i p := by
  induction h with
  | order h =>
      rcases pair_sublist_snoc h with h | ⟨hmem, heq⟩
      · exact .inl (.order h)
      · obtain ⟨rfl, rfl⟩ := Act.handed.inj heq
        exact .inr ⟨rfl, _, .inl hmem, .inl rfl⟩
  | reply h =>
      rcases pair_sublist_snoc h with h | ⟨hmem, heq⟩
      · exact .inl (.reply h)
      · obtain ⟨rfl, rfl⟩ := Act.handed.inj heq
        exact .inr ⟨rfl, _, .inr hmem, .inl rfl⟩
  | @trans p x q _ _ ih ih' =>
      have hnot : ¬ (∃ j, Act.handed j m ∈ log ∨ Act.handled j m ∈ log) := by
        rintro ⟨j, h | h⟩
        · exact (hfresh j).1 h
        · exact (hfresh j).2 h
      rcases ih' with ih' | ⟨rfl, y, hy, hxy⟩
      · rcases ih with ih | ⟨rfl, -⟩
        · exact .inl (ih.trans ih')
        · exact absurd ih'.left hnot
      · rcases ih with ih | ⟨rfl, -⟩
        · refine .inr ⟨rfl, y, hy, .inr ?_⟩
          rcases hxy with rfl | hxy
          · exact ih
          · exact ih.trans hxy
        · rcases hxy with rfl | hxy
          · exact absurd ⟨_, hy⟩ hnot
          · exact absurd hxy.left hnot

theorem Before.old (hfresh : ∀ j, Act.handed j m ∉ log ∧ Act.handled j m ∉ log)
    (h : Before (log ++ [.handed i m]) p q) (hq : q ≠ m) : Before log p q := by
  rcases h.of_handed hfresh with h | ⟨h, -⟩
  · exact h
  · exact absurd h hq

end Before

/-- The parties and the messages between them. -/
structure Post (μ : Type u) where
  log : List (Act μ)
  /-- The messages that left or are leaving. -/
  taken : List μ
  /-- What a party has still to send, with what it is sending in front. -/
  pend : Nat → List μ
  inbox : Nat → List μ
  /-- What the receiver of a party holds. -/
  held : Nat → Option μ

def Post.init : Post μ := ⟨[], [], fun _ => [], fun _ => [], fun _ => none⟩

/-- The message has reached its destination. -/
def Post.At (v : Post μ) (i : Nat) (m : μ) : Prop :=
  .handled i m ∈ v.log ∨ m ∈ v.inbox i ∨ v.held i = some m

variable (src dst : μ → Nat)

inductive Step : Post μ → Post μ → Prop
  | hand {v : Post μ} (i : Nat) (m : μ) (hsrc : src m = i) (hfresh : ∀ j, .handed j m ∉ v.log) :
      Step v { v with
        log := v.log ++ [.handed i m]
        pend := Function.update v.pend i (v.pend i ++ [m]) }
  | take {v : Post μ} (i : Nat) (m : μ) (rest : List μ) (hpend : v.pend i = m :: rest) :
      Step v { v with taken := m :: v.taken }
  | leave {v : Post μ} (i : Nat) (m : μ) (rest : List μ) (hpend : v.pend i = m :: rest)
      (htaken : m ∈ v.taken) (hat : v.At (dst m) m) :
      Step v { v with pend := Function.update v.pend i rest }
  | selfSend {v : Post μ} (i : Nat) (m : μ) (rest : List μ) (hpend : v.pend i = m :: rest)
      (htaken : m ∈ v.taken) (hdst : dst m = i) :
      Step v { v with
        pend := Function.update v.pend i rest
        inbox := Function.update v.inbox i (v.inbox i ++ [m]) }
  | hold {v : Post μ} (i : Nat) (m : μ) (htaken : m ∈ v.taken) (hdst : dst m = i)
      (hsrc : src m ≠ i) (hheld : v.held i = none) :
      Step v { v with held := Function.update v.held i (some m) }
  | land {v : Post μ} (i : Nat) (m : μ) (hheld : v.held i = some m) :
      Step v { v with
        inbox := Function.update v.inbox i (v.inbox i ++ [m])
        held := Function.update v.held i none }
  | handle {v : Post μ} (i : Nat) (m : μ) (rest : List μ) (hinbox : v.inbox i = m :: rest) :
      Step v { v with
        log := v.log ++ [.handled i m]
        inbox := Function.update v.inbox i rest }

/-- A message in a list has before it what was handled, and what stands in front. -/
def Behind (P : μ → Prop) (log : List (Act μ)) (l : List μ) : Prop :=
  ∀ l₁ m l₂, l = l₁ ++ m :: l₂ → ∀ p, Before log p m → P p ∨ p ∈ l₁

section Behind

variable {P P' : μ → Prop} {log log' : List (Act μ)} {l : List μ} {x : μ}

theorem behind_nil : Behind P log [] := by
  intro l₁ m l₂ h
  simp at h

theorem Behind.mono (h : Behind P log l) (hP : ∀ p, P p → P' p)
    (hlog : ∀ m ∈ l, ∀ p, Before log' p m → Before log p m) : Behind P' log' l := by
  intro l₁ m l₂ hl p hp
  have hm : m ∈ l := by
    rw [hl]
    exact List.mem_append_right _ List.mem_cons_self
  exact (h l₁ m l₂ hl p (hlog m hm p hp)).imp_left (hP p)

theorem Behind.head (h : Behind P log (x :: l)) {p : μ} (hp : Before log p x) : P p := by
  rcases h [] x l rfl p hp with hp | hp
  · exact hp
  · cases hp

theorem Behind.tail (h : Behind P log (x :: l)) (hx : P x) : Behind P log l := by
  intro l₁ m l₂ hl p hp
  rcases h (x :: l₁) m l₂ (congrArg (x :: ·) hl) p hp with hp | hp
  · exact .inl hp
  · rcases List.mem_cons.mp hp with rfl | hp
    · exact .inl hx
    · exact .inr hp

theorem Behind.last (h : Behind P log (l ++ [x])) {p : μ} (hp : Before log p x) : P p ∨ p ∈ l :=
  h l x [] rfl p hp

theorem Behind.init (h : Behind P log (l ++ [x])) : Behind P log l := by
  intro l₁ m l₂ hl p hp
  refine h l₁ m (l₂ ++ [x]) ?_ p hp
  rw [hl, List.append_assoc, List.cons_append]

theorem Behind.snoc (h : Behind P log l) (hx : ∀ p, Before log p x → P p ∨ p ∈ l) :
    Behind P log (l ++ [x]) := by
  intro l₁ m l₂ hl p hp
  rcases List.eq_nil_or_concat l₂ with rfl | ⟨l₂, y, rfl⟩
  · obtain ⟨rfl, hxm⟩ := List.append_inj' hl rfl
    obtain rfl : x = m := (List.cons.inj hxm).1
    exact hx p hp
  · rw [List.concat_eq_append, ← List.cons_append, ← List.append_assoc] at hl
    obtain ⟨rfl, -⟩ := List.append_inj' hl rfl
    exact h l₁ m l₂ rfl p hp

end Behind

structure Ordered (v : Post μ) : Prop where
  pend : ∀ i, ∀ m ∈ v.pend i, src m = i ∧ .handed i m ∈ v.log
  handed : ∀ i m, .handed i m ∈ v.log → src m = i ∧ (m ∈ v.pend i ∨ m ∈ v.taken)
  taken : ∀ m ∈ v.taken, .handed (src m) m ∈ v.log ∧
    (v.At (dst m) m ∨ ∃ rest, v.pend (src m) = m :: rest)
  came : ∀ i m, v.At i m → m ∈ v.taken ∧ dst m = i
  held : ∀ i m, v.held i = some m → src m ≠ i
  /-- Only what has arrived is before what leaves. -/
  out : ∀ i, Behind (fun p => v.At (dst p) p) v.log (v.pend i)
  left : ∀ m ∈ v.taken, ∀ p, Before v.log p m → v.At (dst p) p
  /-- Only what has been handled is before what is handled next. -/
  arrive : ∀ i, Behind (fun p => dst p = i → .handled i p ∈ v.log) v.log
    (v.inbox i ++ (v.held i).toList)
  own : ∀ i m, .handed i m ∈ v.log → ∀ p, Before v.log p m → dst p = i →
    .handled i p ∈ v.log ∨ src p = i
  order : ∀ i m, .handled i m ∈ v.log → ∀ p, Before v.log p m → dst p = i →
    [Act.handled i p, .handled i m].Sublist v.log

section Step

variable {src dst} {v v' : Post μ} {i : Nat} {m : μ} {rest : List μ}

theorem Ordered.fresh (hv : Ordered src dst v) (hfresh : ∀ j, .handed j m ∉ v.log) (j : Nat) :
    Act.handed j m ∉ v.log ∧ Act.handled j m ∉ v.log := by
  refine ⟨hfresh j, ?_⟩
  intro h
  exact hfresh _ (hv.taken m (hv.came j m (.inl h)).1).1

theorem Post.At.handed (h : v.At i m) (j : Nat) (x : μ) (l : Nat → List μ) :
    ({ v with log := v.log ++ [.handed j x], pend := l } : Post μ).At i m := by
  rcases h with h | h | h
  · exact .inl (List.mem_append_left _ h)
  · exact .inr (.inl h)
  · exact .inr (.inr h)

/-- What a party knows of has reached its destination or is to be sent before. -/
theorem Ordered.past (hv : Ordered src dst v) {p : μ} (hp : Past v.log i p) :
    v.At (dst p) p ∨ p ∈ v.pend i := by
  have htaken : ∀ x ∈ v.taken, p = x ∨ Before v.log p x →
      v.At (dst p) p ∨ p ∈ v.pend (src x) := by
    intro x hx hpx
    rcases hpx with rfl | hpx
    · rcases (hv.taken p hx).2 with h | ⟨rest, h⟩
      · exact .inl h
      · rw [h]
        exact .inr List.mem_cons_self
    · exact .inl (hv.left x hx p hpx)
  obtain ⟨x, hx | hx, hpx⟩ := hp
  · obtain ⟨hsrc, hx | hx⟩ := hv.handed i x hx
    · rcases hpx with rfl | hpx
      · exact .inr hx
      · obtain ⟨l₁, l₂, hl⟩ := List.append_of_mem hx
        rcases hv.out i l₁ x l₂ hl p hpx with h | h
        · exact .inl h
        · rw [hl]
          exact .inr (List.mem_append_left _ h)
    · rw [← hsrc]
      exact htaken x hx hpx
  · obtain ⟨htk, hdst⟩ := hv.came i x (.inl hx)
    rcases hpx with rfl | hpx
    · rw [hdst]
      exact .inl (.inl hx)
    · exact .inl (hv.left x htk p hpx)

/-- What a party knows of and gets has been handled, or is its own. -/
theorem Ordered.past_own (hv : Ordered src dst v) {p : μ} (hp : Past v.log i p)
    (hdst : dst p = i) : .handled i p ∈ v.log ∨ src p = i := by
  obtain ⟨x, hx | hx, rfl | hpx⟩ := hp
  · exact .inr (hv.handed i p hx).1
  · exact hv.own i x hx p hpx hdst
  · exact .inl hx
  · exact .inl ((hv.order i x hx p hpx hdst).subset List.mem_cons_self)

theorem Post.At.own (h : v.At i m) (j : Nat) (x : μ) :
    ({ v with inbox := Function.update v.inbox j (v.inbox j ++ [x]) } : Post μ).At i m := by
  refine h.imp_right (Or.imp_left ?_)
  intro h
  dsimp only
  by_cases hi : i = j
  · subst hi
    rw [Function.update_self]
    exact List.mem_append_left _ h
  · rwa [Function.update_of_ne hi]

theorem Post.At.hold (h : v.At i m) {j : Nat} (hheld : v.held j = none) (x : μ) :
    ({ v with held := Function.update v.held j (some x) } : Post μ).At i m := by
  refine h.imp_right (Or.imp_right ?_)
  intro h
  dsimp only
  have hi : i ≠ j := by
    rintro rfl
    rw [hheld] at h
    cases h
  rwa [Function.update_of_ne hi]

theorem at_land {j : Nat} {x : μ} (hheld : v.held j = some x) :
    ({ v with
      inbox := Function.update v.inbox j (v.inbox j ++ [x])
      held := Function.update v.held j none } : Post μ).At i m ↔ v.At i m := by
  unfold Post.At
  dsimp only
  by_cases hi : i = j
  · subst hi
    rw [Function.update_self, Function.update_self, List.mem_append, List.mem_singleton, hheld,
      Option.some.injEq]
    simp only [reduceCtorEq, or_false, eq_comm]
  · rw [Function.update_of_ne hi, Function.update_of_ne hi]

theorem Post.At.handle (h : v.At i m) {j : Nat} {x : μ} (hinbox : v.inbox j = x :: rest) :
    ({ v with
      log := v.log ++ [.handled j x]
      inbox := Function.update v.inbox j rest } : Post μ).At i m := by
  rcases h with h | h | h
  · exact .inl (List.mem_append_left _ h)
  · by_cases hi : i = j
    · subst hi
      rw [hinbox] at h
      rcases List.mem_cons.mp h with rfl | h
      · exact .inl (List.mem_append_right _ (List.mem_singleton_self _))
      · refine .inr (.inl ?_)
        dsimp only
        rwa [Function.update_self]
    · refine .inr (.inl ?_)
      dsimp only
      rwa [Function.update_of_ne hi]
  · exact .inr (.inr h)

/-- A message that has reached its destination stays there. -/
theorem Step.at (hstep : Step src dst v v') (h : v.At i m) : v'.At i m := by
  cases hstep with
  | hand j x _ _ => exact h.handed j x _
  | take j x rest _ => exact h
  | leave j x rest _ _ _ => exact h
  | selfSend j x rest _ _ _ => exact h.own j x
  | hold j x _ _ _ hheld => exact h.hold hheld x
  | land j x hheld => exact (at_land hheld).mpr h
  | handle j x rest hinbox => exact h.handle hinbox

theorem ordered_hand (hv : Ordered src dst v) (hsrc : src m = i)
    (hfresh : ∀ j, .handed j m ∉ v.log) :
    Ordered src dst { v with
      log := v.log ++ [.handed i m]
      pend := Function.update v.pend i (v.pend i ++ [m]) } := by
  have hfresh' := hv.fresh hfresh
  have hold : ∀ x, (∃ j, Act.handed j x ∈ v.log) → ∀ p,
      Before (v.log ++ [.handed i m]) p x → Before v.log p x := by
    rintro x ⟨j, hx⟩ p hp
    apply hp.old hfresh'
    rintro rfl
    exact hfresh j hx
  have hlog : ∀ {a}, a ∈ v.log → a ∈ v.log ++ [.handed i m] := List.mem_append_left _
  have hhandled : ∀ {j x}, Act.handled j x ∈ v.log ++ [.handed i m] →
      Act.handled j x ∈ v.log := by
    intro j x hx
    rcases List.mem_append.mp hx with hx | hx
    · exact hx
    · cases List.mem_singleton.mp hx
  have hat : ∀ {j x}, ({ v with
      log := v.log ++ [.handed i m]
      pend := Function.update v.pend i (v.pend i ++ [m]) } : Post μ).At j x → v.At j x :=
    fun h => h.imp_left hhandled
  refine ⟨?_, ?_, ?_, ?_, hv.held, ?_, ?_, ?_, ?_, ?_⟩
  · intro j x hx
    dsimp only at hx ⊢
    by_cases hj : j = i
    · subst hj
      rw [Function.update_self] at hx
      rcases List.mem_append.mp hx with hx | hx
      · exact ⟨(hv.pend j x hx).1, hlog (hv.pend j x hx).2⟩
      · obtain rfl := List.mem_singleton.mp hx
        exact ⟨hsrc, List.mem_append_right _ (List.mem_singleton_self _)⟩
    · rw [Function.update_of_ne hj] at hx
      exact ⟨(hv.pend j x hx).1, hlog (hv.pend j x hx).2⟩
  · intro j x hx
    dsimp only at hx ⊢
    rcases List.mem_append.mp hx with hx | hx
    · obtain ⟨hs, hmem⟩ := hv.handed j x hx
      refine ⟨hs, hmem.imp_left ?_⟩
      intro hpend
      by_cases hj : j = i
      · subst hj
        rw [Function.update_self]
        exact List.mem_append_left _ hpend
      · rwa [Function.update_of_ne hj]
    · obtain ⟨rfl, rfl⟩ := Act.handed.inj (List.mem_singleton.mp hx)
      rw [Function.update_self]
      exact ⟨hsrc, .inl (List.mem_append_right _ (List.mem_singleton_self _))⟩
  · intro x hx
    obtain ⟨hh, hx⟩ := hv.taken x hx
    refine ⟨hlog hh, ?_⟩
    rcases hx with hx | ⟨rest, hx⟩
    · exact .inl (hx.handed i m _)
    · right
      dsimp only
      by_cases hj : src x = i
      · rw [← hj, Function.update_self, hx]
        exact ⟨rest ++ [m], rfl⟩
      · rw [Function.update_of_ne hj]
        exact ⟨rest, hx⟩
  · intro j x hx
    exact hv.came j x (hat hx)
  · intro j
    dsimp only
    have hbehind : ∀ k, Behind (fun p => ({ v with
        log := v.log ++ [.handed i m]
        pend := Function.update v.pend i (v.pend i ++ [m]) } : Post μ).At (dst p) p)
        (v.log ++ [.handed i m]) (v.pend k) := by
      intro k
      apply (hv.out k).mono
      · intro p hp
        exact hp.handed i m _
      · intro x hx p hp
        exact hold x ⟨_, (hv.pend k x hx).2⟩ p hp
    by_cases hj : j = i
    · subst hj
      rw [Function.update_self]
      apply (hbehind j).snoc
      intro p hp
      rcases hp.of_handed hfresh' with hp | ⟨-, hp⟩
      · obtain ⟨k, hk⟩ := hp.right
        exact absurd hk (hfresh k)
      · exact (hv.past hp).imp_left fun h => h.handed j m _
    · rw [Function.update_of_ne hj]
      exact hbehind j
  · intro x hx p hp
    exact (hv.left x hx p (hold x ⟨_, (hv.taken x hx).1⟩ p hp)).handed i m _
  · intro j
    apply (hv.arrive j).mono
    · intro p hp hdst
      exact hlog (hp hdst)
    · intro x hx p hp
      refine hold x ⟨_, (hv.taken x (hv.came j x ?_).1).1⟩ p hp
      rcases List.mem_append.mp hx with hx | hx
      · exact .inr (.inl hx)
      · exact .inr (.inr (Option.mem_toList.mp hx))
  · intro j x hx p hp hdst
    dsimp only at hx hp ⊢
    rcases List.mem_append.mp hx with hx | hx
    · exact (hv.own j x hx p (hold x ⟨j, hx⟩ p hp) hdst).imp_left hlog
    · obtain ⟨rfl, rfl⟩ := Act.handed.inj (List.mem_singleton.mp hx)
      rcases hp.of_handed hfresh' with hp | ⟨-, hp⟩
      · obtain ⟨k, hk⟩ := hp.right
        exact absurd hk (hfresh k)
      · exact (hv.past_own hp hdst).imp_left hlog
  · intro j x hx p hp hdst
    have hx' := hhandled hx
    have hp' := hold x ⟨_, (hv.taken x (hv.came j x (.inl hx')).1).1⟩ p hp
    exact (hv.order j x hx' p hp' hdst).trans (List.sublist_append_left _ _)

theorem ordered_take (hv : Ordered src dst v) (hpend : v.pend i = m :: rest) :
    Ordered src dst { v with taken := m :: v.taken } := by
  have hm : m ∈ v.pend i := by
    rw [hpend]
    exact List.mem_cons_self
  obtain ⟨hsrc, hhanded⟩ := hv.pend i m hm
  refine ⟨hv.pend, ?_, ?_, ?_, hv.held, hv.out, ?_, hv.arrive, hv.own, hv.order⟩
  · intro j x hx
    obtain ⟨hs, hx⟩ := hv.handed j x hx
    exact ⟨hs, hx.imp_right (List.mem_cons_of_mem _)⟩
  · intro x hx
    rcases List.mem_cons.mp hx with rfl | hx
    · rw [hsrc]
      exact ⟨hhanded, .inr ⟨rest, hpend⟩⟩
    · exact hv.taken x hx
  · intro j x hx
    exact ⟨List.mem_cons_of_mem _ (hv.came j x hx).1, (hv.came j x hx).2⟩
  · intro x hx p hp
    rcases List.mem_cons.mp hx with rfl | hx
    · have hout := hv.out i
      rw [hpend] at hout
      exact hout.head hp
    · exact hv.left x hx p hp

/-- The message in front has arrived and leaves the list. -/
theorem ordered_leave (hv : Ordered src dst v) (hpend : v.pend i = m :: rest)
    (htaken : m ∈ v.taken) (hat : v.At (dst m) m) :
    Ordered src dst { v with pend := Function.update v.pend i rest } := by
  have hsub : ∀ j, ∀ x ∈ Function.update v.pend i rest j, x ∈ v.pend j := by
    intro j x hx
    by_cases hj : j = i
    · subst hj
      rw [Function.update_self] at hx
      rw [hpend]
      exact List.mem_cons_of_mem _ hx
    · rwa [Function.update_of_ne hj] at hx
  have hkeep : ∀ j x, x ∈ v.pend j → x = m ∨ x ∈ Function.update v.pend i rest j := by
    intro j x hx
    by_cases hj : j = i
    · subst hj
      rw [hpend] at hx
      rw [Function.update_self]
      exact List.mem_cons.mp hx
    · rw [Function.update_of_ne hj]
      exact .inr hx
  refine ⟨?_, ?_, ?_, hv.came, hv.held, ?_, hv.left, hv.arrive, hv.own, hv.order⟩
  · intro j x hx
    exact hv.pend j x (hsub j x hx)
  · intro j x hx
    obtain ⟨hs, hmem⟩ := hv.handed j x hx
    refine ⟨hs, ?_⟩
    rcases hmem with hmem | hmem
    · rcases hkeep j x hmem with rfl | hmem
      · exact .inr htaken
      · exact .inl hmem
    · exact .inr hmem
  · intro x hx
    obtain ⟨hh, hx⟩ := hv.taken x hx
    refine ⟨hh, ?_⟩
    rcases hx with hx | ⟨rest', hx⟩
    · exact .inl hx
    · dsimp only
      by_cases hj : src x = i
      · rw [hj, hpend] at hx
        rw [← (List.cons.inj hx).1]
        exact .inl hat
      · rw [Function.update_of_ne hj]
        exact .inr ⟨rest', hx⟩
  · intro j
    dsimp only
    by_cases hj : j = i
    · subst hj
      rw [Function.update_self]
      have hout := hv.out j
      rw [hpend] at hout
      exact hout.tail hat
    · rw [Function.update_of_ne hj]
      exact hv.out j

/-- A message that its own party sends joins the inbox. -/
theorem ordered_own (hv : Ordered src dst v) (htaken : m ∈ v.taken) (hdst : dst m = i)
    (hsrc : src m = i) :
    Ordered src dst { v with inbox := Function.update v.inbox i (v.inbox i ++ [m]) } := by
  have hat : ∀ {j x}, v.At j x →
      ({ v with inbox := Function.update v.inbox i (v.inbox i ++ [m]) } : Post μ).At j x :=
    fun h => h.own i m
  -- what is before the message has been handled, or came to the inbox from here
  have hbefore : ∀ p, Before v.log p m → (dst p = i → .handled i p ∈ v.log) ∨ p ∈ v.inbox i := by
    intro p hp
    by_cases hdp : dst p = i
    · have hown := hv.own i m (hsrc ▸ (hv.taken m htaken).1) p hp hdp
      have hleft := hv.left m htaken p hp
      rw [hdp] at hleft
      rcases hown with hown | hown
      · exact .inl fun _ => hown
      · rcases hleft with hleft | hleft | hleft
        · exact .inl fun _ => hleft
        · exact .inr hleft
        · exact absurd hown (hv.held i p hleft)
    · exact .inl fun h => absurd h hdp
  refine ⟨hv.pend, hv.handed, ?_, ?_, hv.held, ?_, ?_, ?_, hv.own, hv.order⟩
  · intro x hx
    exact ⟨(hv.taken x hx).1, (hv.taken x hx).2.imp_left hat⟩
  · intro j x hx
    rcases hx with hx | hx | hx
    · exact hv.came j x (.inl hx)
    · dsimp only at hx
      by_cases hj : j = i
      · subst hj
        rw [Function.update_self] at hx
        rcases List.mem_append.mp hx with hx | hx
        · exact hv.came j x (.inr (.inl hx))
        · obtain rfl := List.mem_singleton.mp hx
          exact ⟨htaken, hdst⟩
      · rw [Function.update_of_ne hj] at hx
        exact hv.came j x (.inr (.inl hx))
    · exact hv.came j x (.inr (.inr hx))
  · intro j
    exact (hv.out j).mono (fun _ hp => hat hp) fun _ _ _ hp => hp
  · intro x hx p hp
    exact hat (hv.left x hx p hp)
  · intro j
    dsimp only
    by_cases hj : j = i
    · subst hj
      rw [Function.update_self]
      have harr := hv.arrive j
      cases hheld : v.held j with
      | none =>
          rw [hheld, Option.toList_none, List.append_nil] at harr
          rw [Option.toList_none, List.append_nil]
          exact harr.snoc hbefore
      | some y =>
          rw [hheld, Option.toList_some] at harr
          rw [Option.toList_some]
          refine (harr.init.snoc hbefore).snoc ?_
          intro p hp
          exact (harr.last hp).imp_right (List.mem_append_left _)
    · rw [Function.update_of_ne hj]
      exact hv.arrive j

theorem ordered_hold (hv : Ordered src dst v) (htaken : m ∈ v.taken) (hdst : dst m = i)
    (hsrc : src m ≠ i) (hheld : v.held i = none) :
    Ordered src dst { v with held := Function.update v.held i (some m) } := by
  have hat : ∀ {j x}, v.At j x →
      ({ v with held := Function.update v.held i (some m) } : Post μ).At j x :=
    fun h => h.hold hheld m
  refine ⟨hv.pend, hv.handed, ?_, ?_, ?_, ?_, ?_, ?_, hv.own, hv.order⟩
  · intro x hx
    exact ⟨(hv.taken x hx).1, (hv.taken x hx).2.imp_left hat⟩
  · intro j x hx
    rcases hx with hx | hx | hx
    · exact hv.came j x (.inl hx)
    · exact hv.came j x (.inr (.inl hx))
    · dsimp only at hx
      by_cases hj : j = i
      · subst hj
        rw [Function.update_self] at hx
        rw [← Option.some.inj hx]
        exact ⟨htaken, hdst⟩
      · rw [Function.update_of_ne hj] at hx
        exact hv.came j x (.inr (.inr hx))
  · intro j x hx
    dsimp only at hx
    by_cases hj : j = i
    · subst hj
      rw [Function.update_self] at hx
      rw [← Option.some.inj hx]
      exact hsrc
    · rw [Function.update_of_ne hj] at hx
      exact hv.held j x hx
  · intro j
    exact (hv.out j).mono (fun _ hp => hat hp) fun _ _ _ hp => hp
  · intro x hx p hp
    exact hat (hv.left x hx p hp)
  · intro j
    dsimp only
    by_cases hj : j = i
    · subst hj
      rw [Function.update_self, Option.toList_some]
      have harr := hv.arrive j
      rw [hheld, Option.toList_none, List.append_nil] at harr
      apply harr.snoc
      intro p hp
      by_cases hdp : dst p = j
      · have hleft := hv.left m htaken p hp
        rw [hdp] at hleft
        rcases hleft with hleft | hleft | hleft
        · exact .inl fun _ => hleft
        · exact .inr hleft
        · rw [hheld] at hleft
          cases hleft
      · exact .inl fun h => absurd h hdp
    · rw [Function.update_of_ne hj]
      exact hv.arrive j

theorem ordered_land (hv : Ordered src dst v) (hheld : v.held i = some m) :
    Ordered src dst { v with
      inbox := Function.update v.inbox i (v.inbox i ++ [m])
      held := Function.update v.held i none } := by
  have hat : ∀ {j x}, ({ v with
      inbox := Function.update v.inbox i (v.inbox i ++ [m])
      held := Function.update v.held i none } : Post μ).At j x ↔ v.At j x :=
    at_land hheld
  refine ⟨hv.pend, hv.handed, ?_, ?_, ?_, ?_, ?_, ?_, hv.own, hv.order⟩
  · intro x hx
    exact ⟨(hv.taken x hx).1, (hv.taken x hx).2.imp_left hat.mpr⟩
  · intro j x hx
    exact hv.came j x (hat.mp hx)
  · intro j x hx
    dsimp only at hx
    by_cases hj : j = i
    · subst hj
      rw [Function.update_self] at hx
      cases hx
    · rw [Function.update_of_ne hj] at hx
      exact hv.held j x hx
  · intro j
    exact (hv.out j).mono (fun _ hp => hat.mpr hp) fun _ _ _ hp => hp
  · intro x hx p hp
    exact hat.mpr (hv.left x hx p hp)
  · intro j
    dsimp only
    by_cases hj : j = i
    · subst hj
      have harr := hv.arrive j
      rw [hheld] at harr
      rw [Function.update_self, Function.update_self, Option.toList_none, List.append_nil]
      exact harr
    · rw [Function.update_of_ne hj, Function.update_of_ne hj]
      exact hv.arrive j

theorem ordered_handle (hv : Ordered src dst v) (hinbox : v.inbox i = m :: rest) :
    Ordered src dst { v with
      log := v.log ++ [.handled i m]
      inbox := Function.update v.inbox i rest } := by
  have hlog : ∀ {a}, a ∈ v.log → a ∈ v.log ++ [.handled i m] := List.mem_append_left _
  have hhanded : ∀ {j x}, Act.handed j x ∈ v.log ++ [.handled i m] →
      Act.handed j x ∈ v.log := by
    intro j x hx
    rcases List.mem_append.mp hx with hx | hx
    · exact hx
    · cases List.mem_singleton.mp hx
  have hin : v.At i m := by
    refine .inr (.inl ?_)
    rw [hinbox]
    exact List.mem_cons_self
  have hat : ∀ {j x}, v.At j x → ({ v with
      log := v.log ++ [.handled i m]
      inbox := Function.update v.inbox i rest } : Post μ).At j x :=
    fun h => h.handle hinbox
  have hhead : ∀ p, Before v.log p m → dst p = i → .handled i p ∈ v.log := by
    have harr := hv.arrive i
    rw [hinbox, List.cons_append] at harr
    exact fun p hp => harr.head hp
  refine ⟨?_, ?_, ?_, ?_, hv.held, ?_, ?_, ?_, ?_, ?_⟩
  · intro j x hx
    exact ⟨(hv.pend j x hx).1, hlog (hv.pend j x hx).2⟩
  · intro j x hx
    exact hv.handed j x (hhanded hx)
  · intro x hx
    exact ⟨hlog (hv.taken x hx).1, (hv.taken x hx).2.imp_left hat⟩
  · intro j x hx
    rcases hx with hx | hx | hx
    · rcases List.mem_append.mp hx with hx | hx
      · exact hv.came j x (.inl hx)
      · obtain ⟨rfl, rfl⟩ := Act.handled.inj (List.mem_singleton.mp hx)
        exact hv.came j x hin
    · dsimp only at hx
      by_cases hj : j = i
      · subst hj
        rw [Function.update_self] at hx
        refine hv.came j x (.inr (.inl ?_))
        rw [hinbox]
        exact List.mem_cons_of_mem _ hx
      · rw [Function.update_of_ne hj] at hx
        exact hv.came j x (.inr (.inl hx))
    · exact hv.came j x (.inr (.inr hx))
  · intro j
    exact (hv.out j).mono (fun _ hp => hat hp) fun _ _ _ hp => hp.of_handled
  · intro x hx p hp
    exact hat (hv.left x hx p hp.of_handled)
  · intro j
    dsimp only
    have harr : Behind (fun p => dst p = j → .handled j p ∈ v.log ++ [.handled i m])
        (v.log ++ [.handled i m]) (v.inbox j ++ (v.held j).toList) :=
      (hv.arrive j).mono (fun _ hp hdst => hlog (hp hdst)) fun _ _ _ hp => hp.of_handled
    by_cases hj : j = i
    · subst hj
      rw [hinbox, List.cons_append] at harr
      rw [Function.update_self]
      exact harr.tail fun _ => List.mem_append_right _ (List.mem_singleton_self _)
    · rw [Function.update_of_ne hj]
      exact harr
  · intro j x hx p hp hdst
    exact (hv.own j x (hhanded hx) p hp.of_handled hdst).imp_left hlog
  · intro j x hx p hp hdst
    rcases List.mem_append.mp hx with hx | hx
    · exact (hv.order j x hx p hp.of_handled hdst).trans (List.sublist_append_left _ _)
    · obtain ⟨rfl, rfl⟩ := Act.handled.inj (List.mem_singleton.mp hx)
      have hp' := hhead p hp.of_handled hdst
      exact (List.singleton_sublist.mpr hp').append (List.Sublist.refl [Act.handled j x])

theorem Step.ordered (hstep : Step src dst v v') (hv : Ordered src dst v) :
    Ordered src dst v' := by
  cases hstep with
  | hand i m hsrc hfresh => exact ordered_hand hv hsrc hfresh
  | take i m rest hpend => exact ordered_take hv hpend
  | leave i m rest hpend htaken hat => exact ordered_leave hv hpend htaken hat
  | selfSend i m rest hpend htaken hdst =>
      have hm : m ∈ v.pend i := by
        rw [hpend]
        exact List.mem_cons_self
      have hsrc := (hv.pend i m hm).1
      refine ordered_leave (ordered_own hv htaken hdst hsrc) hpend htaken ?_
      refine .inr (.inl ?_)
      dsimp only
      rw [hdst, Function.update_self]
      exact List.mem_append_right _ (List.mem_singleton_self _)
  | hold i m htaken hdst hsrc hheld => exact ordered_hold hv htaken hdst hsrc hheld
  | land i m hheld => exact ordered_land hv hheld
  | handle i m rest hinbox => exact ordered_handle hv hinbox

theorem ordered_init : Ordered src dst (Post.init : Post μ) := by
  refine ⟨?_, ?_, ?_, ?_, ?_, ?_, ?_, ?_, ?_, ?_⟩
  · intro i m hm
    cases hm
  · intro i m hm
    cases hm
  · intro m hm
    cases hm
  · rintro i m (h | h | h)
    · cases h
    · cases h
    · cases h
  · intro i m h
    cases h
  · intro i
    exact behind_nil
  · intro m hm
    cases hm
  · intro i
    exact behind_nil
  · intro i m hm
    cases hm
  · intro i m hm
    cases hm

end Step

end Causal
