import Mathlib.Data.List.Nodup
import Mathlib.Data.List.Induction

/-!
# Records by key

A list that keeps one record for each key.  The first call with a key appends a
record, a later one changes the record in place; the list is then the calls
grouped by key, in the order of their first calls.  The last section is about a
state in which every key has a place of its own.
-/

namespace Keyed

universe u v w

variable {α : Type u} {β : Type v} {κ : Type w}

/-- How calls make and change records. -/
structure Ledger (α : Type u) (β : Type v) (κ : Type w) where
  key : α → κ
  keyOf : β → κ
  first : α → β
  again : β → α → β
  keyOf_first : ∀ c, keyOf (first c) = key c
  keyOf_again : ∀ b c, keyOf (again b c) = keyOf b

namespace Ledger

variable (L : Ledger α β κ)

/-- The record of a key after all its calls. -/
def total : List α → Option β
  | [] => none
  | c :: cs => some (cs.foldl L.again (L.first c))

variable {L} in
theorem total_snoc {calls : List α} (hne : calls ≠ []) (c : α) :
    L.total (calls ++ [c]) = (L.total calls).map fun b => L.again b c := by
  cases calls with
  | nil => exact absurd rfl hne
  | cons c₀ cs => simp [total, List.foldl_append]

variable {L} in
theorem keyOf_foldl (b : β) (cs : List α) : L.keyOf (cs.foldl L.again b) = L.keyOf b := by
  induction cs generalizing b with
  | nil => rfl
  | cons c cs ih => rw [List.foldl_cons, ih, L.keyOf_again]

variable [DecidableEq κ]

/-- One call. -/
def record (bs : List β) (c : α) : List β :=
  if L.key c ∈ bs.map L.keyOf then
    bs.map fun b => if L.keyOf b = L.key c then L.again b c else b
  else bs ++ [L.first c]

/-- The keys of a list of calls, in the order of their first calls. -/
def keys (calls : List α) : List κ := (calls.map L.key).eraseDups

/-- The calls with one key. -/
def callsOf (calls : List α) (k : κ) : List α := calls.filter fun c => L.key c = k

/-- The calls grouped by key. -/
def summary (calls : List α) : List β :=
  (L.keys calls).filterMap fun k => L.total (L.callsOf calls k)

variable {L}

theorem keys_snoc (calls : List α) (c : α) :
    L.keys (calls ++ [c]) = if L.key c ∈ calls.map L.key then L.keys calls
      else L.keys calls ++ [L.key c] := by
  rw [keys, List.map_append, List.eraseDups_append, List.map_singleton]
  by_cases h : L.key c ∈ calls.map L.key
  · have hgone : [L.key c].removeAll (calls.map L.key) = [] := by
      simpa [List.removeAll] using h
    rw [if_pos h, hgone, List.eraseDups_nil, List.append_nil, keys]
  · have hstays : [L.key c].removeAll (calls.map L.key) = [L.key c] := by
      simpa [List.removeAll] using h
    rw [if_neg h, hstays, keys, List.eraseDups_cons]
    rfl

@[simp] theorem mem_keys {calls : List α} {k : κ} :
    k ∈ L.keys calls ↔ ∃ c ∈ calls, L.key c = k := by
  rw [keys, List.mem_eraseDups, List.mem_map]

theorem callsOf_snoc_same (calls : List α) (c : α) :
    L.callsOf (calls ++ [c]) (L.key c) = L.callsOf calls (L.key c) ++ [c] := by
  simp [callsOf]

theorem callsOf_snoc_ne (calls : List α) {c : α} {k : κ} (h : L.key c ≠ k) :
    L.callsOf (calls ++ [c]) k = L.callsOf calls k := by
  simp [callsOf, h]

theorem callsOf_ne_nil {calls : List α} {k : κ} (hk : k ∈ L.keys calls) :
    L.callsOf calls k ≠ [] := by
  obtain ⟨c, hc, hkey⟩ := mem_keys.mp hk
  apply List.ne_nil_of_mem (a := c)
  simpa [callsOf, hkey] using hc

/-- The record of a key has that key. -/
theorem keyOf_total {calls : List α} {k : κ} {b : β}
    (h : L.total (L.callsOf calls k) = some b) : L.keyOf b = k := by
  cases hcs : L.callsOf calls k with
  | nil =>
      rw [hcs, total] at h
      cases h
  | cons c cs =>
      have hc : c ∈ L.callsOf calls k := by
        rw [hcs]
        exact List.mem_cons_self
      rw [hcs, total, Option.some.injEq] at h
      rw [← h, keyOf_foldl, L.keyOf_first]
      simpa [callsOf] using (List.mem_filter.mp hc).2

theorem exists_total {calls : List α} {k : κ} (hk : k ∈ L.keys calls) :
    ∃ b, L.total (L.callsOf calls k) = some b := by
  obtain ⟨c, cs, hcs⟩ := List.exists_cons_of_ne_nil (callsOf_ne_nil hk)
  exact ⟨_, by rw [hcs, total]⟩

/-- A record for each key, in order. -/
theorem map_keyOf_summary (calls : List α) :
    (L.summary calls).map L.keyOf = L.keys calls := by
  rw [summary, List.map_filterMap]
  have hself : ∀ k ∈ L.keys calls,
      (L.total (L.callsOf calls k)).map L.keyOf = some k := by
    intro k hk
    obtain ⟨b, hb⟩ := exists_total hk
    rw [hb, Option.map_some, keyOf_total hb]
  rw [List.filterMap_congr hself, List.filterMap_some]

theorem record_summary (calls : List α) (c : α) :
    L.record (L.summary calls) c = L.summary (calls ++ [c]) := by
  have hmem : L.key c ∈ (L.summary calls).map L.keyOf ↔ L.key c ∈ calls.map L.key := by
    rw [map_keyOf_summary, mem_keys, List.mem_map]
  by_cases h : L.key c ∈ calls.map L.key
  · rw [record, if_pos (hmem.mpr h), summary, summary, keys_snoc, if_pos h, List.map_filterMap]
    apply List.filterMap_congr
    intro k hk
    obtain ⟨b, hb⟩ := exists_total hk
    have hkey := keyOf_total hb
    by_cases hck : L.key c = k
    · subst hck
      rw [callsOf_snoc_same, total_snoc (callsOf_ne_nil hk), hb, Option.map_some, Option.map_some,
        if_pos hkey]
    · rw [callsOf_snoc_ne _ hck, hb, Option.map_some, if_neg (hkey ▸ Ne.symm hck)]
  · rw [record, if_neg (mt hmem.mp h), summary, summary, keys_snoc, if_neg h,
      List.filterMap_append]
    congr 1
    · apply List.filterMap_congr
      intro k hk
      have hck : L.key c ≠ k := by
        rintro rfl
        obtain ⟨c', hc', hkey⟩ := mem_keys.mp hk
        exact h (hkey ▸ List.mem_map_of_mem hc')
      rw [callsOf_snoc_ne _ hck]
    · have hnone : L.callsOf calls (L.key c) = [] := by
        rw [callsOf, List.filter_eq_nil_iff]
        intro c' hc' hkey
        exact h (of_decide_eq_true hkey ▸ List.mem_map_of_mem hc')
      have hone : L.total (L.callsOf (calls ++ [c]) (L.key c)) = some (L.first c) := by
        rw [callsOf_snoc_same, hnone]
        rfl
      simp [hone]

/-- All calls, one after the other. -/
theorem foldl_record (calls : List α) : calls.foldl L.record [] = L.summary calls := by
  induction calls using List.reverseRecOn with
  | nil => rfl
  | append_singleton calls c ih => rw [List.foldl_append, ih, List.foldl_cons, List.foldl_nil,
      record_summary]

end Ledger

/-! ## The last value of a key -/

section LastValue

variable {σ : Type*} [DecidableEq κ] {key : α → κ} {k : κ} {read : α → Option β}

/-- The last value that the calls with a key give. -/
def lastValue (key : α → κ) (k : κ) (read : α → Option β) (calls : List α) : Option β :=
  (calls.filterMap fun c => if key c = k then read c else none).getLast?

@[simp] theorem lastValue_nil : lastValue key k read [] = none := rfl

theorem lastValue_snoc (calls : List α) (c : α) :
    lastValue key k read (calls ++ [c]) =
      (if key c = k then read c else none).or (lastValue key k read calls) := by
  rw [lastValue, List.filterMap_append, List.filterMap_cons, List.filterMap_nil]
  cases (if key c = k then read c else none) with
  | none => simp [lastValue]
  | some b => simp

/-- A place that only the calls with one key write holds the last value they gave. -/
theorem foldl_lastValue {step : σ → α → σ} (view : σ → β)
    (h : ∀ s c, view (step s c) = (if key c = k then read c else none).getD (view s))
    (s : σ) (calls : List α) :
    view (calls.foldl step s) = (lastValue key k read calls).getD (view s) := by
  induction calls using List.reverseRecOn with
  | nil => rfl
  | append_singleton calls c ih =>
      rw [List.foldl_append, List.foldl_cons, List.foldl_nil, h, ih, lastValue_snoc]
      cases (if key c = k then read c else none) <;> rfl

/-- The last call with a key, if there is one. -/
theorem last_split (key : α → κ) (k : κ) (calls : List α) :
    (∀ c ∈ calls, key c ≠ k) ∨
    ∃ before c behind, calls = before ++ c :: behind ∧ key c = k ∧ ∀ d ∈ behind, key d ≠ k := by
  induction calls with
  | nil => exact Or.inl fun c hc => by cases hc
  | cons c calls ih =>
      rcases ih with hnone | ⟨before, d, behind, rfl, hd, hbehind⟩
      · by_cases hc : key c = k
        · exact Or.inr ⟨[], c, calls, rfl, hc, hnone⟩
        · left
          intro d hd
          rcases List.mem_cons.mp hd with rfl | hd
          · exact hc
          · exact hnone d hd
      · exact Or.inr ⟨c :: before, d, behind, rfl, hd, hbehind⟩

theorem lastValue_none {calls : List α} (h : ∀ c ∈ calls, key c ≠ k) :
    lastValue key k read calls = none := by
  rw [lastValue, List.getLast?_eq_none_iff, List.filterMap_eq_nil_iff]
  intro c hc
  rw [if_neg (h c hc)]

theorem lastValue_split {before behind : List α} {c : α} (hc : key c = k)
    (h : ∀ d ∈ behind, key d ≠ k) {b : β} (hb : read c = some b) :
    lastValue key k read (before ++ c :: behind) = some b := by
  have hbehind : behind.filterMap (fun c => if key c = k then read c else none) = [] := by
    rw [List.filterMap_eq_nil_iff]
    intro d hd
    rw [if_neg (h d hd)]
  rw [lastValue, List.filterMap_append, List.filterMap_cons, if_pos hc, hb, hbehind]
  simp

/-- Only the calls with the key matter. -/
theorem lastValue_filter (calls : List α) :
    lastValue key k read calls = ((calls.filter fun c => key c = k).filterMap read).getLast? := by
  rw [lastValue, List.filterMap_filter]
  congr 2
  funext c
  by_cases hc : key c = k
  · simp [hc]
  · simp [hc]

/-- The calls in another order, with the order of those with one key kept. -/
def Reordered (key : α → κ) (calls calls' : List α) : Prop :=
  calls.Perm calls' ∧
    ∀ k, (calls.filter fun c => key c = k) = calls'.filter fun c => key c = k

theorem Reordered.lastValue {calls calls' : List α} (h : Reordered key calls calls') :
    lastValue key k read calls = Keyed.lastValue key k read calls' := by
  rw [lastValue_filter, lastValue_filter, h.2 k]

end LastValue

end Keyed
