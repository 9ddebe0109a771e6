import Jiajia.Wtnt
import Jiajia.Lib.Keyed

/-!
# Write-notice chains in memory

`savewtnt` walks a chain of `wtnt_t` nodes twice, by index: once in search of the
page, once in search of room.  The walks stay inside the arrays and do what `save`
does to a list; over a sequence of calls the list is an ordered map from pages to
their notices.
-/

namespace Jiajia

/-! ## The walks of `savewtnt` -/

/-- `wtnt_t`; `more` is the rest of the list it stands in. -/
structure WtntArrays where
  wtnts : Nat → Addr
  fromPid : Nat → Nat
  scope : Nat → BitVec 32
  mig : Nat → BitVec 32
  wtntc : Nat

/-- The arguments of a call of `savewtnt`.  `mem` is the memory that `valloc` returns
should the call need a node. -/
structure SaveArgs where
  addr : Addr
  mig : BitVec 32
  fromPid : Nat
  scope : BitVec 32
  mem : WtntArrays

namespace SaveArgs

abbrev num (c : SaveArgs) : Nat := pageNum c.addr

def entry (c : SaveArgs) : WtntEntry := ⟨c.addr, c.fromPid, c.scope, c.mig⟩

end SaveArgs

namespace WtntArrays

/-- `newwtnt()` -/
def newwtnt (mem : WtntArrays) : WtntArrays := { mem with wtntc := 0 }

/-- The inner loop of step 1, with `n` entries left from `wtnti` on. -/
def seek (w : WtntArrays) (addr : Addr) : Nat → Nat → Result Nat
  | 0, wtnti => .ok wtnti
  | n + 1, wtnti => do
      defined (wtnti < Maxwtnts) "wtnts[wtnti]"
      if pageNum addr ≠ pageNum (w.wtnts wtnti) then w.seek addr n (wtnti + 1) else return wtnti

/-- Step 1: the node and the index of the page. -/
def seekChain (addr : Addr) : List WtntArrays → Result (Option (Nat × Nat))
  | [] => .ok none
  | w :: ws => do
      let wtnti ← w.seek addr w.wtntc 0
      if w.wtntc ≤ wtnti then do
        let found ← seekChain addr ws
        return found.map fun x => (x.1 + 1, x.2)
      else return some (0, wtnti)

/-- A new entry behind the last one. -/
def pushed (w : WtntArrays) (c : SaveArgs) : WtntArrays where
  wtnts := upd w.wtnts w.wtntc c.addr
  fromPid := upd w.fromPid w.wtntc c.fromPid
  scope := upd w.scope w.wtntc c.scope
  mig := upd w.mig w.wtntc c.mig
  wtntc := w.wtntc + 1

def put (w : WtntArrays) (c : SaveArgs) : Result WtntArrays := do
  defined (w.wtntc < Maxwtnts) "wtnts[wtntc]"
  return w.pushed c

/-- Step 2 without an entry: go on while nodes are full.  A node that `newwtnt` has just
made is not full, so the walk ends there. -/
def insert (c : SaveArgs) : List WtntArrays → Result (List WtntArrays)
  | [] => .error (.undefined "null wtnt_t")
  | [w] =>
      if Maxwtnts ≤ w.wtntc then do
        let w' ← (newwtnt c.mem).put c
        return [w, w']
      else do
        let w ← w.put c
        return [w]
  | w :: w' :: ws =>
      if Maxwtnts ≤ w.wtntc then do
        let rest ← insert c (w' :: ws)
        return w :: rest
      else do
        let w ← w.put c
        return w :: w' :: ws

/-- Step 2 with an entry, which has several writers now. -/
def rewritten (w : WtntArrays) (wtnti : Nat) (c : SaveArgs) : WtntArrays :=
  { w with
    fromPid := upd w.fromPid wtnti Maxhosts
    scope := upd w.scope wtnti c.scope
    mig := upd w.mig wtnti c.mig }

def again (w : WtntArrays) (wtnti : Nat) (c : SaveArgs) : Result WtntArrays := do
  defined (wtnti < Maxwtnts) "wtnts[wtnti]"
  return w.rewritten wtnti c

/-- `savewtnt(ptr, addr, mig, frompid, scope)` -/
def savewtnt (ws : List WtntArrays) (c : SaveArgs) : Result (List WtntArrays) := do
  let found ← seekChain c.addr ws
  match found with
  | none => insert c ws
  | some (k, wtnti) =>
      match ws[k]? with
      | none => .error (.undefined "null wtnt_t")
      | some w => do
          let w ← w.again wtnti c
          return ws.set k w

/-- A sequence of calls. -/
def saveAll : List WtntArrays → List SaveArgs → Result (List WtntArrays)
  | ws, [] => .ok ws
  | ws, c :: cs => do
      let ws ← savewtnt ws c
      saveAll ws cs

/-! ## The entries of a node -/

def entry (w : WtntArrays) (i : Nat) : WtntEntry := ⟨w.wtnts i, w.fromPid i, w.scope i, w.mig i⟩

def entries (w : WtntArrays) : List WtntEntry := (List.range w.wtntc).map w.entry

@[simp] theorem length_entries (w : WtntArrays) : w.entries.length = w.wtntc := by
  simp [entries]

@[simp] theorem getElem_entries (w : WtntArrays) {i : Nat} (h : i < w.entries.length) :
    w.entries[i] = w.entry i := by
  simp [entries]

theorem mem_entries {w : WtntArrays} {e : WtntEntry} :
    e ∈ w.entries ↔ ∃ i < w.wtntc, w.entry i = e := by
  simp [entries]

@[simp] theorem entries_newwtnt (mem : WtntArrays) : (newwtnt mem).entries = [] := rfl

theorem entries_pushed (w : WtntArrays) (c : SaveArgs) :
    (w.pushed c).entries = w.entries ++ [c.entry] := by
  change (List.range (w.wtntc + 1)).map (w.pushed c).entry = _
  rw [List.range_succ, List.map_append, List.map_singleton]
  congr 1
  · apply List.map_congr_left
    intro i hi
    have hne : i ≠ w.wtntc := (List.mem_range.mp hi).ne
    simp [entry, pushed, hne]
  · simp [entry, pushed, SaveArgs.entry]

theorem put_ok {w : WtntArrays} (c : SaveArgs) (h : w.wtntc < Maxwtnts) :
    w.put c = .ok (w.pushed c) := by
  simp only [put, defined, if_pos h]
  rfl

theorem entries_rewritten (w : WtntArrays) (wtnti : Nat) (c : SaveArgs) :
    (w.rewritten wtnti c).entries =
      w.entries.set wtnti ((w.entry wtnti).again c.mig c.scope) := by
  apply List.ext_getElem
  · simp [rewritten]
  · intro i hi hi'
    rw [getElem_entries, List.getElem_set]
    by_cases hiw : i = wtnti
    · subst hiw
      simp [entry, rewritten, WtntEntry.again]
    · rw [if_neg (Ne.symm hiw), getElem_entries]
      simp [entry, rewritten, hiw]

theorem again_ok {w : WtntArrays} {wtnti : Nat} (c : SaveArgs) (h : wtnti < Maxwtnts) :
    w.again wtnti c = .ok (w.rewritten wtnti c) := by
  simp only [again, defined, if_pos h]
  rfl

/-! ## The walks on the entries -/

/-- The inner loop stops at the first entry of the page. -/
theorem seek_ok {w : WtntArrays} (addr : Addr) (hle : w.wtntc ≤ Maxwtnts) {n i : Nat}
    (hn : i + n = w.wtntc) :
    ∃ j, w.seek addr n i = .ok j ∧ j ≤ w.wtntc ∧
      (∀ t, i ≤ t → t < j → (w.entry t).num ≠ pageNum addr) ∧
      (j < w.wtntc → (w.entry j).num = pageNum addr) := by
  induction n generalizing i with
  | zero =>
      refine ⟨i, rfl, hn.le, ?_, ?_⟩
      · intro t hit hti
        omega
      · intro hlt
        omega
  | succ n ih =>
      have hroom : i < Maxwtnts := by omega
      by_cases hnum : pageNum addr = (w.entry i).num
      · refine ⟨i, ?_, by omega, ?_, fun _ => hnum.symm⟩
        · simp only [seek, defined, if_pos hroom]
          exact if_neg fun hne => hne hnum
        · intro t hit hti
          omega
      · obtain ⟨j, hj, hjle, hskip, hfound⟩ := ih (i := i + 1) (by omega)
        refine ⟨j, ?_, hjle, ?_, hfound⟩
        · simp only [seek, defined, if_pos hroom]
          exact (if_pos hnum).trans hj
        · intro t hit hti
          rcases hit.eq_or_lt with rfl | hlt
          · exact Ne.symm hnum
          · exact hskip t hlt hti

end WtntArrays

theorem againFirst_split {addr : Addr} {mig scope : BitVec 32} {l r : List WtntEntry}
    {e : WtntEntry} (hl : ∀ x ∈ l, x.num ≠ pageNum addr) (he : e.num = pageNum addr) :
    againFirst addr mig scope (l ++ e :: r) = some (l ++ e.again mig scope :: r) := by
  induction l with
  | nil => simp [againFirst, he]
  | cons x l ih =>
      have hx := hl x List.mem_cons_self
      rw [List.cons_append, againFirst, if_neg (Ne.symm hx),
        ih fun y hy => hl y (List.mem_cons_of_mem _ hy)]
      rfl

/-- The entries of a chain, node by node. -/
def rows (ns : List WtntNode) : List (List WtntEntry) := ns.map WtntNode.entries

section Rows

variable {addr : Addr} {mig scope : BitVec 32} {n : WtntNode} {ns : List WtntNode}

variable (ns) in
theorem againNodes_cons_found {es : List WtntEntry}
    (h : againFirst addr mig scope n.entries = some es) :
    ∃ ns', againNodes addr mig scope (n :: ns) = some ns' ∧ rows ns' = es :: rows ns := by
  rw [againNodes]
  split
  · rename_i es' hes'
    obtain rfl : es = es' := Option.some.inj (h.symm.trans hes')
    exact ⟨_, rfl, rfl⟩
  · rename_i hnone
    rw [h] at hnone
    cases hnone

variable (ns) in
theorem againNodes_cons_skip (h : againFirst addr mig scope n.entries = none) :
    againNodes addr mig scope (n :: ns) = (againNodes addr mig scope ns).map (n :: ·) := by
  rw [againNodes]
  split
  · rename_i es hes
    rw [h] at hes
    cases hes
  · rfl

theorem insertNodes_cons_room {e : WtntEntry} (h : n.entries.length < Maxwtnts) :
    rows (insertNodes e (n :: ns)) = (n.entries ++ [e]) :: rows ns := by
  rw [insertNodes, dif_pos h]
  rfl

theorem insertNodes_cons_full {e : WtntEntry} (h : ¬ n.entries.length < Maxwtnts) :
    rows (insertNodes e (n :: ns)) = n.entries :: rows (insertNodes e ns) := by
  rw [insertNodes, dif_neg h]
  rfl

end Rows

namespace WtntArrays

/-- The inner loop finds what `againFirst` finds. -/
theorem seek_againFirst {w : WtntArrays} (c : SaveArgs) (hle : w.wtntc ≤ Maxwtnts) :
    ∃ j, w.seek c.addr w.wtntc 0 = .ok j ∧ j ≤ w.wtntc ∧
      againFirst c.addr c.mig c.scope w.entries =
        if j < w.wtntc then some (w.rewritten j c).entries else none := by
  obtain ⟨j, hj, hjle, hskip, hfound⟩ := seek_ok c.addr hle (Nat.zero_add w.wtntc)
  refine ⟨j, hj, hjle, ?_⟩
  by_cases hlt : j < w.wtntc
  · have hlen : j < w.entries.length := by rwa [length_entries]
    have hbefore : ∀ x ∈ w.entries.take j, x.num ≠ pageNum c.addr := by
      intro x hx
      obtain ⟨i, hi, rfl⟩ := List.mem_take_iff_getElem.mp hx
      rw [getElem_entries]
      exact hskip i (Nat.zero_le i) (by omega)
    have hsplit : w.entries = w.entries.take j ++ w.entry j :: w.entries.drop (j + 1) := by
      conv_lhs => rw [← List.take_append_drop j w.entries, List.drop_eq_getElem_cons hlen,
        getElem_entries]
    rw [if_pos hlt, entries_rewritten, List.set_eq_take_append_cons_drop, if_pos hlen]
    conv_lhs => rw [hsplit]
    exact againFirst_split hbefore (hfound hlt)
  · rw [if_neg hlt, againFirst_eq_none]
    intro e he
    obtain ⟨i, hi, rfl⟩ := mem_entries.mp he
    exact hskip i (Nat.zero_le i) (by omega)

/-- Nodes in memory that hold a list. -/
def Represents (ws : List WtntArrays) (ns : List WtntNode) : Prop := ws.map entries = rows ns

theorem Represents.cons_inv {w : WtntArrays} {ws : List WtntArrays} {n : WtntNode}
    {ns : List WtntNode} (h : Represents (w :: ws) (n :: ns)) :
    w.entries = n.entries ∧ Represents ws ns := List.cons.inj h

theorem wtntc_eq {w : WtntArrays} {n : WtntNode} (h : w.entries = n.entries) :
    w.wtntc = n.entries.length := by
  rw [← length_entries, h]

/-- Step 1 in memory and on the list. -/
theorem seekChain_ok {ws : List WtntArrays} {ns : List WtntNode} (c : SaveArgs)
    (h : Represents ws ns) :
    (seekChain c.addr ws = .ok none ∧ againNodes c.addr c.mig c.scope ns = none) ∨
    (∃ k j w ns', seekChain c.addr ws = .ok (some (k, j)) ∧ ws[k]? = some w ∧ j < Maxwtnts ∧
      againNodes c.addr c.mig c.scope ns = some ns' ∧
      Represents (ws.set k (w.rewritten j c)) ns') := by
  induction ws generalizing ns with
  | nil =>
      cases ns with
      | nil => exact Or.inl ⟨rfl, rfl⟩
      | cons n ns => cases h
  | cons w ws ih =>
      cases ns with
      | nil => cases h
      | cons n ns =>
          obtain ⟨hw, hws⟩ := h.cons_inv
          have hle : w.wtntc ≤ Maxwtnts := wtntc_eq hw ▸ n.wtntc_le
          obtain ⟨j, hj, hjle, hfirst⟩ := seek_againFirst c hle
          rw [hw] at hfirst
          by_cases hlt : j < w.wtntc
          · rw [if_pos hlt] at hfirst
            obtain ⟨ns', hns', hrows⟩ := againNodes_cons_found ns hfirst
            refine Or.inr ⟨0, j, w, ns', ?_, rfl, by omega, hns', ?_⟩
            · simp only [seekChain, hj, bind, Except.bind]
              exact if_neg (by omega)
            · rw [Represents, hrows, ← show ws.map entries = rows ns from hws]
              rfl
          · rw [if_neg hlt] at hfirst
            have hskip := againNodes_cons_skip ns hfirst
            have hgo : seekChain c.addr (w :: ws) = (do
                let found ← seekChain c.addr ws
                return found.map fun x => (x.1 + 1, x.2)) := by
              simp only [seekChain, hj, bind, Except.bind]
              exact if_pos (by omega)
            rcases ih hws with ⟨hnone, hagain⟩ | ⟨k, j', v, ns', hsome, hk, hj', hagain, hrep⟩
            · left
              rw [hgo, hnone, hskip, hagain]
              exact ⟨rfl, rfl⟩
            · right
              refine ⟨k + 1, j', v, n :: ns', ?_, hk, hj', ?_, ?_⟩
              · rw [hgo, hsome]
                rfl
              · rw [hskip, hagain]
                rfl
              · rw [Represents, List.set_cons_succ, List.map_cons, hw,
                  show (ws.set k (v.rewritten j' c)).map entries = rows ns' from hrep]
                rfl

/-- Step 2 without an entry in memory and on the list. -/
theorem insert_ok {ws : List WtntArrays} {ns : List WtntNode} (c : SaveArgs)
    (h : Represents ws ns) (hne : ws ≠ []) :
    ∃ ws', insert c ws = .ok ws' ∧ Represents ws' (insertNodes c.entry ns) := by
  induction ws generalizing ns with
  | nil => exact absurd rfl hne
  | cons w ws ih =>
      cases ns with
      | nil => cases h
      | cons n ns =>
          obtain ⟨hw, hws⟩ := h.cons_inv
          have hlen := wtntc_eq hw
          by_cases hfull : Maxwtnts ≤ w.wtntc
          · cases ws with
            | nil =>
                cases ns with
                | nil =>
                    refine ⟨[w, (newwtnt c.mem).pushed c], ?_, ?_⟩
                    · have hroom : (newwtnt c.mem).wtntc < Maxwtnts := Nat.zero_lt_succ _
                      simp only [insert, if_pos hfull, put_ok c hroom]
                      rfl
                    · rw [Represents, insertNodes_cons_full (by omega), List.map_cons, hw,
                        List.map_singleton, entries_pushed]
                      rfl
                | cons n' ns => cases hws
            | cons w' ws =>
                obtain ⟨ws', hws', hrep⟩ := ih hws (by simp)
                refine ⟨w :: ws', ?_, ?_⟩
                · simp only [insert, if_pos hfull, hws']
                  rfl
                · rw [Represents, insertNodes_cons_full (by omega), List.map_cons, hw,
                    show ws'.map entries = rows (insertNodes c.entry ns) from hrep]
          · refine ⟨w.pushed c :: ws, ?_, ?_⟩
            · cases ws with
              | nil =>
                  simp only [insert, if_neg hfull, put_ok c (Nat.lt_of_not_le hfull)]
                  rfl
              | cons w' ws =>
                  simp only [insert, if_neg hfull, put_ok c (Nat.lt_of_not_le hfull)]
                  rfl
            · rw [Represents, insertNodes_cons_room (by omega), List.map_cons, entries_pushed, hw,
                show ws.map entries = rows ns from hws]

end WtntArrays

/-- `save` with the arguments of a call. -/
def WtntList.saveCall (l : WtntList) (c : SaveArgs) : WtntList :=
  l.save c.addr c.mig c.fromPid c.scope

namespace WtntArrays

/-- `savewtnt` in memory does what `save` does to the list. -/
theorem savewtnt_ok {ws : List WtntArrays} {l : WtntList} (c : SaveArgs)
    (h : Represents ws l.nodes) :
    ∃ ws', savewtnt ws c = .ok ws' ∧ Represents ws' (l.saveCall c).nodes := by
  have hne : ws ≠ [] := by
    rintro rfl
    exact l.nodes_ne (List.map_eq_nil_iff.mp h.symm)
  change ∃ ws', savewtnt ws c = .ok ws' ∧
    Represents ws' (saveNodes c.addr c.mig c.fromPid c.scope l.nodes)
  rw [saveNodes]
  rcases seekChain_ok c h with ⟨hnone, hagain⟩ | ⟨k, j, w, ns', hsome, hk, hj, hagain, hrep⟩
  · obtain ⟨ws', hws', hrep⟩ := insert_ok c h hne
    refine ⟨ws', ?_, ?_⟩
    · rw [savewtnt, hnone]
      exact hws'
    · rw [hagain]
      exact hrep
  · refine ⟨ws.set k (w.rewritten j c), ?_, ?_⟩
    · simp only [savewtnt, hsome, bind, Except.bind, hk, again_ok c hj]
      rfl
    · rw [hagain]
      exact hrep

theorem saveAll_ok {ws : List WtntArrays} {l : WtntList} (calls : List SaveArgs)
    (h : Represents ws l.nodes) :
    ∃ ws', saveAll ws calls = .ok ws' ∧
      Represents ws' (calls.foldl WtntList.saveCall l).nodes := by
  induction calls generalizing ws l with
  | nil => exact ⟨ws, rfl, h⟩
  | cons c calls ih =>
      obtain ⟨ws₁, hws₁, hrep₁⟩ := savewtnt_ok c h
      obtain ⟨ws₂, hws₂, hrep₂⟩ := ih hrep₁
      refine ⟨ws₂, ?_, hrep₂⟩
      rw [saveAll, hws₁]
      exact hws₂

end WtntArrays

/-! ## The order of the entries -/

/-- The counters of a chain: every node before one that is in use is full. -/
def Packed : List Nat → Prop
  | [] => True
  | n :: ns => (n = Maxwtnts ∨ ∀ m ∈ ns, m = 0) ∧ Packed ns

theorem Packed.before {ns pre post : List Nat} {n : Nat} (h : Packed ns)
    (hns : ns = pre ++ n :: post) (hn : n ≠ 0) : ∀ m ∈ pre, m = Maxwtnts := by
  induction pre generalizing ns with
  | nil => simp
  | cons m pre ih =>
      subst hns
      obtain ⟨hfull | hempty, hrest⟩ := h
      · intro k hk
        rcases List.mem_cons.mp hk with rfl | hk
        · exact hfull
        · exact ih hrest rfl k hk
      · exact absurd (hempty n (by simp)) hn

/-- The counters of the nodes. -/
def counts (ns : List WtntNode) : List Nat := (rows ns).map List.length

theorem counts_againNodes {addr : Addr} {mig scope : BitVec 32} {ns ns' : List WtntNode}
    (h : againNodes addr mig scope ns = some ns') : counts ns' = counts ns := by
  induction ns generalizing ns' with
  | nil => cases h
  | cons n ns ih =>
      cases hfirst : againFirst addr mig scope n.entries with
      | none =>
          rw [againNodes_cons_skip ns hfirst, Option.map_eq_some_iff] at h
          obtain ⟨ns₁, hns₁, rfl⟩ := h
          have hlen := ih hns₁
          unfold counts at hlen ⊢
          simp only [rows, List.map_cons] at hlen ⊢
          rw [hlen]
      | some es =>
          obtain ⟨ns₁, hns₁, hrows⟩ := againNodes_cons_found ns hfirst
          obtain rfl : ns' = ns₁ := Option.some.inj (h.symm.trans hns₁)
          rw [counts, hrows, List.map_cons, length_againFirst _ _ _ hfirst]
          rfl

/-- A new entry goes behind all others. -/
theorem insertNodes_packed {ns : List WtntNode} (e : WtntEntry) (h : Packed (counts ns)) :
    Packed (counts (insertNodes e ns)) ∧
      chainEntries (insertNodes e ns) = chainEntries ns ++ [e] := by
  induction ns with
  | nil => exact ⟨⟨Or.inr (by simp), trivial⟩, rfl⟩
  | cons n ns ih =>
      obtain ⟨hfirst, hrest⟩ := h
      by_cases hroom : n.entries.length < Maxwtnts
      · have hempty : ∀ m ∈ counts ns, m = 0 := hfirst.resolve_left hroom.ne
        have hnone : chainEntries ns = [] := by
          rw [chainEntries, List.flatMap_eq_nil_iff]
          intro m hm
          apply List.eq_nil_of_length_eq_zero
          apply hempty
          exact List.mem_map_of_mem (List.mem_map_of_mem hm)
        constructor
        · rw [counts, insertNodes_cons_room hroom]
          exact ⟨Or.inr hempty, hrest⟩
        · rw [insertNodes, dif_pos hroom, chainEntries_cons, chainEntries_cons, hnone,
            List.append_nil, List.append_nil]
      · obtain ⟨hpacked, hentries⟩ := ih hrest
        have hfull : n.entries.length = Maxwtnts := by
          have hle := n.wtntc_le
          omega
        constructor
        · rw [counts, insertNodes_cons_full hroom]
          exact ⟨Or.inl hfull, hpacked⟩
        · rw [insertNodes, dif_neg hroom, chainEntries_cons, hentries, chainEntries_cons,
            List.append_assoc]

/-- Saves as records by page. -/
def saveLedger : Keyed.Ledger SaveArgs WtntEntry Nat where
  key := SaveArgs.num
  keyOf := WtntEntry.num
  first := SaveArgs.entry
  again e c := e.again c.mig c.scope
  keyOf_first _ := rfl
  keyOf_again _ _ := rfl

namespace WtntList

theorem packed_saveCall {l : WtntList} (c : SaveArgs) (h : Packed (counts l.nodes)) :
    Packed (counts (l.saveCall c).nodes) := by
  change Packed (counts (saveNodes c.addr c.mig c.fromPid c.scope l.nodes))
  unfold saveNodes
  split
  · rename_i ns hns
    rwa [counts_againNodes hns]
  · exact (insertNodes_packed c.entry h).1

/-- A save on a packed list is a record in the ledger. -/
theorem entries_saveCall {l : WtntList} (c : SaveArgs) (h : Packed (counts l.nodes)) :
    (l.saveCall c).entries = saveLedger.record l.entries c := by
  change chainEntries (saveNodes c.addr c.mig c.fromPid c.scope l.nodes) = _
  have hmem : saveLedger.key c ∈ l.entries.map saveLedger.keyOf ↔
      ∃ e ∈ l.entries, e.num = pageNum c.addr := List.mem_map
  unfold saveNodes
  split
  · rename_i ns hns
    obtain ⟨before, e, behind, hl, hns', hnum⟩ := againNodes_eq_some hns
    have hentries : l.entries = before ++ e :: behind := hl
    have hnodup := l.nodup
    rw [hl, List.map_append, List.map_cons, List.nodup_middle, List.nodup_cons,
      List.mem_append, not_or, List.mem_map, List.mem_map] at hnodup
    obtain ⟨⟨hbefore, hbehind⟩, -⟩ := hnodup
    have hself : ∀ es : List WtntEntry, (∀ x ∈ es, x.num ≠ e.num) →
        (es.map fun b => if saveLedger.keyOf b = saveLedger.key c then saveLedger.again b c
          else b) = es := by
      intro es hes
      refine (List.map_congr_left (g := id) fun x hx => ?_).trans (List.map_id es)
      exact if_neg fun hx' => hes x hx (hx'.trans hnum.symm)
    rw [Keyed.Ledger.record, if_pos (hmem.mpr ⟨e, by simp [hentries], hnum⟩), hentries, hns',
      List.map_append, List.map_cons, hself before fun x hx hx' => hbefore ⟨x, hx, hx'⟩,
      hself behind fun x hx hx' => hbehind ⟨x, hx, hx'⟩]
    congr 2
    exact (if_pos hnum).symm
  · rename_i hnone
    rw [againNodes_eq_none] at hnone
    rw [Keyed.Ledger.record, if_neg]
    · exact (insertNodes_packed c.entry h).2
    · rw [hmem]
      rintro ⟨e, he, hnum⟩
      exact hnone e he hnum

/-- The list after a sequence of saves. -/
theorem foldl_saveCall (calls : List SaveArgs) :
    Packed (counts (calls.foldl saveCall empty).nodes) ∧
      (calls.foldl saveCall empty).entries = saveLedger.summary calls := by
  rw [← Keyed.Ledger.foldl_record]
  induction calls using List.reverseRecOn with
  | nil => exact ⟨⟨Or.inr (by simp), trivial⟩, rfl⟩
  | append_singleton calls c ih =>
      obtain ⟨hpacked, hentries⟩ := ih
      simp only [List.foldl_append, List.foldl_cons, List.foldl_nil]
      rw [← hentries]
      exact ⟨packed_saveCall c hpacked, entries_saveCall c hpacked⟩

end WtntList

/-- The notice of a page after all its saves. -/
theorem foldl_again (c : SaveArgs) (cs : List SaveArgs) :
    cs.foldl saveLedger.again c.entry =
      ⟨c.addr, if cs = [] then c.fromPid else Maxhosts,
        ((c :: cs).getLast (List.cons_ne_nil c cs)).scope,
        ((c :: cs).getLast (List.cons_ne_nil c cs)).mig⟩ := by
  induction cs using List.reverseRecOn with
  | nil => rfl
  | append_singleton cs d ih =>
      rw [List.foldl_append, ih, List.foldl_cons, List.foldl_nil]
      simp [saveLedger, WtntEntry.again]

/-- A list of write notices is an ordered map, however long it grows.  From the empty
list the calls stay inside the nodes they walk; all nodes before one in use are full;
every page saved has one notice, in the order of the first saves; and the notice has scope
and mig of the last save of the page, and names the saver if there was only one. -/
theorem savewtnt_ordered_map (calls : List SaveArgs) (mem : WtntArrays) :
    ∃ ws, WtntArrays.saveAll [WtntArrays.newwtnt mem] calls = .ok ws ∧
      (∀ w ∈ ws, w.wtntc ≤ Maxwtnts) ∧
      (∀ pre w post, ws = pre ++ w :: post → w.wtntc ≠ 0 → ∀ v ∈ pre, v.wtntc = Maxwtnts) ∧
      (ws.flatMap WtntArrays.entries).map WtntEntry.num = (calls.map SaveArgs.num).eraseDups ∧
      ∀ e ∈ ws.flatMap WtntArrays.entries, ∃ c cs,
        calls.filter (fun c => c.num = e.num) = c :: cs ∧ e.addr = c.addr ∧
        e.fromPid = (if cs = [] then c.fromPid else Maxhosts) ∧
        e.scope = ((c :: cs).getLast (List.cons_ne_nil c cs)).scope ∧
        e.mig = ((c :: cs).getLast (List.cons_ne_nil c cs)).mig := by
  obtain ⟨ws, hws, hrep⟩ :=
    @WtntArrays.saveAll_ok [WtntArrays.newwtnt mem] WtntList.empty calls rfl
  obtain ⟨hpacked, hentries⟩ := WtntList.foldl_saveCall calls
  have hcounts : ws.map WtntArrays.wtntc = counts (calls.foldl WtntList.saveCall .empty).nodes := by
    rw [counts, ← show ws.map WtntArrays.entries = _ from hrep, List.map_map]
    apply List.map_congr_left
    intro w hw
    exact (WtntArrays.length_entries w).symm
  have hall : ws.flatMap WtntArrays.entries = saveLedger.summary calls := by
    rw [← hentries, List.flatMap_def, show ws.map WtntArrays.entries = _ from hrep]
    rfl
  refine ⟨ws, hws, ?_, ?_, ?_, ?_⟩
  · intro w hw
    have hmem : w.wtntc ∈ counts (calls.foldl WtntList.saveCall .empty).nodes :=
      hcounts ▸ List.mem_map_of_mem hw
    simp only [counts, rows, List.map_map, List.mem_map] at hmem
    obtain ⟨n, -, hn⟩ := hmem
    exact hn ▸ n.wtntc_le
  · intro pre w post hsplit hw v hv
    have hmap : ws.map WtntArrays.wtntc =
        pre.map WtntArrays.wtntc ++ w.wtntc :: post.map WtntArrays.wtntc := by
      rw [hsplit, List.map_append, List.map_cons]
    rw [← hcounts] at hpacked
    exact hpacked.before hmap hw v.wtntc (List.mem_map_of_mem hv)
  · rw [hall]
    exact Keyed.Ledger.map_keyOf_summary (L := saveLedger) calls
  · intro e he
    rw [hall, Keyed.Ledger.summary, List.mem_filterMap] at he
    obtain ⟨k, hk, he⟩ := he
    have hkey : e.num = k := Keyed.Ledger.keyOf_total he
    subst hkey
    obtain ⟨c, cs, hcs⟩ := List.exists_cons_of_ne_nil (Keyed.Ledger.callsOf_ne_nil hk)
    rw [hcs, Keyed.Ledger.total, Option.some.injEq] at he
    change cs.foldl saveLedger.again c.entry = e at he
    rw [foldl_again] at he
    refine ⟨c, cs, hcs, ?_⟩
    rw [← he]
    exact ⟨rfl, rfl, rfl, rfl⟩

end Jiajia
