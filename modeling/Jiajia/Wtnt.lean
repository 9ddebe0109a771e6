import Jiajia.Global

/-!
# Write notices

A list of write notices is a chain of `wtnt_t` nodes, each with room for
`Maxwtnts` entries.  `saveWtnt` keeps one entry per page, so a list carries
that fact as a field.  The second half models how `syn.c` cuts a chain into
messages.
-/

namespace Jiajia

/-- One column of the arrays `wtnts`, `from`, `scope` and `mig` of `wtnt_t`. -/
structure WtntEntry where
  addr : Addr
  fromPid : Nat
  scope : BitVec 32
  mig : BitVec 32
deriving DecidableEq, Repr

namespace WtntEntry

abbrev num (e : WtntEntry) : Nat := pageNum e.addr

end WtntEntry

/-- A node `wtnt_t`; `wtntc` is the length of `entries`. -/
structure WtntNode where
  entries : List WtntEntry
  wtntc_le : entries.length ≤ Maxwtnts

/-- All entries of a chain, in the order the walks of `syn.c` visit them. -/
def chainEntries (nodes : List WtntNode) : List WtntEntry :=
  nodes.flatMap WtntNode.entries

@[simp] theorem chainEntries_nil : chainEntries [] = [] := rfl

@[simp] theorem chainEntries_cons (n : WtntNode) (ns : List WtntNode) :
    chainEntries (n :: ns) = n.entries ++ chainEntries ns := rfl

/-! ## `savewtnt` -/

section Save

variable (addr : Addr) (mig : BitVec 32) (fromPid : Nat) (scope : BitVec 32)

/-- What `savewtnt` makes of an entry that exists already. -/
def WtntEntry.again (e : WtntEntry) : WtntEntry :=
  { e with fromPid := Maxhosts, scope := scope, mig := mig }

@[simp] theorem WtntEntry.again_addr (e : WtntEntry) : (e.again mig scope).addr = e.addr := rfl
@[simp] theorem WtntEntry.again_fromPid (e : WtntEntry) :
    (e.again mig scope).fromPid = Maxhosts := rfl
@[simp] theorem WtntEntry.again_scope (e : WtntEntry) : (e.again mig scope).scope = scope := rfl
@[simp] theorem WtntEntry.again_mig (e : WtntEntry) : (e.again mig scope).mig = mig := rfl
@[simp] theorem WtntEntry.again_num (e : WtntEntry) : (e.again mig scope).num = e.num := rfl

/-- Step 1 inside one node: the first entry of the page, rewritten. -/
def againFirst : List WtntEntry → Option (List WtntEntry)
  | [] => none
  | e :: es =>
      if pageNum addr = e.num then some (e.again mig scope :: es)
      else (againFirst es).map (e :: ·)

theorem length_againFirst {es es' : List WtntEntry}
    (h : againFirst addr mig scope es = some es') : es'.length = es.length := by
  induction es generalizing es' with
  | nil => simp [againFirst] at h
  | cons e es ih =>
      simp only [againFirst] at h
      split at h
      · cases h
        rfl
      · simp only [Option.map_eq_some_iff] at h
        obtain ⟨t, ht, rfl⟩ := h
        simp [ih ht]

/-- Step 1 of `savewtnt`: walk the chain until an entry of the page is found. -/
def againNodes : List WtntNode → Option (List WtntNode)
  | [] => none
  | n :: ns =>
      match h : againFirst addr mig scope n.entries with
      | some es => some (⟨es, by rw [length_againFirst _ _ _ h]; exact n.wtntc_le⟩ :: ns)
      | none => (againNodes ns).map (n :: ·)

/-- Step 2 of `savewtnt`: append to the first node with room, after adding a
node with `newwtnt` when all are full. -/
def insertNodes (e : WtntEntry) : List WtntNode → List WtntNode
  | [] => [⟨[e], by simp⟩]
  | n :: ns =>
      if h : n.entries.length < Maxwtnts then
        ⟨n.entries ++ [e], by simpa using h⟩ :: ns
      else n :: insertNodes e ns

/-- `savewtnt` on a chain of nodes. -/
def saveNodes (nodes : List WtntNode) : List WtntNode :=
  match againNodes addr mig scope nodes with
  | some nodes' => nodes'
  | none => insertNodes ⟨addr, fromPid, scope, mig⟩ nodes

variable {addr mig fromPid scope}

theorem againFirst_eq_none {es : List WtntEntry} :
    againFirst addr mig scope es = none ↔ ∀ e ∈ es, e.num ≠ pageNum addr := by
  induction es with
  | nil => simp [againFirst]
  | cons e es ih =>
      simp only [againFirst]
      split
      · rename_i h
        simp [h]
      · rename_i h
        simp [ih, Ne.symm h]

theorem againFirst_eq_some {es es' : List WtntEntry}
    (h : againFirst addr mig scope es = some es') :
    ∃ l e r, es = l ++ e :: r ∧ es' = l ++ e.again mig scope :: r ∧ e.num = pageNum addr := by
  induction es generalizing es' with
  | nil => simp [againFirst] at h
  | cons e es ih =>
      simp only [againFirst] at h
      split at h
      · rename_i hnum
        cases h
        exact ⟨[], e, es, rfl, rfl, hnum.symm⟩
      · simp only [Option.map_eq_some_iff] at h
        obtain ⟨t, ht, rfl⟩ := h
        obtain ⟨l, e', r, rfl, rfl, hnum⟩ := ih ht
        exact ⟨e :: l, e', r, rfl, rfl, hnum⟩

theorem againNodes_eq_none {nodes : List WtntNode} :
    againNodes addr mig scope nodes = none ↔ ∀ e ∈ chainEntries nodes, e.num ≠ pageNum addr := by
  induction nodes with
  | nil => simp [againNodes]
  | cons n ns ih =>
      simp only [againNodes]
      split
      · rename_i es hes
        obtain ⟨l, e, r, hl, -, hnum⟩ := againFirst_eq_some hes
        simp only [reduceCtorEq, chainEntries_cons, List.mem_append, false_iff, not_forall]
        exact ⟨e, Or.inl (by simp [hl]), by simp [hnum]⟩
      · rename_i hnone
        rw [againFirst_eq_none] at hnone
        simp only [Option.map_eq_none_iff, ih, chainEntries_cons, List.mem_append]
        constructor
        · rintro h e (he | he)
          · exact hnone e he
          · exact h e he
        · exact fun h e he => h e (Or.inr he)

theorem againNodes_eq_some {nodes nodes' : List WtntNode}
    (h : againNodes addr mig scope nodes = some nodes') :
    ∃ l e r, chainEntries nodes = l ++ e :: r ∧
      chainEntries nodes' = l ++ e.again mig scope :: r ∧ e.num = pageNum addr := by
  induction nodes generalizing nodes' with
  | nil => simp [againNodes] at h
  | cons n ns ih =>
      simp only [againNodes] at h
      split at h
      · rename_i es hes
        cases h
        obtain ⟨l, e, r, hl, hr, hnum⟩ := againFirst_eq_some hes
        exact ⟨l, e, r ++ chainEntries ns, by simp [hl], by simp [hr], hnum⟩
      · simp only [Option.map_eq_some_iff] at h
        obtain ⟨t, ht, rfl⟩ := h
        obtain ⟨l, e, r, hl, hr, hnum⟩ := ih ht
        exact ⟨n.entries ++ l, e, r, by simp [hl], by simp [hr], hnum⟩

theorem insertNodes_perm (e : WtntEntry) (nodes : List WtntNode) :
    (chainEntries (insertNodes e nodes)).Perm (e :: chainEntries nodes) := by
  induction nodes with
  | nil => simp [insertNodes]
  | cons n ns ih =>
      simp only [insertNodes]
      split
      · simp only [chainEntries_cons, List.append_assoc, List.singleton_append]
        exact List.perm_middle
      · simp only [chainEntries_cons]
        exact (ih.append_left n.entries).trans List.perm_middle

theorem insertNodes_ne_nil (e : WtntEntry) (nodes : List WtntNode) :
    insertNodes e nodes ≠ [] := by
  cases nodes with
  | nil => simp [insertNodes]
  | cons n ns =>
      simp only [insertNodes]
      split <;> simp

variable (addr mig fromPid scope) in
/-- The two outcomes of `savewtnt`, read on the entries of the chain. -/
theorem saveNodes_cases (nodes : List WtntNode) :
    (∃ l e r, chainEntries nodes = l ++ e :: r ∧ e.num = pageNum addr ∧
      chainEntries (saveNodes addr mig fromPid scope nodes) = l ++ e.again mig scope :: r) ∨
    ((∀ e ∈ chainEntries nodes, e.num ≠ pageNum addr) ∧
      (chainEntries (saveNodes addr mig fromPid scope nodes)).Perm
        (⟨addr, fromPid, scope, mig⟩ :: chainEntries nodes)) := by
  unfold saveNodes
  split
  · rename_i nodes' h
    obtain ⟨l, e, r, hl, hr, hnum⟩ := againNodes_eq_some h
    exact Or.inl ⟨l, e, r, hl, hnum, hr⟩
  · rename_i h
    exact Or.inr ⟨againNodes_eq_none.mp h, insertNodes_perm _ _⟩

theorem saveNodes_nodup {nodes : List WtntNode}
    (h : ((chainEntries nodes).map WtntEntry.num).Nodup) :
    ((chainEntries (saveNodes addr mig fromPid scope nodes)).map WtntEntry.num).Nodup := by
  rcases saveNodes_cases addr mig fromPid scope nodes with ⟨l, e, r, hl, -, hr⟩ | ⟨hnone, hperm⟩
  · rw [hr]
    rw [hl] at h
    simpa using h
  · rw [(hperm.map _).nodup_iff, List.map_cons, List.nodup_cons]
    refine ⟨?_, h⟩
    simp only [List.mem_map, not_exists, not_and]
    exact fun e he => hnone e he

theorem saveNodes_ne_nil {nodes : List WtntNode} (h : nodes ≠ []) :
    saveNodes addr mig fromPid scope nodes ≠ [] := by
  unfold saveNodes
  split
  · rename_i nodes' hsome
    cases nodes with
    | nil => exact absurd rfl h
    | cons n ns =>
        simp only [againNodes] at hsome
        split at hsome
        · cases hsome
          simp
        · simp only [Option.map_eq_some_iff] at hsome
          obtain ⟨t, -, rfl⟩ := hsome
          simp
  · exact insertNodes_ne_nil _ _

end Save

/-! ## Write-notice lists -/

/-- A write-notice list as `newwtnt`, `savewtnt` and `freewtntspace` build it:
at least the head node, and one entry per page. -/
structure WtntList where
  nodes : List WtntNode
  nodes_ne : nodes ≠ []
  nodup : ((chainEntries nodes).map WtntEntry.num).Nodup

namespace WtntList

/-- `newwtnt()`, and what `freewtntspace` leaves: an empty head node. -/
def empty : WtntList := ⟨[⟨[], by simp⟩], by simp, by simp⟩

def entries (l : WtntList) : List WtntEntry := chainEntries l.nodes

@[simp] theorem entries_empty : empty.entries = [] := rfl

/-- Page numbers (of `pageNum`) a list has an entry for. -/
def nums (l : WtntList) : List Nat := l.entries.map WtntEntry.num

@[simp] theorem nums_empty : empty.nums = [] := rfl

theorem nums_nodup (l : WtntList) : l.nums.Nodup := l.nodup

theorem mem_nums {l : WtntList} {n : Nat} : n ∈ l.nums ↔ ∃ e ∈ l.entries, e.num = n := by
  simp [nums]

theorem entry_unique {l : WtntList} {e e' : WtntEntry} (he : e ∈ l.entries)
    (he' : e' ∈ l.entries) (h : e.num = e'.num) : e = e' :=
  List.inj_on_of_nodup_map l.nodup he he' h

/-- `savewtnt(ptr, addr, mig, frompid, scope)`. -/
def save (l : WtntList) (addr : Addr) (mig : BitVec 32) (fromPid : Nat) (scope : BitVec 32) :
    WtntList where
  nodes := saveNodes addr mig fromPid scope l.nodes
  nodes_ne := saveNodes_ne_nil l.nodes_ne
  nodup := saveNodes_nodup l.nodup

section SaveSpec

variable {l : WtntList} {addr : Addr} {mig : BitVec 32} {fromPid : Nat} {scope : BitVec 32}

/-- Saving a page leaves the entries of all other pages alone. -/
theorem mem_save_of_ne {e : WtntEntry} (h : e.num ≠ pageNum addr) :
    e ∈ (l.save addr mig fromPid scope).entries ↔ e ∈ l.entries := by
  rcases saveNodes_cases addr mig fromPid scope l.nodes with ⟨ls, e', r, hl, hnum, hr⟩ | ⟨-, hperm⟩
  · have hne : e ≠ e' := by
      rintro rfl
      exact h hnum
    have hne' : e ≠ e'.again mig scope := by
      rintro rfl
      exact h hnum
    simp only [entries, save, hl, hr, List.mem_append, List.mem_cons, hne, hne', false_or]
  · have hne : e ≠ ⟨addr, fromPid, scope, mig⟩ := by
      rintro rfl
      exact h rfl
    simp only [entries, save, hperm.mem_iff, List.mem_cons, hne, false_or]

/-- A page without an entry gets the caller's values. -/
theorem mem_save_new {e : WtntEntry} (hnew : pageNum addr ∉ l.nums)
    (h : e.num = pageNum addr) :
    e ∈ (l.save addr mig fromPid scope).entries ↔ e = ⟨addr, fromPid, scope, mig⟩ := by
  have hno : ∀ x ∈ l.entries, x.num ≠ pageNum addr :=
    fun x hx hnum => hnew (mem_nums.mpr ⟨x, hx, hnum⟩)
  rcases saveNodes_cases addr mig fromPid scope l.nodes with ⟨ls, e', r, hl, hnum, hr⟩ | ⟨-, hperm⟩
  · exact absurd hnum (hno e' (by simp [entries, hl]))
  · simp only [entries, save, hperm.mem_iff, List.mem_cons]
    constructor
    · rintro (he | he)
      · exact he
      · exact absurd h (hno e he)
    · exact Or.inl

/-- A page that has an entry keeps it, with the sender forgotten. -/
theorem mem_save_old {e e₀ : WtntEntry} (hold : e₀ ∈ l.entries) (hnum₀ : e₀.num = pageNum addr)
    (h : e.num = pageNum addr) :
    e ∈ (l.save addr mig fromPid scope).entries ↔ e = e₀.again mig scope := by
  rcases saveNodes_cases addr mig fromPid scope l.nodes with ⟨ls, e', r, hl, hnum, hr⟩ | ⟨hno, -⟩
  · have heq : e' = e₀ := by
      have he' : e' ∈ l.entries := by simp [entries, hl]
      exact entry_unique he' hold (hnum.trans hnum₀.symm)
    subst heq
    have hnd := (l.save addr mig fromPid scope).nodup
    have hmem : e'.again mig scope ∈ (l.save addr mig fromPid scope).entries := by
      simp [entries, save, hr]
    constructor
    · exact fun he => entry_unique he hmem (h.trans hnum.symm)
    · rintro rfl
      exact hmem
  · exact absurd hnum₀ (hno e₀ hold)

/-- After saving a page its entry names the saver or several writers. -/
theorem exists_save (l : WtntList) (addr : Addr) (mig : BitVec 32) (fromPid : Nat)
    (scope : BitVec 32) :
    ∃ e ∈ (l.save addr mig fromPid scope).entries, e.num = pageNum addr ∧ e.scope = scope ∧
      e.mig = mig ∧ (e.fromPid = fromPid ∨ e.fromPid = Maxhosts) := by
  by_cases hnew : pageNum addr ∈ l.nums
  · obtain ⟨e₀, he₀, hnum₀⟩ := mem_nums.mp hnew
    have hmem : e₀.again mig scope ∈ (l.save addr mig fromPid scope).entries :=
      (mem_save_old he₀ hnum₀ (e₀.again_num mig scope ▸ hnum₀)).mpr rfl
    exact ⟨_, hmem, hnum₀, rfl, rfl, Or.inr rfl⟩
  · exact ⟨_, (mem_save_new hnew rfl).mpr rfl, rfl, rfl, rfl, Or.inl rfl⟩

/-- Where an entry of the new list comes from. -/
theorem of_mem_save {e : WtntEntry} (he : e ∈ (l.save addr mig fromPid scope).entries) :
    (e ∈ l.entries ∧ e.num ≠ pageNum addr) ∨
    (pageNum addr ∉ l.nums ∧ e = ⟨addr, fromPid, scope, mig⟩) ∨
    (∃ e₀ ∈ l.entries, e₀.num = pageNum addr ∧ e = e₀.again mig scope) := by
  by_cases h : e.num = pageNum addr
  · by_cases hnew : pageNum addr ∈ l.nums
    · obtain ⟨e₀, he₀, hnum₀⟩ := mem_nums.mp hnew
      exact Or.inr (Or.inr ⟨e₀, he₀, hnum₀, (mem_save_old he₀ hnum₀ h).mp he⟩)
    · exact Or.inr (Or.inl ⟨hnew, (mem_save_new hnew h).mp he⟩)
  · exact Or.inl ⟨(mem_save_of_ne h).mp he, h⟩

@[simp] theorem mem_nums_save {n : Nat} :
    n ∈ (l.save addr mig fromPid scope).nums ↔ n = pageNum addr ∨ n ∈ l.nums := by
  by_cases h : n = pageNum addr
  · subst h
    obtain ⟨e, he, hnum, -⟩ := exists_save l addr mig fromPid scope
    simp only [true_or, iff_true]
    exact mem_nums.mpr ⟨e, he, hnum⟩
  · simp only [mem_nums, h, false_or]
    constructor
    · rintro ⟨e, he, rfl⟩
      exact ⟨e, (mem_save_of_ne h).mp he, rfl⟩
    · rintro ⟨e, he, rfl⟩
      exact ⟨e, (mem_save_of_ne h).mpr he, rfl⟩

end SaveSpec

/-- Rewrite the `mig` column, as `migcheckcache` does. -/
def setMig (l : WtntList) (f : WtntEntry → BitVec 32) : WtntList where
  nodes := l.nodes.map fun n =>
    ⟨n.entries.map fun e => { e with mig := f e }, by simpa using n.wtntc_le⟩
  nodes_ne := by simpa using l.nodes_ne
  nodup := by
    have h := l.nodup
    simpa [chainEntries, List.map_flatMap, List.flatMap_map, Function.comp_def] using h

@[simp] theorem entries_setMig (l : WtntList) (f : WtntEntry → BitVec 32) :
    (l.setMig f).entries = l.entries.map fun e => { e with mig := f e } := by
  simp [entries, setMig, chainEntries, List.map_flatMap, List.flatMap_map]

@[simp] theorem nums_setMig (l : WtntList) (f : WtntEntry → BitVec 32) :
    (l.setMig f).nums = l.nums := by
  simp [nums, WtntEntry.num, Function.comp_def]

end WtntList

/-! ## Cutting a chain into messages

`appendstackwtnts`, `appendlockwtnts` and `appendbarrwtnts` share one loop:
node after node, while the size test passes, the selected entries of the node
go into the message.  They differ in the test, the selection and the bytes an
entry takes.
-/

/-- One of the three append functions. -/
structure Packing where
  fits : Nat → WtntNode → Bool
  sel : WtntEntry → Bool
  unit : Nat

namespace Packing

variable (k : Packing)

/-- The entries one call appends to a message of `size` bytes and the nodes it
leaves; `appendmsg` asserts that the message does not grow too large. -/
def append : Nat → List WtntNode → Result (List WtntEntry × List WtntNode)
  | _, [] => .ok ([], [])
  | size, n :: ns =>
      if k.fits size n then do
        let es := n.entries.filter k.sel
        jiaAssert (size + k.unit * es.length ≤ Maxmsgsize) "Message too large"
        let (rest, left) ← append (size + k.unit * es.length) ns
        return (es ++ rest, left)
      else .ok ([], n :: ns)

/-- The loop around it: one list of entries for each message of the stream.
Every message starts with the `Intbytes` of the lock. -/
def chunks : Nat → List WtntNode → Result (List (List WtntEntry))
  | 0, _ => .error (.undefined "endless message stream")
  | fuel + 1, ns => do
      let (es, left) ← k.append Intbytes ns
      if left.isEmpty then return [es]
      else do
        let rest ← chunks fuel left
        return es :: rest

variable {k}

theorem append_spec {size : Nat} {ns left : List WtntNode} {es : List WtntEntry}
    (h : k.append size ns = .ok (es, left)) :
    es ++ (chainEntries left).filter k.sel = (chainEntries ns).filter k.sel := by
  induction ns generalizing size es with
  | nil =>
      simp only [append, Except.ok.injEq, Prod.mk.injEq] at h
      obtain ⟨rfl, rfl⟩ := h
      rfl
  | cons n ns ih =>
      simp only [append] at h
      split at h
      · simp only [bind_eq_ok, jiaAssert_eq_ok, Prod.exists, pure, Except.pure, Except.ok.injEq,
          Prod.mk.injEq] at h
        obtain ⟨-, -, rest, left', hrest, rfl, rfl⟩ := h
        rw [List.append_assoc, ih hrest]
        simp
      · simp only [Except.ok.injEq, Prod.mk.injEq] at h
        obtain ⟨rfl, rfl⟩ := h
        rfl

theorem chunks_flatten {fuel : Nat} {ns : List WtntNode} {cs : List (List WtntEntry)}
    (h : k.chunks fuel ns = .ok cs) : cs.flatten = (chainEntries ns).filter k.sel := by
  induction fuel generalizing ns cs with
  | zero => simp [chunks] at h
  | succ fuel ih =>
      simp only [chunks, bind_eq_ok, Prod.exists] at h
      obtain ⟨es, left, happ, h⟩ := h
      split at h
      · rename_i hnil
        simp only [pure, Except.pure, Except.ok.injEq] at h
        subst h
        have hspec := append_spec happ
        rw [List.isEmpty_iff.mp hnil] at hspec
        simpa using hspec
      · simp only [bind_eq_ok, pure, Except.pure, Except.ok.injEq] at h
        obtain ⟨rest, hrest, rfl⟩ := h
        rw [List.flatten_cons, ih hrest, append_spec happ]

theorem chunks_ne_nil {fuel : Nat} {ns : List WtntNode} {cs : List (List WtntEntry)}
    (h : k.chunks fuel ns = .ok cs) : cs ≠ [] := by
  cases fuel with
  | zero => simp [chunks] at h
  | succ fuel =>
      simp only [chunks, bind_eq_ok, Prod.exists] at h
      obtain ⟨es, left, -, h⟩ := h
      split at h
      · simp only [pure, Except.pure, Except.ok.injEq] at h
        subst h
        simp
      · simp only [bind_eq_ok, pure, Except.pure, Except.ok.injEq] at h
        obtain ⟨rest, -, rfl⟩ := h
        simp

/-- The fuel that `chunks` needs: one call per node, and the last one. -/
abbrev stream (k : Packing) (l : WtntList) : Result (List (List WtntEntry)) :=
  k.chunks (l.nodes.length + 1) l.nodes

end Packing

/-- `appendstackwtnts`: address and mig of every entry, 12 bytes each. -/
def appendStackWtnts : Packing where
  fits size n := size + n.entries.length * (Intbytes + Addrbytes) < Maxmsgsize
  sel _ := true
  unit := Addrbytes + Intbytes

/-- `appendbarrwtnts`: address, from and mig of every entry, 16 bytes each. -/
def appendBarrWtnts : Packing where
  fits size n := size + n.entries.length * (2 * Intbytes + Addrbytes) < Maxmsgsize
  sel _ := true
  unit := Addrbytes + Intbytes + Intbytes

/-- `appendlockwtnts`: the entries newer than `acqscope` whose home is not the
acquirer.  Its size test counts 8 bytes for an entry that takes 16. -/
def appendLockWtnts (homehost : Addr → Nat) (topid : Nat) (acqscope : BitVec 32) : Packing where
  fits size n := size + (2 * Intbytes + n.entries.length * Addrbytes) < Maxmsgsize
  sel e := acqscope.slt e.scope && homehost e.addr != topid
  unit := Addrbytes + Intbytes + Intbytes

end Jiajia
