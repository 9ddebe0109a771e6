import Jiajia.Barrier

/-!
# The notices of a barrier, merged

Each host sends its notices for a barrier in WTNT messages and a last BARR.  The
manager handles them in any order that keeps the order of each host, and
`savewtnt` rewrites `from` whenever a page turns up again.
-/

namespace Jiajia

open Host

/-! ## Streams that always fit -/

namespace Packing

variable {k : Packing}

/-- The size test lets a node in only when its entries fit, and the first node of a
message always passes. -/
structure Sound (k : Packing) : Prop where
  fits : ∀ {size n}, k.fits size n = true →
    size + k.unit * (n.entries.filter k.sel).length ≤ Maxmsgsize
  first : ∀ n, k.fits Intbytes n = true

theorem Sound.append_ok (hk : k.Sound) (size : Nat) (ns : List WtntNode) :
    ∃ es left, k.append size ns = .ok (es, left) ∧ left.length ≤ ns.length := by
  induction ns generalizing size with
  | nil => exact ⟨[], [], rfl, Nat.le_refl 0⟩
  | cons n ns ih =>
      by_cases hfits : k.fits size n = true
      · obtain ⟨es, left, happ, hlen⟩ := ih (size + k.unit * (n.entries.filter k.sel).length)
        refine ⟨n.entries.filter k.sel ++ es, left, ?_, hlen.trans (Nat.le_succ _)⟩
        simp only [append, if_pos hfits, bind_eq_ok, jiaAssert_eq_ok, Prod.exists]
        exact ⟨(), hk.fits hfits, es, left, happ, rfl⟩
      · exact ⟨[], n :: ns, by simp only [append, if_neg hfits], Nat.le_refl _⟩

theorem Sound.chunks_ok (hk : k.Sound) {fuel : Nat} {ns : List WtntNode}
    (hfuel : ns.length < fuel) : ∃ cs, k.chunks fuel ns = .ok cs := by
  induction fuel generalizing ns with
  | zero => omega
  | succ fuel ih =>
      cases ns with
      | nil => exact ⟨[[]], rfl⟩
      | cons n ns =>
          -- the first node goes in, so at least one node less is left
          have hfirst := hk.first n
          obtain ⟨es, left, happ, hlen⟩ :=
            hk.append_ok (Intbytes + k.unit * (n.entries.filter k.sel).length) ns
          have happ' : k.append Intbytes (n :: ns) = .ok (n.entries.filter k.sel ++ es, left) := by
            simp only [append, if_pos hfirst, bind_eq_ok, jiaAssert_eq_ok, Prod.exists]
            exact ⟨(), hk.fits hfirst, es, left, happ, rfl⟩
          simp only [List.length_cons] at hfuel
          have hless : left.length < fuel := by omega
          obtain ⟨cs, hcs⟩ := ih hless
          by_cases hnil : left.isEmpty = true
          · refine ⟨[n.entries.filter k.sel ++ es], ?_⟩
            simp only [chunks, bind_eq_ok, Prod.exists]
            exact ⟨_, left, happ', by rw [if_pos hnil]; rfl⟩
          · refine ⟨(n.entries.filter k.sel ++ es) :: cs, ?_⟩
            simp only [chunks, bind_eq_ok, Prod.exists]
            refine ⟨_, left, happ', ?_⟩
            rw [if_neg hnil, bind_eq_ok]
            exact ⟨cs, hcs, rfl⟩

theorem Sound.stream_ok (hk : k.Sound) (l : WtntList) : ∃ cs, k.stream l = .ok cs :=
  hk.chunks_ok (Nat.lt_succ_self _)

end Packing

theorem appendBarrWtnts_sound : appendBarrWtnts.Sound where
  fits {size n} h := by
    have hlt := of_decide_eq_true h
    have hle := List.length_filter_le appendBarrWtnts.sel n.entries
    simp only [appendBarrWtnts, Intbytes, Addrbytes] at hlt hle ⊢
    omega
  first n := by
    have hle := n.wtntc_le
    apply decide_eq_true
    simp only [Intbytes, Addrbytes, Maxmsgsize, Maxwtnts, Maxsize, Msgheadsize] at hle ⊢
    omega

/-! ## One page among the notices -/

/-- What the hosts sent, notice by notice, in the order the manager records it. -/
def recorded (rec : List (Nat × Msg)) : List (Nat × StackNotice) :=
  rec.flatMap fun x => x.2.stackNotices.map fun nt => (x.1, nt)

/-- The records of a page. -/
def about (n : Nat) (xs : List (Nat × StackNotice)) : List (Nat × StackNotice) :=
  xs.filter fun x => pageNum x.2.addr = n

def saveNotice (scope : Nat) (l : WtntList) (x : Nat × StackNotice) : WtntList :=
  l.save x.2.addr (x.2.addr.setWidth 32) x.1 (BitVec.ofNat 32 scope)

theorem mergeRound_eq (scope : Nat) (rec : List (Nat × Msg)) :
    mergeRound scope rec = (recorded rec).foldl (saveNotice scope) .empty := by
  unfold mergeRound recorded
  generalize WtntList.empty = l
  induction rec generalizing l with
  | nil => rfl
  | cons x rec ih =>
      rw [List.foldl_cons, List.flatMap_cons, List.foldl_append, ih, mergeMsg, List.foldl_map]
      rfl

/-- A list that holds the notices `xs`: one entry for each page among them, with the
sender of a page noticed once and `Maxhosts` for a page noticed again. -/
structure Notes (xs : List (Nat × StackNotice)) (l : WtntList) : Prop where
  nums : ∀ n, n ∈ l.nums ↔ about n xs ≠ []
  once : ∀ e ∈ l.entries, ∀ x, about e.num xs = [x] → e.fromPid = x.1
  again : ∀ e ∈ l.entries, 2 ≤ (about e.num xs).length → e.fromPid = Maxhosts

theorem about_snoc_same {n : Nat} {xs : List (Nat × StackNotice)} {x : Nat × StackNotice}
    (h : pageNum x.2.addr = n) : about n (xs ++ [x]) = about n xs ++ [x] := by
  simp [about, h]

theorem about_snoc_other {n : Nat} {xs : List (Nat × StackNotice)} {x : Nat × StackNotice}
    (h : pageNum x.2.addr ≠ n) : about n (xs ++ [x]) = about n xs := by
  simp [about, h]

theorem notes_nil : Notes [] .empty where
  nums n := by simp [about]
  once e he := by simp at he
  again e he := by simp at he

theorem Notes.save {xs : List (Nat × StackNotice)} {l : WtntList} (h : Notes xs l) (scope : Nat)
    (x : Nat × StackNotice) : Notes (xs ++ [x]) (saveNotice scope l x) where
  nums n := by
    rw [saveNotice, WtntList.mem_nums_save, h.nums]
    by_cases hn : pageNum x.2.addr = n
    · rw [about_snoc_same hn]
      simp [hn]
    · rw [about_snoc_other hn]
      simp [Ne.symm hn]
  once e he y hy := by
    rcases WtntList.of_mem_save he with ⟨hold, hne⟩ | ⟨hnew, rfl⟩ | ⟨e₀, he₀, hnum, rfl⟩
    · rw [about_snoc_other (Ne.symm hne)] at hy
      exact h.once e hold y hy
    · rw [about_snoc_same rfl] at hy
      have hnil : about (pageNum x.2.addr) xs = [] := by
        by_contra hne
        exact hnew ((h.nums _).mpr hne)
      simp only [hnil, List.nil_append, List.cons.injEq, and_true] at hy
      rw [← hy]
    · -- the page had a record before this one
      rw [WtntEntry.again_num, about_snoc_same hnum.symm] at hy
      have hlen := congrArg List.length hy
      have hne := (h.nums e₀.num).mp (WtntList.mem_nums.mpr ⟨e₀, he₀, rfl⟩)
      have hpos := List.length_pos_iff.mpr hne
      simp only [List.length_append, List.length_singleton] at hlen
      omega
  again e he hlen := by
    rcases WtntList.of_mem_save he with ⟨hold, hne⟩ | ⟨hnew, rfl⟩ | ⟨e₀, he₀, hnum, rfl⟩
    · rw [about_snoc_other (Ne.symm hne)] at hlen
      exact h.again e hold hlen
    · rw [about_snoc_same rfl] at hlen
      have hnil : about (pageNum x.2.addr) xs = [] := by
        by_contra hne
        exact hnew ((h.nums _).mpr hne)
      rw [hnil] at hlen
      simp at hlen
    · rfl

theorem notes_foldl (scope : Nat) (xs : List (Nat × StackNotice)) :
    Notes xs (xs.foldl (saveNotice scope) .empty) := by
  induction xs using List.reverseRecOn with
  | nil => exact notes_nil
  | append_singleton xs x ih =>
      rw [List.foldl_append]
      exact ih.save scope x

/-! ## Whole rounds -/

section Rounds

variable {cfg : Config} {rec rec' : List (Nat × Msg)} {l l' : WtntList}

/-- The messages of host `i`, in order. -/
def sentBy (i : Nat) (rec : List (Nat × Msg)) : List Msg :=
  (rec.filter fun x => x.1 = i).map Prod.snd

/-- The notices of host `i`. -/
def noticesOf (i : Nat) (rec : List (Nat × Msg)) : List StackNotice :=
  (sentBy i rec).flatMap Msg.stackNotices

def Notifies (rec : List (Nat × Msg)) (i n : Nat) : Prop :=
  ∃ nt ∈ noticesOf i rec, pageNum nt.addr = n

/-- The messages of one barrier as the manager handles them: each host sends WTNT
messages and then BARR, and names no page twice. -/
structure RoundOf (cfg : Config) (rec : List (Nat × Msg)) : Prop where
  hosts : ∀ x ∈ rec, x.1 < cfg.hostc
  stream : ∀ i < cfg.hostc, ∃ (chunks : List (List StackNotice)) (scope : BitVec 32)
      (ns : List StackNotice),
    sentBy i rec = chunks.map (Msg.wtnt hidelock) ++ [.barr hidelock scope ns]
  distinct : ∀ i < cfg.hostc, ((noticesOf i rec).map fun nt => pageNum nt.addr).Nodup

/-- One entry for each page that was notified, with its writer or `Maxhosts`. -/
structure Merged (cfg : Config) (rec : List (Nat × Msg)) (l : WtntList) : Prop where
  nodup : l.nums.Nodup
  pages : ∀ n, n ∈ l.nums ↔ ∃ i < cfg.hostc, Notifies rec i n
  single : ∀ e ∈ l.entries, ∀ i < cfg.hostc, Notifies rec i e.num →
    (∀ j < cfg.hostc, j ≠ i → ¬ Notifies rec j e.num) → e.fromPid = i
  several : ∀ e ∈ l.entries, ∀ i < cfg.hostc, ∀ j < cfg.hostc, i ≠ j →
    Notifies rec i e.num → Notifies rec j e.num → e.fromPid = Maxhosts

theorem recorded_filter (i : Nat) (rec : List (Nat × Msg)) :
    (recorded rec).filter (fun x => x.1 = i) = (noticesOf i rec).map fun nt => (i, nt) := by
  induction rec with
  | nil => rfl
  | cons x rec ih =>
      rw [recorded, List.flatMap_cons, List.filter_append]
      change _ ++ (recorded rec).filter _ = _
      rw [ih]
      by_cases hi : x.1 = i
      · subst hi
        simp [noticesOf, sentBy]
      · simp [noticesOf, sentBy, hi]

theorem mem_recorded {x : Nat × StackNotice} :
    x ∈ recorded rec ↔ x.2 ∈ noticesOf x.1 rec := by
  have hmem : x ∈ (recorded rec).filter (fun y => y.1 = x.1) ↔ x ∈ recorded rec := by
    simp
  rw [← hmem, recorded_filter, List.mem_map]
  constructor
  · rintro ⟨nt, hnt, heq⟩
    rw [← heq]
    exact hnt
  · exact fun h => ⟨x.2, h, rfl⟩

theorem notifies_iff {i n : Nat} : Notifies rec i n ↔ ∃ x ∈ about n (recorded rec), x.1 = i := by
  unfold Notifies about
  constructor
  · rintro ⟨nt, hnt, hn⟩
    exact ⟨(i, nt), List.mem_filter.mpr ⟨mem_recorded.mpr hnt, by simpa using hn⟩, rfl⟩
  · rintro ⟨x, hx, rfl⟩
    obtain ⟨hmem, hn⟩ := List.mem_filter.mp hx
    exact ⟨x.2, mem_recorded.mp hmem, by simpa using hn⟩

theorem RoundOf.sender_lt (h : RoundOf cfg rec) {x : Nat × StackNotice} (hx : x ∈ recorded rec) :
    x.1 < cfg.hostc := by
  obtain ⟨y, hy, hxy⟩ := List.mem_flatMap.mp hx
  obtain ⟨nt, -, rfl⟩ := List.mem_map.mp hxy
  exact h.hosts y hy

/-- No host has two records of a page. -/
theorem RoundOf.about_of_host (h : RoundOf cfg rec) {i : Nat} (hi : i < cfg.hostc) (n : Nat) :
    ((about n (recorded rec)).filter fun x => x.1 = i).length ≤ 1 := by
  have hcount := List.nodup_iff_count_le_one.mp (h.distinct i hi) n
  calc ((about n (recorded rec)).filter fun x => x.1 = i).length
      = (((recorded rec).filter fun x => x.1 = i).filter fun x => pageNum x.2.addr = n).length := by
        rw [about, List.filter_comm]
    _ = ((noticesOf i rec).filter fun nt => pageNum nt.addr = n).length := by
        rw [recorded_filter, List.filter_map, List.length_map]
        rfl
    _ = ((noticesOf i rec).map fun nt => pageNum nt.addr).count n := by
        rw [List.count, List.countP_map, ← List.countP_eq_length_filter]
        rfl
    _ ≤ 1 := hcount

theorem two_le_length {α : Type*} {xs : List α} {x y : α} (hx : x ∈ xs) (hy : y ∈ xs)
    (hne : x ≠ y) : 2 ≤ xs.length := by
  cases xs with
  | nil => cases hx
  | cons a xs =>
      cases xs with
      | nil =>
          rw [List.mem_singleton] at hx hy
          exact absurd (hx.trans hy.symm) hne
      | cons b xs => simp

theorem Notes.merged (h : Notes (recorded rec) l) (hround : RoundOf cfg rec) :
    Merged cfg rec l where
  nodup := l.nums_nodup
  pages n := by
    rw [h.nums]
    constructor
    · intro hne
      obtain ⟨x, hx⟩ := List.exists_mem_of_ne_nil _ hne
      exact ⟨x.1, hround.sender_lt (List.mem_filter.mp hx).1, notifies_iff.mpr ⟨x, hx, rfl⟩⟩
    · rintro ⟨i, -, hi⟩
      obtain ⟨x, hx, -⟩ := notifies_iff.mp hi
      exact List.ne_nil_of_mem hx
  single e he i hi hnot honly := by
    have hall : (about e.num (recorded rec)).filter (fun x => x.1 = i) =
        about e.num (recorded rec) := by
      apply List.filter_eq_self.mpr
      intro x hx
      by_contra hne
      have hlt := hround.sender_lt (List.mem_filter.mp hx).1
      exact honly x.1 hlt (by simpa using hne) (notifies_iff.mpr ⟨x, hx, rfl⟩)
    have hle := hround.about_of_host hi e.num
    rw [hall] at hle
    obtain ⟨x, hx, rfl⟩ := notifies_iff.mp hnot
    have hone : about e.num (recorded rec) = [x] := by
      obtain ⟨y, hy⟩ := List.length_eq_one_iff.mp
        (Nat.le_antisymm hle (List.length_pos_of_mem hx))
      rw [hy, List.mem_singleton] at hx
      rw [hy, hx]
    exact h.once e he x hone
  several e he i hi j hj hne hnot hnot' := by
    obtain ⟨x, hx, rfl⟩ := notifies_iff.mp hnot
    obtain ⟨y, hy, rfl⟩ := notifies_iff.mp hnot'
    exact h.again e he (two_le_length hx hy fun hxy => hne (congrArg Prod.fst hxy))

/-- The pages and the writers of a merged list depend on who notified what only. -/
theorem Merged.mem_iff (h : Merged cfg rec l) (n f : Nat) :
    (n, f) ∈ l.entries.map (fun e => (e.num, e.fromPid)) ↔
      (∃ i < cfg.hostc, Notifies rec i n ∧ f = i ∧
        ∀ j < cfg.hostc, j ≠ i → ¬ Notifies rec j n) ∨
      (∃ i < cfg.hostc, ∃ j < cfg.hostc, i ≠ j ∧ Notifies rec i n ∧ Notifies rec j n ∧
        f = Maxhosts) := by
  have hentry : ∀ i < cfg.hostc, Notifies rec i n → ∃ e ∈ l.entries, e.num = n :=
    fun i hi hnot => WtntList.mem_nums.mp ((h.pages n).mpr ⟨i, hi, hnot⟩)
  constructor
  · intro hmem
    obtain ⟨e, he, heq⟩ := List.mem_map.mp hmem
    obtain ⟨rfl, rfl⟩ := Prod.mk.inj heq
    obtain ⟨i, hi, hnot⟩ := (h.pages e.num).mp (WtntList.mem_nums.mpr ⟨e, he, rfl⟩)
    by_cases honly : ∀ j < cfg.hostc, j ≠ i → ¬ Notifies rec j e.num
    · exact Or.inl ⟨i, hi, hnot, h.single e he i hi hnot honly, honly⟩
    · push Not at honly
      obtain ⟨j, hj, hne, hnot'⟩ := honly
      exact Or.inr ⟨i, hi, j, hj, Ne.symm hne, hnot, hnot',
        h.several e he i hi j hj (Ne.symm hne) hnot hnot'⟩
  · rintro (⟨i, hi, hnot, rfl, honly⟩ | ⟨i, hi, j, hj, hne, hnot, hnot', rfl⟩)
    · obtain ⟨e, he, rfl⟩ := hentry f hi hnot
      exact List.mem_map.mpr ⟨e, he, by rw [h.single e he f hi hnot honly]⟩
    · obtain ⟨e, he, rfl⟩ := hentry i hi hnot
      exact List.mem_map.mpr ⟨e, he, by rw [h.several e he i hi j hj hne hnot hnot']⟩

theorem Merged.perm (h : Merged cfg rec l) (h' : Merged cfg rec' l')
    (hsame : ∀ i, sentBy i rec' = sentBy i rec) :
    (l'.entries.map fun e => (e.num, e.fromPid)).Perm
      (l.entries.map fun e => (e.num, e.fromPid)) := by
  have hnodup : ∀ l : WtntList, (l.entries.map fun e => (e.num, e.fromPid)).Nodup := by
    intro l
    apply List.Nodup.of_map Prod.fst
    rw [List.map_map]
    exact l.nums_nodup
  rw [List.perm_ext_iff_of_nodup (hnodup l') (hnodup l)]
  rintro ⟨n, f⟩
  rw [h.mem_iff, h'.mem_iff]
  simp only [Notifies, noticesOf, hsame]

end Rounds

/-! ## The manager -/

section Manager

variable (cfg : Config)

/-- The host that manages the barrier. -/
def manager : Nat := hidelock % cfg.hostc

/-- The manager handles the messages `rec` one after the other. -/
def serveAll : Host → List (Nat × Msg) → Result Host
  | h, [] => .ok h
  | h, (src, msg) :: rec => do
      let (h', _) ← h.msgHandle cfg (manager cfg) src [] msg
      serveAll h' rec

/-- The last of the messages `rec` is a BARR, with it the manager answers the barrier,
and `l` is the list it has then. -/
structure GrantsWith (h : Host) (rec : List (Nat × Msg)) (l : WtntList) : Prop where
  last : ∃ init src scope ns h₁ h₂ out, rec = init ++ [(src, .barr hidelock scope ns)] ∧
    serveAll cfg h init = .ok h₁ ∧
    h₁.barrserver cfg (manager cfg) src hidelock ns = .ok (h₂, out) ∧
    (h₁.y.locks hidelock).acqc + 1 = cfg.hostc ∧
    l = ((h₁.y.recordwtnts hidelock src ns).locks hidelock).wtntp

variable {cfg} {h h' : Host} {n : Nat} {rec : List (Nat × Msg)}

theorem serveAll_snoc (src : Nat) (msg : Msg) :
    serveAll cfg h (rec ++ [(src, msg)]) = (do
      let h' ← serveAll cfg h rec
      let (h'', _) ← h'.msgHandle cfg (manager cfg) src [] msg
      return h'') := by
  induction rec generalizing h with
  | nil => rfl
  | cons x rec ih =>
      obtain ⟨src', msg'⟩ := x
      simp only [List.cons_append, serveAll]
      cases hm : h.msgHandle cfg (manager cfg) src' [] msg' with
      | error e => rfl
      | ok r =>
          change serveAll cfg r.1 (rec ++ [(src, msg)]) = _
          rw [ih]
          rfl

def Msg.isBarr : Msg → Bool
  | .barr _ _ _ => true
  | _ => false

/-- The manager in the middle of a barrier, after the messages `rec`. -/
structure Midway (h : Host) (n : Nat) (rec : List (Nat × Msg)) : Prop where
  ready : Barrier.Ready h n rec
  count : (h.y.locks hidelock).acqc = rec.countP fun x => x.2.isBarr

theorem Midway.wtnt (hmid : Midway h n rec) (src : Nat) (ns : List StackNotice) :
    ∃ h', h.msgHandle cfg (manager cfg) src [] (.wtnt hidelock ns) = .ok (h', []) ∧
      Midway h' n (rec ++ [(src, .wtnt hidelock ns)]) := by
  have hrec := Barrier.ready_recordwtnts src (.wtnt hidelock ns) hmid.ready
  refine ⟨{ h with y := h.y.recordwtnts hidelock src ns }, ?_, hrec, ?_⟩
  · simp only [msgHandle, silent, wtntserver, bind_eq_ok, jiaAssert_eq_ok]
    exact ⟨_, ⟨(), rfl, rfl⟩, rfl⟩
  · rw [List.countP_append, ← hmid.count]
    simp [SynState.recordwtnts, SynState.setLock, Msg.isBarr]

/-- A BARR that is not the last one. -/
theorem Midway.barr (hmid : Midway h n rec) (src : Nat) (scope : BitVec 32)
    (ns : List StackNotice) (hmore : (h.y.locks hidelock).acqc + 1 ≠ cfg.hostc) :
    ∃ h', h.msgHandle cfg (manager cfg) src [] (.barr hidelock scope ns) = .ok (h', []) ∧
      Midway h' n (rec ++ [(src, .barr hidelock scope ns)]) := by
  have hrec := Barrier.ready_recordwtnts src (.barr hidelock scope ns) hmid.ready
  have hcount : ((h.y.recordwtnts hidelock src ns).locks hidelock).acqc =
      (h.y.locks hidelock).acqc := by
    simp [SynState.recordwtnts, SynState.setLock]
  let y := h.y.recordwtnts hidelock src ns
  let y' := y.setLock hidelock (countBarr (y.locks hidelock))
  have hlock : y'.locks hidelock = countBarr (y.locks hidelock) :=
    upd_same y.locks hidelock (countBarr (y.locks hidelock))
  refine ⟨{ h with y := y' }, ?_, ?_, ?_⟩
  · simp only [msgHandle, barrserver, bind_eq_ok, jiaAssert_eq_ok]
    refine ⟨(), rfl, (), trivial, ?_⟩
    rw [if_neg (by rw [countBarr, hcount]; exact hmore)]
    rfl
  · show (y'.locks hidelock).wtntp = _ ∧ (y'.locks hidelock).scope = _
    rw [hlock]
    exact hrec
  · show (y'.locks hidelock).acqc = _
    rw [List.countP_append, ← hmid.count, hlock, countBarr, hcount]
    rfl

/-- The last BARR is answered. -/
theorem exists_grant (src : Nat) (ns : List StackNotice)
    (hlast : (h.y.locks hidelock).acqc + 1 = cfg.hostc) :
    ∃ h' out, h.barrserver cfg (manager cfg) src hidelock ns = .ok (h', out) := by
  have hcount : ((h.y.recordwtnts hidelock src ns).locks hidelock).acqc =
      (h.y.locks hidelock).acqc := by
    simp [SynState.recordwtnts, SynState.setLock]
  let y := h.y.recordwtnts hidelock src ns
  have hgrant : ∃ out, ({ h with y := y.setLock hidelock (nextBarr (countBarr
      (y.locks hidelock))) } : Host).grantbarr cfg (manager cfg) hidelock = .ok out := by
    obtain ⟨cs, hcs⟩ := appendBarrWtnts_sound.stream_ok (y.locks hidelock).wtntp
    refine ⟨_, bind_eq_ok.mpr ⟨cs, ?_, rfl⟩⟩
    simpa [SynState.setLock, nextBarr, countBarr] using hcs
  obtain ⟨out, hout⟩ := hgrant
  have hcond : (countBarr (y.locks hidelock)).acqc = cfg.hostc := by
    rw [countBarr, hcount]
    exact hlast
  refine ⟨{ h with y := y.setLock hidelock (resetBarr (nextBarr (countBarr
    (y.locks hidelock)))) }, out, ?_⟩
  simp only [barrserver, bind_eq_ok, jiaAssert_eq_ok]
  refine ⟨(), rfl, (), trivial, ?_⟩
  rw [if_pos hcond, bind_eq_ok]
  exact ⟨out, hout, rfl⟩

end Manager

/-! ## Counting the BARR messages -/

section Count

variable {cfg : Config} {rec : List (Nat × Msg)}

theorem countP_sentBy (i : Nat) (rec : List (Nat × Msg)) :
    (rec.countP fun x => x.1 = i ∧ x.2.isBarr) = (sentBy i rec).countP Msg.isBarr := by
  rw [sentBy, List.countP_map, List.countP_filter]
  apply List.countP_congr
  intro x _
  simp [and_comm]

theorem RoundOf.one_barr (h : RoundOf cfg rec) {i : Nat} (hi : i < cfg.hostc) :
    (sentBy i rec).countP Msg.isBarr = 1 := by
  obtain ⟨chunks, scope, ns, hs⟩ := h.stream i hi
  rw [hs, List.countP_append, List.countP_map]
  have hnone : chunks.countP (Msg.isBarr ∘ Msg.wtnt hidelock) = 0 := by
    rw [List.countP_eq_zero]
    intro c _
    exact Bool.false_ne_true
  rw [hnone]
  rfl

theorem RoundOf.count_below (h : RoundOf cfg rec) {k : Nat} (hk : k ≤ cfg.hostc) :
    (rec.countP fun x => x.1 < k ∧ x.2.isBarr) = k := by
  induction k with
  | zero => simp
  | succ k ih =>
      have hsplit : ∀ xs : List (Nat × Msg), (xs.countP fun x => x.1 < k + 1 ∧ x.2.isBarr) =
          (xs.countP fun x => x.1 < k ∧ x.2.isBarr) + xs.countP fun x => x.1 = k ∧ x.2.isBarr := by
        intro xs
        induction xs with
        | nil => rfl
        | cons x xs ihx =>
            simp only [List.countP_cons, ihx]
            by_cases hb : x.2.isBarr = true
            · rcases Nat.lt_trichotomy x.1 k with hlt | heq | hgt
              · have hne : x.1 ≠ k := by omega
                have hlt' : x.1 < k + 1 := by omega
                simp [hb, hlt, hne, hlt']
                omega
              · simp [hb, heq]
                omega
              · have hne : x.1 ≠ k := by omega
                have hnlt : ¬ x.1 < k := by omega
                have hnlt' : ¬ x.1 < k + 1 := by omega
                simp [hb, hne, hnlt, hnlt']
            · simp [hb]
      rw [hsplit, ih (by omega), countP_sentBy, h.one_barr (by omega)]

/-- Every host sends one BARR. -/
theorem RoundOf.count_barr (h : RoundOf cfg rec) :
    (rec.countP fun x => x.2.isBarr) = cfg.hostc := by
  rw [← h.count_below (Nat.le_refl cfg.hostc)]
  apply List.countP_congr
  intro x hx
  simp [h.hosts x hx]

theorem RoundOf.kinds (h : RoundOf cfg rec) {x : Nat × Msg} (hx : x ∈ rec) :
    (∃ ns, x.2 = .wtnt hidelock ns) ∨ ∃ scope ns, x.2 = .barr hidelock scope ns := by
  obtain ⟨chunks, scope, ns, hs⟩ := h.stream x.1 (h.hosts x hx)
  have hmem : x.2 ∈ sentBy x.1 rec :=
    List.mem_map.mpr ⟨x, List.mem_filter.mpr ⟨hx, by simp⟩, rfl⟩
  rw [hs, List.mem_append, List.mem_map, List.mem_singleton] at hmem
  rcases hmem with ⟨c, -, hc⟩ | hb
  · exact Or.inl ⟨c, hc.symm⟩
  · exact Or.inr ⟨scope, ns, hb⟩

/-- The last message of a round is a BARR. -/
theorem RoundOf.last (h : RoundOf cfg rec) :
    ∃ init src scope ns, rec = init ++ [(src, .barr hidelock scope ns)] := by
  have hne : rec ≠ [] := by
    rintro rfl
    have hzero := h.count_barr
    have hpos := cfg.hostc_pos
    simp only [List.countP_nil] at hzero
    omega
  obtain ⟨init, x, rfl⟩ := List.eq_nil_or_concat' rec |>.resolve_left hne
  obtain ⟨src, msg⟩ := x
  obtain ⟨chunks, scope, ns, hs⟩ := h.stream src (h.hosts (src, msg) (by simp))
  have hlast : sentBy src (init ++ [(src, msg)]) = sentBy src init ++ [msg] := by
    simp [sentBy]
  rw [hlast] at hs
  have hmsg := (List.append_inj' hs rfl).2
  simp only [List.cons.injEq, and_true] at hmsg
  exact ⟨init, src, scope, ns, by rw [hmsg]⟩

/-- The manager handles a proper part of a round without answering it. -/
theorem RoundOf.midway (hround : RoundOf cfg rec) {h : Host} {n : Nat} (hmid : Midway h n [])
    {pre post : List (Nat × Msg)} (hsplit : rec = pre ++ post)
    (hpost : 0 < post.countP fun x => x.2.isBarr) :
    ∃ h', serveAll cfg h pre = .ok h' ∧ Midway h' n pre := by
  induction pre using List.reverseRecOn generalizing post with
  | nil => exact ⟨h, rfl, hmid⟩
  | append_singleton pre x ih =>
      obtain ⟨src, msg⟩ := x
      have hsplit' : rec = pre ++ (src, msg) :: post := by simp [hsplit]
      obtain ⟨h₁, hserve, hmid₁⟩ := ih hsplit' (by rw [List.countP_cons]; omega)
      have htotal := hround.count_barr
      rw [hsplit, List.countP_append] at htotal
      have hnext : ∃ h₂, h₁.msgHandle cfg (manager cfg) src [] msg = .ok (h₂, []) ∧
          Midway h₂ n (pre ++ [(src, msg)]) := by
        have hkind : (∃ ns, msg = .wtnt hidelock ns) ∨ ∃ scope ns, msg = .barr hidelock scope ns :=
          hround.kinds (x := (src, msg)) (by simp [hsplit])
        rcases hkind with ⟨ns, rfl⟩ | ⟨scope, ns, rfl⟩
        · exact hmid₁.wtnt src ns
        · refine hmid₁.barr src scope ns ?_
          have hone : ([(src, Msg.barr hidelock scope ns)].countP fun x => x.2.isBarr) = 1 := rfl
          rw [List.countP_append, hone] at htotal
          rw [hmid₁.count]
          omega
      obtain ⟨h₂, hmsg, hmid₂⟩ := hnext
      refine ⟨h₂, ?_, hmid₂⟩
      rw [serveAll_snoc, hserve]
      change (do
        let (h'', _) ← h₁.msgHandle cfg (manager cfg) src [] msg
        return h'') = .ok h₂
      rw [hmsg]
      rfl

/-- A round is answered with a list that is merged from all notices. -/
theorem RoundOf.grants (hround : RoundOf cfg rec) {h : Host} {n : Nat} (hmid : Midway h n []) :
    ∃ l, GrantsWith cfg h rec l ∧ Merged cfg rec l := by
  obtain ⟨init, src, scope, ns, rfl⟩ := hround.last
  obtain ⟨h₁, hserve, hmid₁⟩ := hround.midway hmid rfl (by simp [Msg.isBarr])
  have hlast : (h₁.y.locks hidelock).acqc + 1 = cfg.hostc := by
    have htotal := hround.count_barr
    rw [List.countP_append] at htotal
    rw [hmid₁.count, ← htotal]
    rfl
  obtain ⟨h₂, out, hgrant⟩ := exists_grant src ns hlast
  refine ⟨_, ⟨init, src, scope, ns, h₁, h₂, out, rfl, hserve, hgrant, hlast, rfl⟩, ?_⟩
  have hlist := (Barrier.ready_recordwtnts src (.barr hidelock scope ns) hmid₁.ready).1
  rw [Msg.stackNotices] at hlist
  rw [hlist, mergeRound_eq]
  exact (notes_foldl n _).merged hround

theorem GrantsWith.unique {h : Host} {l l' : WtntList} (hl : GrantsWith cfg h rec l)
    (hl' : GrantsWith cfg h rec l') : l = l' := by
  obtain ⟨init, src, scope, ns, h₁, h₂, out, hrec, hserve, -, -, rfl⟩ := hl.last
  obtain ⟨init', src', scope', ns', h₁', h₂', out', hrec', hserve', -, -, rfl⟩ := hl'.last
  rw [hrec] at hrec'
  obtain ⟨rfl, hmsg⟩ := List.append_inj' hrec' rfl
  simp only [List.cons.injEq, Prod.mk.injEq, Msg.barr.injEq, true_and, and_true] at hmsg
  obtain ⟨rfl, -, rfl⟩ := hmsg
  rw [hserve] at hserve'
  rw [Except.ok.inj hserve']

/-- Whatever the order in which the manager handles the messages of a barrier, it
answers the last BARR with one entry for each page notified; the entries of two such
orders are the same up to their order. -/
theorem barrier_notices_merged {h : Host} {n : Nat} (hready : Barrier.Ready h n [])
    (hfresh : (h.y.locks hidelock).acqc = 0) (hround : RoundOf cfg rec) :
    ∃ l, GrantsWith cfg h rec l ∧ Merged cfg rec l ∧
      ∀ rec' l', RoundOf cfg rec' → (∀ i, sentBy i rec' = sentBy i rec) →
        GrantsWith cfg h rec' l' →
        (l'.entries.map fun e => (e.num, e.fromPid)).Perm
          (l.entries.map fun e => (e.num, e.fromPid)) := by
  have hmid : Midway h n [] := ⟨hready, hfresh⟩
  obtain ⟨l, hgrants, hmerged⟩ := hround.grants hmid
  refine ⟨l, hgrants, hmerged, ?_⟩
  intro rec' l' hround' hsame hgrants'
  obtain ⟨l'', hgrants'', hmerged''⟩ := hround'.grants hmid
  obtain rfl := hgrants'.unique hgrants''
  exact hmerged.perm hmerged'' hsame

/-- Host 1 notices two pages and host 0 one of them, in between. -/
def sharedPage : List (Nat × Msg) :=
  [(1, .wtnt hidelock [⟨0x400000000000, 0⟩]), (0, .barr hidelock 0 [⟨0x400000000000, 0⟩]),
    (1, .barr hidelock 0 [⟨0x400000001000, 0⟩])]

theorem roundOf_sharedPage : RoundOf .noPages sharedPage where
  hosts := by decide
  stream i hi := by
    have hcase : i = 0 ∨ i = 1 := by
      have hc : Config.noPages.hostc = 2 := rfl
      omega
    rcases hcase with rfl | rfl
    · exact ⟨[], 0, [⟨0x400000000000, 0⟩], rfl⟩
    · exact ⟨[[⟨0x400000000000, 0⟩]], 0, [⟨0x400000001000, 0⟩], rfl⟩
  distinct := by decide

theorem barrier_notices_merged_sharedPage :
    ∃ l, GrantsWith .noPages (initHost .noPages 0) sharedPage l ∧
      Merged .noPages sharedPage l ∧ ∀ e ∈ l.entries, e.num = 0x400000000 → e.fromPid = Maxhosts := by
  obtain ⟨l, hgrants, hmerged, -⟩ := barrier_notices_merged (h := initHost .noPages 0)
    (n := 0) ⟨rfl, rfl⟩ rfl roundOf_sharedPage
  refine ⟨l, hgrants, hmerged, ?_⟩
  intro e he hnum
  refine hmerged.several e he 0 (by decide) 1 (by decide) (by decide) ?_ ?_
  · rw [hnum]
    exact ⟨⟨0x400000000000, 0⟩, by decide, by decide⟩
  · rw [hnum]
    exact ⟨⟨0x400000000000, 0⟩, by decide, by decide⟩

end Count

end Jiajia
