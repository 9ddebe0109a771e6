import Jiajia.Barrier

/-!
# Lock notices over a barrier

A manager forgets the notices of its locks when it handles BARRGRANT.  A host
that has left the barrier may release a lock at the manager before that, and
`noclearlocks` is there to keep the notices of such a release.  The test for it
compares the scope of the lock with the scope of the barrier.
-/

namespace Jiajia

open Transition

/-! ## The history of the releases -/

/-- What a run shows of releases and barriers. -/
structure ReleaseLog where
  calls : CallLog
  /-- For each host and lock, how many barriers the host had returned from at
  each REL it sent. -/
  epochs : Nat → Nat → List Nat
  /-- For each host and lock, the RELs its manager has handled. -/
  handled : Nat → Nat → Nat
  /-- For each host and lock, the addresses in the WTNTs of a release whose REL
  is still to come. -/
  part : Nat → Nat → List Addr
  /-- BARRGRANTs each host has handled. -/
  grants : Nat → Nat
  /-- For each lock, the addresses of the releases handled since the manager's
  last BARRGRANT by hosts that had returned from the next barrier. -/
  early : Nat → List Addr
  /-- The host has handled, since its last BARRGRANT, a REL with a later scope
  than its barrier. -/
  later : Nat → Bool
  /-- After every BARRGRANT the early notices were still in the lock lists. -/
  kept : Bool
  /-- At every BARRGRANT there was no early notice or a later scope. -/
  met : Bool

/-- The lock of a REL. -/
def Msg.relLock : Msg → Option Nat
  | .rel l _ _ => some l
  | _ => none

namespace ReleaseLog

variable (cfg : Config) (log : ReleaseLog)

/-- Host `i` sends `out`. -/
def noteSent (i : Nat) (out : Out) : ReleaseLog :=
  { log with
    epochs := fun h l =>
      if h = i then
        log.epochs h l ++ (out.filter fun x => x.2.relLock = some l).map
          fun _ => log.calls.returned i
      else log.epochs h l }

/-- Host `dst` handles WTNT for `l` from `src`. -/
def noteWtnt (src l : Nat) (ns : List StackNotice) : ReleaseLog :=
  { log with
    part := fun h k =>
      if h = src ∧ k = l then log.part h k ++ ns.map StackNotice.addr else log.part h k }

/-- The next release of `src` that the manager of `l` handles comes after a
barrier whose BARRGRANT the manager `dst` has not handled. -/
def IsEarly (src dst l : Nat) : Prop :=
  log.grants dst < ((log.epochs src l)[log.handled src l]?).getD 0

instance (src dst l : Nat) : Decidable (log.IsEarly src dst l) :=
  inferInstanceAs (Decidable (_ < _))

/-- Host `dst`, with scope `barrier` of the barrier, handles REL for `l` from `src`. -/
def noteRel (src dst l : Nat) (barrier scope : BitVec 32) (ns : List StackNotice) : ReleaseLog :=
  { log with
    handled := fun h k => if h = src ∧ k = l then log.handled h k + 1 else log.handled h k
    part := fun h k => if h = src ∧ k = l then [] else log.part h k
    early := fun k =>
      if k = l ∧ log.IsEarly src dst l then
        log.early k ++ log.part src l ++ ns.map StackNotice.addr
      else log.early k
    later := upd log.later dst (log.later dst || decide (barrier < scope)) }

/-- Every early notice of a lock that `dst` manages is in the list of the lock. -/
def Kept (dst : Nat) (y : SynState) : Prop :=
  ∀ l < Maxlocks, l % cfg.hostc = dst → ∀ a ∈ log.early l, pageNum a ∈ (y.locks l).wtntp.nums

instance (dst : Nat) (y : SynState) : Decidable (log.Kept cfg dst y) :=
  -- over the notices, not over all addresses
  have _ (l : Nat) : Decidable (∀ a ∈ log.early l, pageNum a ∈ (y.locks l).wtntp.nums) :=
    List.decidableBAll _ _
  inferInstanceAs (Decidable (∀ l < Maxlocks, l % cfg.hostc = dst →
    ∀ a ∈ log.early l, pageNum a ∈ (y.locks l).wtntp.nums))

/-- `dst` has no early notice to keep, or a REL with a later scope than its
barrier told it to keep all. -/
def Met (dst : Nat) : Prop :=
  log.later dst = true ∨ ∀ l < Maxlocks, l % cfg.hostc = dst → log.early l = []

instance (dst : Nat) : Decidable (log.Met cfg dst) :=
  inferInstanceAs (Decidable (_ ∨ ∀ l < Maxlocks, _ → log.early l = []))

/-- Host `dst` handles BARRGRANT, which leaves it in `y`.  Of releases that it
has handled none counts for a later barrier: no host is two barriers ahead. -/
def noteBarrgrant (dst : Nat) (y : SynState) : ReleaseLog :=
  { log with
    grants := upd log.grants dst (log.grants dst + 1)
    part := fun h k => if k % cfg.hostc = dst then [] else log.part h k
    early := fun k => if k % cfg.hostc = dst then [] else log.early k
    later := upd log.later dst false
    kept := log.kept && decide (log.Kept cfg dst y)
    met := log.met && decide (log.Met cfg dst) }

/-- Host `dst` in state `h` handles a message from `src`, which leaves it in `h'`. -/
def noteHandled (src dst : Nat) (h h' : Host) : Option Msg → ReleaseLog
  | some (.wtnt l ns) => log.noteWtnt src l ns
  | some (.rel l scope ns) => log.noteRel src dst l (h.y.locks hidelock).myscope scope ns
  | some (.barrgrant _ _ _) => log.noteBarrgrant cfg dst h'.y
  | _ => log

end ReleaseLog

def releaseHistory (cfg : Config) : System.Observer State Event ReleaseLog where
  start :=
    { calls := (callHistory cfg).start, epochs := fun _ _ => [], handled := fun _ _ => 0
      part := fun _ _ => [], grants := fun _ => 0, early := fun _ => [], later := fun _ => false
      kept := true, met := true }
  obs log s e s' :=
    match e with
    | .main i _ =>
        { log.noteSent i (sent cfg s e) with calls := (callHistory cfg).obs log.calls s e s' }
    | .deliver src dst _ => log.noteHandled cfg src dst (s.host dst) (s'.host dst) (handled s e)

/-! ## What a message does to the lists of the locks -/

/-- The addresses a message brings for the list of lock `l`. -/
def Msg.lockNotices (l : Nat) : Msg → List Addr
  | .wtnt k ns => if k = l then ns.map StackNotice.addr else []
  | .rel k _ ns => if k = l then ns.map StackNotice.addr else []
  | _ => []

theorem WtntList.mem_nums_foldl_save {ns : List StackNotice} {src n : Nat} {scope : BitVec 32}
    {l : WtntList} :
    n ∈ (ns.foldl (fun l x => l.save x.addr (x.addr.setWidth 32) src scope) l).nums ↔
      (∃ x ∈ ns, pageNum x.addr = n) ∨ n ∈ l.nums := by
  induction ns generalizing l with
  | nil => simp
  | cons x ns ih =>
      have hnum : n = pageNum x.addr ↔ pageNum x.addr = n := eq_comm
      rw [List.foldl_cons, ih, WtntList.mem_nums_save, List.exists_mem_cons_iff, hnum,
        or_left_comm, or_assoc]

namespace SynState

theorem mem_nums_recordwtnts {y : SynState} {l k src n : Nat} {ns : List StackNotice} :
    n ∈ ((y.recordwtnts l src ns).locks k).wtntp.nums ↔
      (l = k ∧ ∃ x ∈ ns, pageNum x.addr = n) ∨ n ∈ (y.locks k).wtntp.nums := by
  by_cases hk : l = k
  · subst hk
    simp only [recordwtnts, setLock, upd_same, true_and]
    exact WtntList.mem_nums_foldl_save
  · have hne : k ≠ l := fun h => hk h.symm
    simp [recordwtnts, setLock, upd_of_ne _ _ hne, hk]

theorem wtntp_setLock {y : SynState} {l k : Nat} {lk : Lock} (h : lk.wtntp = (y.locks l).wtntp) :
    ((y.setLock l lk).locks k).wtntp = (y.locks k).wtntp := by
  by_cases hk : k = l
  · simp [setLock, hk, h]
  · simp [setLock, hk]

end SynState

namespace Host

variable {cfg : Config} {pid src : Nat} {rnd : List Nat} {h h' : Host} {out : Out}

/-- Only the flag of `noteScope` and BARRGRANT change `noclearlocks`. -/
theorem served_noclearlocks {msg : Msg} (hs : Served cfg pid h src rnd msg h' out) :
    h'.y.noclearlocks = match msg with
      | .rel _ scope _ => h.y.noclearlocks || decide ((h.y.locks hidelock).myscope < scope)
      | .barrgrant _ _ _ => false
      | _ => h.y.noclearlocks := by
  cases hs with
  | relNext hl hsrc hc hout =>
      simp [recordRelease, noteScope_eq, SynState.recordwtnts, SynState.setLock]
  | relLast hl hsrc hc =>
      simp [recordRelease, noteScope_eq, SynState.recordwtnts, SynState.setLock]
  | barrgrant hm =>
      obtain ⟨m, -, rfl⟩ := barrgrantserver_ok hm
      rfl
  | _ => rfl

theorem nums_recordRelease {y : SynState} {l k n : Nat} {scope : BitVec 32}
    {ns : List StackNotice} :
    n ∈ ((recordRelease y src l scope ns).locks k).wtntp.nums ↔
      (l = k ∧ ∃ x ∈ ns, pageNum x.addr = n) ∨ n ∈ (y.locks k).wtntp.nums := by
  have hnums := @SynState.mem_nums_recordwtnts (noteScope y scope) l k src n ns
  rw [locks_noteScope] at hnums
  rw [← hnums, recordRelease]
  rw [SynState.wtntp_setLock]
  rfl

/-- The notices of a message are in the list afterwards, and only BARRGRANT takes notices out
of the list of a lock. -/
theorem served_nums {msg : Msg} (hs : Served cfg pid h src rnd msg h' out)
    (hne : ∀ l scope ns, msg ≠ .barrgrant l scope ns) {l : Nat} (hl : l < Maxlocks) {n : Nat}
    (hn : (∃ a ∈ msg.lockNotices l, pageNum a = n) ∨ n ∈ (h.y.locks l).wtntp.nums) :
    n ∈ (h'.y.locks l).wtntp.nums := by
  have hhide : l ≠ hidelock := Nat.ne_of_lt hl
  have hnotices : ∀ {k : Nat} {ns : List StackNotice},
      (∃ a ∈ (if k = l then ns.map StackNotice.addr else []), pageNum a = n) →
        k = l ∧ ∃ x ∈ ns, pageNum x.addr = n := by
    intro k ns ha
    by_cases hk : k = l
    · simpa [hk] using ha
    · simp [hk] at ha
  cases hs with
  | acqFirst hm hc hout =>
      rw [SynState.wtntp_setLock]
      · exact hn.resolve_left (by simp [Msg.lockNotices])
      · rfl
  | acqQueue hm hc =>
      rw [SynState.wtntp_setLock]
      · exact hn.resolve_left (by simp [Msg.lockNotices])
      · rfl
  | acqgrant hm =>
      show n ∈ ((h.y.setLock _ _).locks l).wtntp.nums
      rw [SynState.wtntp_setLock]
      · exact hn.resolve_left (by simp [Msg.lockNotices])
      · rfl
  | relNext hm hsrc hc hout => exact nums_recordRelease.mpr (hn.imp_left hnotices)
  | relLast hm hsrc hc => exact nums_recordRelease.mpr (hn.imp_left hnotices)
  | wtnt hm => exact SynState.mem_nums_recordwtnts.mpr (hn.imp_left hnotices)
  | barrCount hm hc =>
      have hold := hn.resolve_left (by simp [Msg.lockNotices])
      simpa [SynState.recordwtnts, SynState.setLock, hhide] using hold
  | barrLast hm hc hout =>
      have hold := hn.resolve_left (by simp [Msg.lockNotices])
      simpa [SynState.recordwtnts, SynState.setLock, hhide] using hold
  | barrgrant hm => exact absurd rfl (hne _ _ _)
  | _ => exact hn.resolve_left (by simp [Msg.lockNotices])

/-- BARRGRANT empties the lists of the locks that the host manages, unless it is told to keep
them. -/
theorem served_barrgrant {l : Nat} {scope : BitVec 32} {ns : List GrantNotice}
    (hs : Served cfg pid h src rnd (.barrgrant l scope ns) h' out) {k : Nat} (hk : k < Maxlocks)
    (hmgr : k % cfg.hostc = pid) :
    (h'.y.locks k).wtntp = if h.y.noclearlocks then (h.y.locks k).wtntp else .empty := by
  cases hs with
  | barrgrant hm =>
      obtain ⟨m, -, rfl⟩ := barrgrantserver_ok hm
      have hlist : ((h.y.endBarrier cfg pid).locks k).wtntp =
          if h.y.noclearlocks then (h.y.locks k).wtntp else .empty := by
        unfold SynState.endBarrier
        by_cases hflag : h.y.noclearlocks = true
        · simp [hflag]
        · simp [hflag, SynState.clearlocks, hk, hmgr]
      rw [← hlist]
      exact SynState.wtntp_setLock rfl

end Host

/-! ## The lists over a run -/

section Run

variable {cfg : Config}

/-- The early notices, and the notices of a release that is still to come, are in the list of
the lock at its manager; the flag is the one the history expects. -/
structure ReleasesOk (cfg : Config) (s : State) (log : ReleaseLog) : Prop where
  later : ∀ i, log.later i = (s.host i).y.noclearlocks
  part : ∀ src, ∀ l < Maxlocks, ∀ a ∈ log.part src l,
    pageNum a ∈ ((s.host (l % cfg.hostc)).y.locks l).wtntp.nums
  early : ∀ l < Maxlocks, ∀ a ∈ log.early l,
    pageNum a ∈ ((s.host (l % cfg.hostc)).y.locks l).wtntp.nums
  same : log.kept = log.met

namespace ReleasesOk

variable {s : State} {log : ReleaseLog}

theorem lists_put {i : Nat} {hst : Host} {out : Out} {net : Fifo.Net Msg}
    (hlists : ∀ l < Maxlocks, ∀ n ∈ ((s.host i).y.locks l).wtntp.nums,
      n ∈ (hst.y.locks l).wtntp.nums) :
    ∀ l < Maxlocks, ∀ n ∈ ((s.host (l % cfg.hostc)).y.locks l).wtntp.nums,
      n ∈ ((({ s with net := net }.put i hst out).host (l % cfg.hostc)).y.locks l).wtntp.nums := by
  intro l hl n hn
  by_cases hj : l % cfg.hostc = i
  · subst hj
    rw [State.put_host_same]
    exact hlists l hl n hn
  · rwa [State.put_host_of_ne _ _ _ hj]

theorem put {i : Nat} {hst : Host} {out : Out} {net : Fifo.Net Msg} (hok : ReleasesOk cfg s log)
    (hflag : hst.y.noclearlocks = (s.host i).y.noclearlocks)
    (hlists : ∀ l < Maxlocks, ∀ n ∈ ((s.host i).y.locks l).wtntp.nums,
      n ∈ (hst.y.locks l).wtntp.nums) :
    ReleasesOk cfg ({ s with net := net }.put i hst out) log where
  later j := by
    by_cases hj : j = i
    · subst hj
      rw [State.put_host_same, hflag, hok.later j]
    · rw [State.put_host_of_ne _ _ _ hj]
      exact hok.later j
  part src l hl a ha := lists_put hlists l hl _ (hok.part src l hl a ha)
  early l hl a ha := lists_put hlists l hl _ (hok.early l hl a ha)
  same := hok.same

theorem main {i : Nat} {a : Act} {hst : Host} {out : Out} (hok : ReleasesOk cfg s log)
    (hm : Host.Main cfg i (s.host i) a hst out) : ReleasesOk cfg (s.put i hst out) log := by
  apply hok.put (Host.main_managed hm).2
  intro l hl n hn
  rwa [(Host.main_managed hm).1]

section Deliver

variable {src dst : Nat} {rnd : List Nat} {msg : Msg} {hst : Host} {out : Out}

theorem other (hok : ReleasesOk cfg s log)
    (hm : Host.Served cfg dst (s.host dst) src rnd msg hst out)
    (hne : ∀ l scope ns, msg ≠ .barrgrant l scope ns)
    (hflag : hst.y.noclearlocks = (s.host dst).y.noclearlocks) :
    ReleasesOk cfg ({ s with net := Fifo.drop s.net src dst }.put dst hst out) log :=
  hok.put hflag fun _ hl _ hn => Host.served_nums hm hne hl (Or.inr hn)

theorem wtnt {l : Nat} {ns : List StackNotice} (hok : ReleasesOk cfg s log)
    (hm : Host.Served cfg dst (s.host dst) src rnd (.wtnt l ns) hst out) :
    ReleasesOk cfg ({ s with net := Fifo.drop s.net src dst }.put dst hst out)
      (log.noteWtnt src l ns) := by
  have hmgr : l % cfg.hostc = dst := by
    cases hm with
    | wtnt hl => exact hl
  have hrest := hok.other hm (by simp) (Host.served_noclearlocks hm)
  refine ⟨hrest.later, ?_, hrest.early, hrest.same⟩
  intro h k hk a ha
  simp only [ReleaseLog.noteWtnt] at ha
  split at ha
  · rename_i heq
    obtain ⟨rfl, rfl⟩ := heq
    rcases List.mem_append.mp ha with hold | hnew
    · exact hrest.part h k hk a hold
    · rw [hmgr, State.put_host_same]
      exact Host.served_nums hm (by simp) hk
        (Or.inl ⟨a, by simpa [Msg.lockNotices] using hnew, rfl⟩)
  · exact hrest.part h k hk a ha

theorem rel {l : Nat} {scope : BitVec 32} {ns : List StackNotice} (hok : ReleasesOk cfg s log)
    (hm : Host.Served cfg dst (s.host dst) src rnd (.rel l scope ns) hst out) :
    ReleasesOk cfg ({ s with net := Fifo.drop s.net src dst }.put dst hst out)
      (log.noteRel src dst l ((s.host dst).y.locks hidelock).myscope scope ns) := by
  have hmgr : l % cfg.hostc = dst := by
    cases hm with
    | relNext hl => exact hl
    | relLast hl => exact hl
  have hgrow := @lists_put cfg s dst hst out (Fifo.drop s.net src dst)
    fun _ hl _ hn => Host.served_nums hm (by simp) hl (Or.inr hn)
  refine ⟨?_, ?_, ?_, hok.same⟩
  · intro j
    by_cases hj : j = dst
    · subst hj
      simp only [ReleaseLog.noteRel, upd_same, State.put_host_same]
      rw [Host.served_noclearlocks hm, hok.later j]
    · simp only [ReleaseLog.noteRel, upd_of_ne _ _ hj, State.put_host_of_ne _ _ _ hj]
      exact hok.later j
  · intro h k hk a ha
    simp only [ReleaseLog.noteRel] at ha
    split at ha
    · cases ha
    · exact hgrow k hk _ (hok.part h k hk a ha)
  · intro k hk a ha
    simp only [ReleaseLog.noteRel] at ha
    split at ha
    · rename_i heq
      obtain ⟨rfl, -⟩ := heq
      rcases List.mem_append.mp ha with hold | hnew
      · rcases List.mem_append.mp hold with hearly | hpart
        · exact hgrow k hk _ (hok.early k hk a hearly)
        · exact hgrow k hk _ (hok.part src k hk a hpart)
      · rw [hmgr, State.put_host_same]
        exact Host.served_nums hm (by simp) hk
          (Or.inl ⟨a, by simpa [Msg.lockNotices] using hnew, rfl⟩)
    · exact hgrow k hk _ (hok.early k hk a ha)

/-- At a BARRGRANT the early notices are kept exactly when the flag is up or there are none. -/
theorem kept_iff {l : Nat} {scope : BitVec 32} {ns : List GrantNotice}
    (hok : ReleasesOk cfg s log)
    (hm : Host.Served cfg dst (s.host dst) src rnd (.barrgrant l scope ns) hst out) :
    log.Kept cfg dst hst.y ↔ log.Met cfg dst := by
  have hlists : ∀ k < Maxlocks, k % cfg.hostc = dst → (hst.y.locks k).wtntp =
      if (s.host dst).y.noclearlocks then ((s.host dst).y.locks k).wtntp else .empty :=
    fun k hk hmgr => Host.served_barrgrant hm hk hmgr
  unfold ReleaseLog.Kept ReleaseLog.Met
  rw [hok.later dst]
  by_cases hflag : (s.host dst).y.noclearlocks = true
  · simp only [hflag, true_or, iff_true]
    intro k hk hmgr a ha
    rw [hlists k hk hmgr, if_pos hflag]
    subst hmgr
    exact hok.early k hk a ha
  · simp only [hflag, Bool.false_eq_true, false_or]
    constructor
    · intro hkept k hk hmgr
      apply List.eq_nil_iff_forall_not_mem.mpr
      intro a ha
      have hmem := hkept k hk hmgr a ha
      rw [hlists k hk hmgr, if_neg hflag, WtntList.nums_empty] at hmem
      cases hmem
    · intro hnone k hk hmgr a ha
      rw [hnone k hk hmgr] at ha
      cases ha

theorem barrgrant {l : Nat} {scope : BitVec 32} {ns : List GrantNotice}
    (hok : ReleasesOk cfg s log)
    (hm : Host.Served cfg dst (s.host dst) src rnd (.barrgrant l scope ns) hst out) :
    ReleasesOk cfg ({ s with net := Fifo.drop s.net src dst }.put dst hst out)
      (log.noteBarrgrant cfg dst hst.y) := by
  have hother : ∀ k, k % cfg.hostc ≠ dst →
      ({ s with net := Fifo.drop s.net src dst }.put dst hst out).host (k % cfg.hostc) =
        s.host (k % cfg.hostc) := fun k hk => State.put_host_of_ne _ _ _ hk
  refine ⟨?_, ?_, ?_, ?_⟩
  · intro j
    by_cases hj : j = dst
    · subst hj
      simp only [ReleaseLog.noteBarrgrant, upd_same, State.put_host_same]
      exact (Host.served_noclearlocks hm).symm
    · simp only [ReleaseLog.noteBarrgrant, upd_of_ne _ _ hj, State.put_host_of_ne _ _ _ hj]
      exact hok.later j
  · intro h k hk a ha
    simp only [ReleaseLog.noteBarrgrant] at ha
    split at ha
    · cases ha
    · rename_i hmgr
      rw [hother k hmgr]
      exact hok.part h k hk a ha
  · intro k hk a ha
    simp only [ReleaseLog.noteBarrgrant] at ha
    split at ha
    · cases ha
    · rename_i hmgr
      rw [hother k hmgr]
      exact hok.early k hk a ha
  · show (log.kept && decide (log.Kept cfg dst hst.y)) = (log.met && decide (log.Met cfg dst))
    rw [hok.same, decide_eq_decide.mpr (hok.kept_iff hm)]

theorem deliver (hok : ReleasesOk cfg s log)
    (hm : Host.Served cfg dst (s.host dst) src rnd msg hst out) :
    ReleasesOk cfg ({ s with net := Fifo.drop s.net src dst }.put dst hst out)
      (log.noteHandled cfg src dst (s.host dst) hst (some msg)) := by
  cases msg with
  | wtnt l ns => exact hok.wtnt hm
  | rel l scope ns => exact hok.rel hm
  | barrgrant l scope ns => exact hok.barrgrant hm
  | _ => exact hok.other hm (by simp) (Host.served_noclearlocks hm)

end Deliver

end ReleasesOk

theorem reach_releasesOk {x : State × ReleaseLog}
    (hx : ((system cfg).withHist (releaseHistory cfg)).Reach x) : ReleasesOk cfg x.1 x.2 := by
  refine hx.invariant (I := fun x => ReleasesOk cfg x.1 x.2) ?_ ?_
  · constructor
    · exact fun _ => rfl
    · exact fun _ _ _ _ ha => by cases ha
    · exact fun _ _ _ ha => by cases ha
    · rfl
  · intro x e x' hreach hok hnext
    obtain ⟨s, log⟩ := x
    obtain ⟨s', log'⟩ := x'
    obtain ⟨hstep, hlog⟩ := hnext
    dsimp only at hstep hlog hok ⊢
    subst hlog
    rcases step_view hstep with ⟨i, a, hst, out, rfl, hi, hm, -, rfl⟩ |
      ⟨src, dst, rnd, msg, rest, hst, out, rfl, hnet, hm, -, rfl⟩
    · have hmain := hok.main hm
      exact ⟨hmain.later, hmain.part, hmain.early, hmain.same⟩
    · have hdeliver := hok.deliver hm
      simpa only [releaseHistory, handled, hnet, List.head?_cons, State.put_host_same]
        using hdeliver

/-- In a run no lock notice is lost at a barrier if and only if, at every BARRGRANT, there was
none to keep or a release with a later scope had been handled. -/
theorem early_notices_kept {x : State × ReleaseLog}
    (hx : ((system cfg).withHist (releaseHistory cfg)).Reach x) :
    x.2.kept = true ↔ x.2.met = true := by
  have hsame := (reach_releasesOk hx).same
  rw [hsame]

end Run

/-! ## A release that overtakes a grant -/

/-- Both hosts reach the barrier.  Host 1 leaves it, writes the page of host 0 under lock 0
and releases the lock; the grant of host 0 is still on its way. -/
def earlyRelease : List Event :=
  [.main 0 .barrier, .main 0 .go, .main 0 .go, .main 0 .go,
    .main 1 .barrier, .main 1 .go, .main 1 .go, .deliver 0 0 [], .deliver 1 0 [],
    .deliver 0 1 [], .main 1 .go,
    .main 1 (.lock 0), .main 1 .go, .main 1 .go, .deliver 1 0 [], .deliver 0 1 [], .main 1 .go,
    .main 1 (.fault 0 true 0), .deliver 1 0 [], .deliver 0 1 [], .main 1 .go,
    .main 1 (.fault 0 true 0), .main 1 .go, .main 1 (.store 0 Config.unit0 7),
    .main 1 (.unlock 0), .main 1 .go, .deliver 1 0 [], .deliver 0 1 [], .main 1 .go,
    .deliver 1 0 []]

/-- Host 1 has returned from the barrier, and the notice of its release is in the list of the
lock; host 0 handles its grant next, and the list is empty. -/
def losesNotice (x : State × ReleaseLog) : Bool :=
  decide (x.2.calls.returned 1 = 1 ∧ x.2.grants 0 = 0 ∧
    Config.onePage.pageAddr 0 ∈ x.2.early 0 ∧
    pageNum (Config.onePage.pageAddr 0) ∈ ((x.1.host 0).y.locks 0).wtntp.nums) &&
  (step .onePage x.1 (.deliver 0 0 [])).toOption.any fun s' =>
    ((s'.host 0).y.locks 0).wtntp.nums == [] &&
    !((releaseHistory .onePage).obs x.2 x.1 (.deliver 0 0 []) s').kept

theorem exists_losesNotice : ∃ x x',
    ((system .onePage).withHist (releaseHistory .onePage)).Reach x ∧
    ((system .onePage).withHist (releaseHistory .onePage)).next x (.deliver 0 0 []) x' ∧
    (x.2.calls.returned 1 = 1 ∧ x.2.grants 0 = 0 ∧
      Config.onePage.pageAddr 0 ∈ x.2.early 0 ∧
      pageNum (Config.onePage.pageAddr 0) ∈ ((x.1.host 0).y.locks 0).wtntp.nums) ∧
    ((x'.1.host 0).y.locks 0).wtntp.nums = [] ∧ x'.2.kept = false := by
  obtain ⟨x, hx, hcheck⟩ := exists_execHist .onePage (releaseHistory .onePage) earlyRelease
    losesNotice (by decide +kernel)
  unfold losesNotice at hcheck
  rw [Bool.and_eq_true] at hcheck
  obtain ⟨hbefore, hafter⟩ := hcheck
  cases hstep : step .onePage x.1 (.deliver 0 0 []) with
  | ok s' =>
      simp only [hstep, Except.toOption, Option.any_some, Bool.and_eq_true,
        Bool.not_eq_true'] at hafter
      exact ⟨x, (s', _), hx, ⟨hstep, rfl⟩, of_decide_eq_true hbefore, beq_iff_eq.mp hafter.1,
        hafter.2⟩
  | error what =>
      rw [hstep] at hafter
      cases hafter

/-- The notices of the early release are gone after the BARRGRANT. -/
theorem early_release_lost : ∃ x x',
    ((system .onePage).withHist (releaseHistory .onePage)).Reach x ∧
    ((system .onePage).withHist (releaseHistory .onePage)).next x (.deliver 0 0 []) x' ∧
    (x.2.calls.returned 1 = 1 ∧ x.2.grants 0 = 0 ∧
      Config.onePage.pageAddr 0 ∈ x.2.early 0 ∧
      pageNum (Config.onePage.pageAddr 0) ∈ ((x.1.host 0).y.locks 0).wtntp.nums) ∧
    ((x'.1.host 0).y.locks 0).wtntp.nums = [] ∧ x'.2.kept = false :=
  exists_losesNotice

theorem early_notices_kept_earlyRelease :
    ∃ x, ((system .onePage).withHist (releaseHistory .onePage)).Reach x ∧
      x.2.kept = false ∧ x.2.met ≠ true := by
  obtain ⟨x, x', hx, hnext, -, -, hlost⟩ := exists_losesNotice
  have hx' := hx.step hnext
  refine ⟨x', hx', hlost, ?_⟩
  intro hmet
  have hkept := (early_notices_kept hx').mpr hmet
  rw [hlost] at hkept
  cases hkept

end Jiajia
