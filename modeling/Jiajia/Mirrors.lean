import Jiajia.Views

/-!
# A word of shared memory as a location of `BulkSync`

Between two barriers hosts write a word in private and flush it to the home.  A copy
that the home has overtaken is announced with the next barrier and dropped before its
host leaves it.
-/

namespace Jiajia

open Fifo Transition Host MemState Rounds

variable {cfg : Config}

/-! ## The history -/

/-- The last store of each host to a word on its way to each barrier, and the pages at
their homes when the barriers ended. -/
structure MemLog where
  stored : Nat → Nat → Nat → Fin Pageunits → Option Word
  final : Nat → Nat → Page

/-- The pages when the hosts left for barrier `r`. -/
def MemLog.start (ml : MemLog) : Nat → Nat → Page
  | 0 => fun _ => zeroPage
  | r + 1 => ml.final r

/-- The main thread of host `i` has taken step `a` on its way to barrier `r`. -/
def noteStore (r i : Nat) (stored : Nat → Nat → Nat → Fin Pageunits → Option Word) :
    Act → Nat → Nat → Nat → Fin Pageunits → Option Word
  | .store p u v => fun j k q u' =>
      if j = i ∧ k = r ∧ q = p ∧ u' = u then some v else stored j k q u'
  | _ => stored

/-- The pages at their homes, until barrier `rounds` ends. -/
def noteHomes (cfg : Config) (rounds : Nat) (final : Nat → Nat → Page) (s' : State) :
    Nat → Nat → Page :=
  fun r p => if r = rounds then (s'.host (cfg.layout.owner p)).m.mem p else final r p

def memHistory (cfg : Config) : System.Observer State Event (ClearLog × MemLog) :=
  (clearHistory cfg).chain ⟨fun _ _ _ _ => none, fun _ _ => zeroPage⟩ fun cl ml _ e s' =>
    { stored := match e with
        | .main i a => noteStore (cl.1.granted i) i ml.stored a
        | .deliver _ _ _ => ml.stored
      final := noteHomes cfg cl.1.rounds ml.final s' }

theorem noteStore_other {r i : Nat} {stored : Nat → Nat → Nat → Fin Pageunits → Option Word}
    {a : Act} {p : Nat} {u : Fin Pageunits} (hno : ∀ w, a ≠ .store p u w) (j k : Nat) :
    noteStore r i stored a j k p u = stored j k p u := by
  cases a with
  | store q u' w =>
      refine if_neg ?_
      rintro ⟨-, -, rfl, rfl⟩
      exact hno w rfl
  | _ => rfl

/-! ## One word -/

/-- The notice of the last barrier makes host `i` drop its copy of page `p`. -/
def Pending (cfg : Config) (s : State) (log : RoundLog) (p i : Nat) : Prop :=
  log.granted i + 1 = log.rounds ∧ ∃ n, dueNotice cfg s p i = some n ∧ n.fromPid ≠ i

/-- Word `u` of page `p` in a state and its history.  A copy the home has overtaken will
be dropped before its host leaves the barrier. -/
structure Mirrors (cfg : Config) (p : Nat) (u : Fin Pageunits) (s : State) (log : RoundLog)
    (ml : MemLog) (b : BulkSync.State (Fin cfg.hostc) Word) : Prop where
  home : b.home = (s.host (cfg.layout.owner p)).m.mem p u
  round : ∀ i : Fin cfg.hostc, b.round i = log.granted i
  done : b.done = log.rounds
  stored : ∀ (i : Fin cfg.hostc) r, b.stored i r = ml.stored i r p u
  final : ∀ r < log.rounds, b.final r = ml.final r p u
  copy : ∀ i : Fin cfg.hostc, i.val ≠ cfg.layout.owner p →
    ∃ c, CopyAt cfg (s.host i) p c ∧ Shows cfg s p u i c (b.copy i)
  late : ∀ i : Fin cfg.hostc, i.val ≠ cfg.layout.owner p → b.copy i ≠ .none → ∀ r, b.late i r →
    Pending cfg s log p i ∨ r = log.rounds ∧ ∃ g < cfg.hostc, g ≠ i.val ∧ WillTell cfg s log p g
  tell : ∀ (i : Fin cfg.hostc) w base, b.copy i = .dirty w base → WillTell cfg s log p i

/-- The home of page `p`. -/
def homeOf (cfg : Config) {p : Nat} (hp : p < cfg.npages) : Fin cfg.hostc :=
  ⟨cfg.layout.owner p, cfg.layout.owner_lt p hp⟩

section Mirrors

variable {p : Nat} {u : Fin Pageunits} {s : State} {log : RoundLog} {ml : MemLog}
  {b : BulkSync.State (Fin cfg.hostc) Word}

theorem hostc_ne_one (hp : p < cfg.npages) {i : Nat} (hi : i < cfg.hostc)
    (haway : i ≠ cfg.layout.owner p) : cfg.hostc ≠ 1 := by
  have howner := cfg.layout.owner_lt p hp
  omega

theorem CopyAt.cached {h : Host} {c : CopyState} (hat : CopyAt cfg h p c) (habs : c ≠ .absent)
    (hinv : c ≠ .invalid) : h.m.Cached cfg p := by
  cases hat with
  | absent => exact absurd rfl habs
  | invalid => exact absurd rfl hinv
  | clean hc hst => exact ⟨hc, Or.inl hst⟩
  | dirty _ hc hst => exact ⟨hc, Or.inr hst⟩
  | faulting w hc hst =>
      refine ⟨hc, ?_⟩
      cases hw : w.writefault with
      | true => exact Or.inr (by rw [hst, hw, if_pos rfl])
      | false => exact Or.inl (by rw [hst, hw, if_neg Bool.false_ne_true])

theorem Shows.holds {i : Nat} {c : CopyState} {v : BulkSync.Copy Word}
    (hat : CopyAt cfg (s.host i) p c) (hv : Shows cfg s p u i c v) (hne : v ≠ .none) :
    (s.host i).HoldsPage cfg p ∨ InFlight cfg s p i := by
  have hwaits : (∀ w, c = .faulting w → (s.host i).m.getpwait = false) →
      ¬ (s.host i).Awaits p := by
    rintro hidle ⟨w, hpc, hpage, hset⟩
    rw [hidle w (hat.of_fault hpc hpage)] at hset
    cases hset
  cases hv with
  | absent => exact absurd rfl hne
  | invalid => exact absurd rfl hne
  | asked => exact absurd rfl hne
  | answered w a wv data _ hmsg => exact Or.inr ⟨a, _, wv, data, [], hmsg, Or.inl rfl⟩
  | clean => exact Or.inl ⟨hat.cached nofun nofun, hwaits nofun⟩
  | dirty => exact Or.inl ⟨hat.cached nofun nofun, hwaits nofun⟩
  | flushed => exact Or.inl ⟨hat.cached nofun nofun, hwaits nofun⟩
  | here _ hidle => exact Or.inl ⟨hat.cached nofun nofun, hwaits fun _ _ => hidle⟩

theorem Shows.unflushed {i : Nat} {c : CopyState} {w base : Word}
    (hv : Shows cfg s p u i c (.dirty w base)) : Unflushed cfg s p i := by
  cases hv with
  | dirty _ hopen => exact hopen

/-! ## Steps of main threads -/

section Main

variable {i : Nat} {a : Act} {hst : Host} {out : Out} {cl : Nat → Nat → Option Nat}

/-- The history after a step of a main thread. -/
def MemLog.afterMain (cfg : Config) (ml : MemLog) (log : RoundLog) (i : Nat) (a : Act) (s' : State) :
    MemLog where
  stored := noteStore (log.granted i) i ml.stored a
  final := noteHomes cfg log.rounds ml.final s'

theorem Mirrors.running (hmir : Mirrors cfg p u s log ml b) (hok : (Barrier.rounds cfg).Ok (s, log))
    {i : Fin cfg.hostc} (hstack : StackOk (s.host i)) (hpc : (s.host i).pc ≠ .barrwait) :
    b.round i = b.done := by
  rw [hmir.round, hmir.done]
  exact (up_to_date hok i.isLt (hstack.barrwait_down hpc)).1

theorem shows_main_others (hreach : (system cfg).Reach s) (hmir : Mirrors cfg p u s log ml b)
    (hm : Main cfg i (s.host i) a hst out) {j : Fin cfg.hostc} (hj : j.val ≠ i)
    (haway : j.val ≠ cfg.layout.owner p) :
    ∃ c, CopyAt cfg ((s.put i hst out).host j) p c ∧
      Shows cfg (s.put i hst out) p u j c (b.copy j) := by
  obtain ⟨c, hat, hv⟩ := hmir.copy j haway
  have hhost : (s.put i hst out).host j = s.host j := State.put_host_of_ne _ _ _ hj
  exact ⟨c, by rwa [hhost], hv.other hat hhost (replies_main (reach_stackOk hreach i) hm)
    (flushing_main_other hj)⟩

/-- A step ends no barrier and lets nobody leave one, and announcements stay. -/
structure KeepsTold (cfg : Config) (p : Nat) (s s' : State) (log log' : RoundLog) : Prop where
  rounds : log'.rounds = log.rounds
  granted : log'.granted = log.granted
  told : cfg.hostc ≠ 1 → ∀ g, WillTell cfg s log p g → WillTell cfg s' log' p g

theorem KeepsTold.pending {s' : State} {log' : RoundLog} (hkeep : KeepsTold cfg p s s' log log')
    {j : Nat} (hdue : dueNotice cfg s' p j = dueNotice cfg s p j) (hpend : Pending cfg s log p j) :
    Pending cfg s' log' p j := by
  obtain ⟨hr, n, hn, hfrom⟩ := hpend
  exact ⟨by rw [hkeep.granted, hkeep.rounds, hr], n, hdue.trans hn, hfrom⟩

theorem keepsTold_main (hp : p < cfg.npages) (hi : i < cfg.hostc) (hreach : (system cfg).Reach s)
    (hok : (Barrier.rounds cfg).Ok (s, log)) (hm : Main cfg i (s.host i) a hst out) :
    KeepsTold cfg p s (s.put i hst out) log ((Barrier.rounds cfg).noteSent log i out) := by
  obtain ⟨hrounds, hgranted, -⟩ := noteSent_frame (Barrier.rounds cfg) log i out
  exact ⟨hrounds, hgranted, fun hhost g ht =>
    willTell_main hi hp hok (reach_runOk hhost hreach i).1 hm ht⟩

theorem Mirrors.next {s' : State} {log' : RoundLog} {ml' : MemLog}
    {b' : BulkSync.State (Fin cfg.hostc) Word} (hp : p < cfg.npages)
    (hmir : Mirrors cfg p u s log ml b) (hkeep : KeepsTold cfg p s s' log log')
    (hpend : ∀ i : Fin cfg.hostc, b'.copy i ≠ .none → Pending cfg s log p i →
      Pending cfg s' log' p i)
    (hround : b'.round = b.round) (hdone : b'.done = b.done) (hfinal : b'.final = b.final)
    (hhome : b'.home = (s'.host (cfg.layout.owner p)).m.mem p u)
    (hstored : ∀ (i : Fin cfg.hostc) r, b'.stored i r = ml'.stored i r p u)
    (hfinals : ∀ r < log.rounds, ml'.final r p u = ml.final r p u)
    (hcopy : ∀ i : Fin cfg.hostc, i.val ≠ cfg.layout.owner p →
      ∃ c, CopyAt cfg (s'.host i) p c ∧ Shows cfg s' p u i c (b'.copy i))
    (hlate : ∀ i : Fin cfg.hostc, i.val ≠ cfg.layout.owner p → b'.copy i ≠ .none →
      ∀ r, b'.late i r → b.copy i ≠ .none ∧ b.late i r ∨ Pending cfg s' log' p i ∨
        r = log.rounds ∧ ∃ g < cfg.hostc, g ≠ i.val ∧ WillTell cfg s' log' p g)
    (htell : ∀ (i : Fin cfg.hostc) w base, b'.copy i = .dirty w base →
      (∃ w base, b.copy i = .dirty w base) ∨ WillTell cfg s' log' p i)
    (hself : ∀ i : Fin cfg.hostc, i.val = cfg.layout.owner p → b.copy i = .none) :
    Mirrors cfg p u s' log' ml' b' where
  home := hhome
  round i := by rw [hround, hmir.round, hkeep.granted]
  done := by rw [hdone, hmir.done, hkeep.rounds]
  stored := hstored
  final r hr := by
    rw [hkeep.rounds] at hr
    rw [hfinal, hmir.final r hr, hfinals r hr]
  copy := hcopy
  late i hi hc r hl := by
    rw [hkeep.rounds]
    rcases hlate i hi hc r hl with ⟨hc', hl'⟩ | hnew
    · rcases hmir.late i hi hc' r hl' with hdue | ⟨hr, g, hg, hne, ht⟩
      · exact Or.inl (hpend i hc hdue)
      · exact Or.inr ⟨hr, g, hg, hne, hkeep.told (hostc_ne_one hp i.isLt hi) g ht⟩
    · exact hnew
  tell i w base hc := by
    rcases htell i w base hc with ⟨w', base', hc'⟩ | hnew
    · refine hkeep.told (hostc_ne_one hp i.isLt ?_) i (hmir.tell i w' base' hc')
      intro heq
      rw [hself i heq] at hc'
      cases hc'
    · exact hnew

/-- A copy of a page whose home finds no flag set is about to be dropped. -/
theorem pending_of_unflagged (hb : cfg.Basic) (hp : p < cfg.npages) (hreach : (system cfg).Reach s)
    (hok : (Barrier.rounds cfg).Ok (s, log))
    (hdir : Directory.Inv cfg.hostc (pageView cfg p (s, (log, cl))))
    (hpc : (s.host (cfg.layout.owner p)).pc = .app)
    (hflag : (s.host (cfg.layout.owner p)).m.rdnt p = false) {j : Nat} (hj : j < cfg.hostc)
    (haway : j ≠ cfg.layout.owner p)
    (hholds : (s.host j).HoldsPage cfg p ∨ InFlight cfg s p j) : Pending cfg s log p j := by
  have howner := cfg.layout.owner_lt p hp
  have hstack := reach_stackOk hreach (cfg.layout.owner p)
  have hup := up_to_date hok howner (hstack.barrwait_down (by rw [hpc]; exact nofun))
  have hseen : ((s.host (cfg.layout.owner p)).m.page p).homepid = cfg.layout.owner p :=
    reach_homepid hb.hMig hreach _ hp
  have hhome : cfg.layout.owner p = (pageView cfg p (s, (log, cl))).home :=
    hseen.symm.trans ((hdir.known _ howner).up_to_date hup.1).2
  rcases hdir.safe _ howner hhome hseen hflag with ⟨-, htold, -⟩ | ⟨-, hclean⟩
  · -- the home has announced nothing while its main thread runs
    cases htold with
    | scan i n hpc' => rw [hpc] at hpc'; cases hpc'
    | drain hpc' => rw [hpc] at hpc'; cases hpc'
    | sent msg nt hmsg =>
        have hnil : log.offered (cfg.layout.owner p) log.rounds = [] :=
          hok.records.late _ log.rounds hup.2.le
        rw [hnil] at hmsg
        cases hmsg
  · obtain ⟨hgranted, -, nt, hdue, hwriter⟩ := hclean j hj haway hholds
    obtain ⟨n, hn, rfl⟩ := Option.map_eq_some_iff.mp hdue
    exact ⟨hgranted, n, hn, hwriter⟩

theorem mirror_storeHome (hb : cfg.Basic) (hp : p < cfg.npages) (hreach : (system cfg).Reach s)
    (hok : (Barrier.rounds cfg).Ok (s, log))
    (hdir : Directory.Inv cfg.hostc (pageView cfg p (s, (log, cl))))
    (hinv : BulkSync.Inv (homeOf cfg hp) 0 b) (hmir : Mirrors cfg p u s log ml b) {w : Word}
    (hm : Main cfg (cfg.layout.owner p) (s.host (cfg.layout.owner p)) (.store p u w) hst out)
    (hpc : (s.host (cfg.layout.owner p)).pc = .app)
    (hprot : (s.host (cfg.layout.owner p)).m.prot p = .readWrite) (hcur : hst.m.mem p u = w) :
    ∃ b', BulkSync.Inv (homeOf cfg hp) 0 b' ∧
      Mirrors cfg p u (s.put (cfg.layout.owner p) hst out)
        ((Barrier.rounds cfg).noteSent log (cfg.layout.owner p) out)
        (ml.afterMain cfg log (cfg.layout.owner p) (.store p u w)
          (s.put (cfg.layout.owner p) hst out)) b' := by
  have howner := cfg.layout.owner_lt p hp
  have hstack := reach_stackOk hreach (cfg.layout.owner p)
  have hround : b.round (homeOf cfg hp) = b.done :=
    hmir.running hok hstack (by rw [homeOf, hpc]; exact nofun)
  have hkeep := keepsTold_main hp howner hreach hok hm
  refine ⟨(b.overtake (homeOf cfg hp) w).note (homeOf cfg hp) w, hinv.storeHome hround, ?_⟩
  have hpend : ∀ j, Pending cfg s log p j → Pending cfg (s.put (cfg.layout.owner p) hst out)
      ((Barrier.rounds cfg).noteSent log (cfg.layout.owner p) out) p j :=
    fun j => hkeep.pending (dueNotice_main hstack hm p j)
  refine hmir.next hp hkeep (fun j _ => hpend j) rfl rfl rfl ?_ ?_ ?_ ?_ ?_ ?_ ?_
  · rw [State.put_host_same]
    exact hcur.symm
  · intro j r
    rw [BulkSync.note_stored]
    change _ = if j.val = cfg.layout.owner p ∧ r = log.granted (cfg.layout.owner p) ∧ p = p ∧ u = u
      then some w else ml.stored j r p u
    have hgranted : log.granted (cfg.layout.owner p) = b.done := by
      rw [← hround]
      exact (hmir.round (homeOf cfg hp)).symm
    have hiff : j = homeOf cfg hp ↔ j.val = cfg.layout.owner p := Fin.ext_iff
    have hdone : (b.overtake (homeOf cfg hp) w).done = b.done := rfl
    have hst' : (b.overtake (homeOf cfg hp) w).stored j r = b.stored j r := rfl
    rw [hgranted, hdone, hst', hmir.stored]
    simp only [hiff, and_true]
  · exact fun r hr => congrFun (if_neg (Nat.ne_of_lt hr)) u
  · intro j hj
    exact shows_main_others hreach hmir hm hj hj
  · rintro j hj hc r (hl | ⟨-, rfl⟩)
    · exact Or.inl ⟨hc, hl⟩
    · right
      have hhost := hostc_ne_one hp j.isLt hj
      obtain ⟨c, hat, hv⟩ := hmir.copy j hj
      cases hflag : (s.host (cfg.layout.owner p)).m.rdnt p with
      | false =>
          exact Or.inl (hpend j (pending_of_unflagged hb hp hreach hok hdir hpc hflag j.isLt hj
            (hv.holds hat hc)))
      | true =>
          refine Or.inr ⟨hmir.done, cfg.layout.owner p, howner, Ne.symm hj, hkeep.told hhost _ ?_⟩
          exact willTell_home (reach_runOk hhost hreach _).1 (reach_filled hb.hMig hreach _) hp hpc
            hprot (reach_homepid hb.hMig hreach _ hp) hflag
  · exact fun j w base hc => Or.inl ⟨w, base, hc⟩
  · intro j hj
    have heq : j = homeOf cfg hp := Fin.ext hj
    rw [heq]
    exact hinv.home_copy

theorem Mirrors.next_copy {v v' : BulkSync.Copy Word} {c' : CopyState} (hp : p < cfg.npages)
    (hi : i < cfg.hostc) (haway : i ≠ cfg.layout.owner p) (hreach : (system cfg).Reach s)
    (hok : (Barrier.rounds cfg).Ok (s, log))
    (hmir : Mirrors cfg p u s log ml b) (hinv : BulkSync.Inv (homeOf cfg hp) 0 b)
    (hm : Main cfg i (s.host i) a hst out) (hv : b.copy ⟨i, hi⟩ = v) (hat' : CopyAt cfg hst p c')
    (hv' : Shows cfg (s.put i hst out) p u i c' v')
    (b' : BulkSync.State (Fin cfg.hostc) Word) (hround : b'.round = b.round)
    (hdone : b'.done = b.done) (hfinal : b'.final = b.final) (hhome : b'.home = b.home)
    (hlate : b'.late = b.late)
    (hcopy : ∀ j, b'.copy j = if j = ⟨i, hi⟩ then v' else b.copy j)
    (hstored : ∀ (j : Fin cfg.hostc) r,
      b'.stored j r = (ml.afterMain cfg log i a (s.put i hst out)).stored j r p u)
    (hsome : v' ≠ .none → v ≠ .none)
    (htell : ∀ w base, v' = .dirty w base → (∃ w base, v = .dirty w base) ∨
      WillTell cfg (s.put i hst out) ((Barrier.rounds cfg).noteSent log i out) p i) :
    Mirrors cfg p u (s.put i hst out) ((Barrier.rounds cfg).noteSent log i out)
      (ml.afterMain cfg log i a (s.put i hst out)) b' := by
  have hkeep := keepsTold_main hp hi hreach hok hm
  refine hmir.next hp hkeep
    (fun j _ => hkeep.pending (dueNotice_main (reach_stackOk hreach i) hm p j))
    hround hdone hfinal ?_ hstored
    (fun r hr => congrFun (if_neg (Nat.ne_of_lt hr)) u) ?_ ?_ ?_ ?_
  · rw [hhome, hmir.home, State.put_host_of_ne _ _ _ (Ne.symm haway)]
  · intro j hj
    rw [hcopy]
    by_cases hji : j = ⟨i, hi⟩
    · subst hji
      rw [if_pos rfl, State.put_host_same]
      exact ⟨c', hat', hv'⟩
    · rw [if_neg hji]
      exact shows_main_others hreach hmir hm (fun heq => hji (Fin.ext heq)) hj
  · intro j hj hc r hl
    rw [hlate] at hl
    refine Or.inl ⟨?_, hl⟩
    rw [hcopy] at hc
    split at hc
    · rename_i hji
      rw [hji, hv]
      exact hsome hc
    · exact hc
  · intro j w base hc
    rw [hcopy] at hc
    split at hc
    · rename_i hji
      rw [hji, hv]
      exact htell w base hc
    · exact Or.inl ⟨w, base, hc⟩
  · intro j hj
    have heq : j = homeOf cfg hp := Fin.ext hj
    rw [heq]
    exact hinv.home_copy

theorem mirror_main (hb : cfg.Basic) (hp : p < cfg.npages) (hi : i < cfg.hostc)
    (hreach : (system cfg).Reach s) (hreach' : (system cfg).Reach (s.put i hst out))
    (hok : (Barrier.rounds cfg).Ok (s, log))
    (hdir : Directory.Inv cfg.hostc (pageView cfg p (s, (log, cl))))
    (hinv : BulkSync.Inv (homeOf cfg hp) 0 b) (hmir : Mirrors cfg p u s log ml b)
    (hm : Main cfg i (s.host i) a hst out) :
    ∃ b', BulkSync.Inv (homeOf cfg hp) 0 b' ∧
      Mirrors cfg p u (s.put i hst out) ((Barrier.rounds cfg).noteSent log i out)
        (ml.afterMain cfg log i a (s.put i hst out)) b' := by
  have hquiet : (∀ w, a ≠ .store p u w) → ∀ (j : Fin cfg.hostc) r,
      b.stored j r = (ml.afterMain cfg log i a (s.put i hst out)).stored j r p u := by
    intro hno j r
    rw [hmir.stored]
    exact (noteStore_other hno j r).symm
  by_cases hhome : i = cfg.layout.owner p
  · subst hhome
    rcases home_main (u := u) hb hreach hp hm with ⟨w, rfl, hpc, hprot, hcur⟩ | ⟨hno, hcur⟩
    · exact mirror_storeHome hb hp hreach hok hdir hinv hmir hm hpc hprot hcur
    · have hkeep := keepsTold_main hp hi hreach hok hm
      refine ⟨b, hinv, hmir.next hp hkeep
        (fun j _ => hkeep.pending (dueNotice_main (reach_stackOk hreach _) hm p j)) rfl rfl rfl ?_
        (hquiet hno) (fun r hr => congrFun (if_neg (Nat.ne_of_lt hr)) u) ?_ ?_ ?_ ?_⟩
      · rw [State.put_host_same, hcur]
        exact hmir.home
      · exact fun j hj => shows_main_others hreach hmir hm hj hj
      · exact fun j hj hc r hl => Or.inl ⟨hc, hl⟩
      · exact fun j w base hc => Or.inl ⟨w, base, hc⟩
      · intro j hj
        have heq : j = homeOf cfg hp := Fin.ext hj
        rw [heq]
        exact hinv.home_copy
  · -- host `i` has a copy
    have hne : (⟨i, hi⟩ : Fin cfg.hostc) ≠ homeOf cfg hp := fun heq => hhome (Fin.ext_iff.mp heq)
    obtain ⟨c, hat, hv⟩ := hmir.copy ⟨i, hi⟩ hhome
    obtain ⟨c', v', hat', hv', hshown⟩ := shows_main hb hreach hreach' hp hhome hat hv hm
    have hrunning : Running (s.host i) → b.round ⟨i, hi⟩ = b.done := fun hrun =>
      hmir.running hok (reach_stackOk hreach i) hrun.not_barrwait
    have hset : ∀ v' j, (b.setCopy ⟨i, hi⟩ v').copy j = if j = ⟨i, hi⟩ then v' else b.copy j :=
      BulkSync.setCopy_copy b ⟨i, hi⟩
    have hnext := hmir.next_copy hp hi hhome hreach hok hinv hm rfl hat' hv'
    generalize hvb : b.copy ⟨i, hi⟩ = v at hv hshown hnext
    cases hshown with
    | same _ hno =>
        refine ⟨b, hinv, hnext b rfl rfl rfl rfl rfl ?_ (hquiet hno) id
          fun w base heq => Or.inl ⟨w, base, heq⟩⟩
        intro j
        split
        · rename_i hj
          rw [hj, hvb]
        · rfl
    | store w v₀ base hrun ha =>
        subst ha
        refine ⟨_, hinv.store hne (hrunning hrun) hvb (v := w), hnext _ rfl rfl rfl rfl rfl (hset _) ?_
          nofun fun w₁ base₁ _ => Or.inl ⟨v₀, base, rfl⟩⟩
        intro j r
        rw [BulkSync.note_stored]
        change _ = if j.val = i ∧ r = log.granted i ∧ p = p ∧ u = u then some w else ml.stored j r p u
        have hgranted : log.granted i = b.done := (hmir.round ⟨i, hi⟩).symm.trans (hrunning hrun)
        have hiff : j = ⟨i, hi⟩ ↔ j.val = i := Fin.ext_iff
        rw [hgranted, ← hmir.stored]
        simp only [hiff, and_true]
        rfl
    | openCopy v₀ hno hrun hrun' hw =>
        refine ⟨_, hinv.openCopy hne (hrunning hrun) hvb, hnext _ rfl rfl rfl rfl rfl (hset _)
          (hquiet hno) nofun ?_⟩
        intro w base _
        refine Or.inr (.written ?_ ?_)
        · rw [State.put_host_same]
          exact hrun'
        · rw [State.put_host_same]
          exact hw
    | drop _ hno hnd =>
        exact ⟨_, hinv.dropCopy (by rw [hvb]; exact hnd), hnext _ rfl rfl rfl rfl rfl (hset _)
          (hquiet hno) (fun hcon => absurd rfl hcon) nofun⟩

end Main

/-! ## Steps of server threads -/

section Served

variable {src dst : Nat} {rnd : List Nat} {msg : Msg} {rest : List Msg} {hst : Host} {out : Out}

/-- What a message does to a word: a written copy is flushed, a copy is dropped or the
home hands one out. -/
structure Follows (b b' : BulkSync.State (Fin cfg.hostc) Word) : Prop where
  round : b'.round = b.round
  done : b'.done = b.done
  stored : b'.stored = b.stored
  final : b'.final = b.final
  late : ∀ i, b'.copy i ≠ .none → ∀ r, b'.late i r → b.copy i ≠ .none ∧ (b.late i r ∨
    r = b.done ∧ ∃ j, j ≠ i ∧ ∃ w base, b.copy j = .dirty w base)
  dirty : ∀ i w base, b'.copy i = .dirty w base → b.copy i = .dirty w base

theorem Follows.refl (b : BulkSync.State (Fin cfg.hostc) Word) : Follows b b :=
  ⟨rfl, rfl, rfl, rfl, fun _ hc _ hl => ⟨hc, Or.inl hl⟩, fun _ _ _ hc => hc⟩

theorem Follows.setCopy {j : Fin cfg.hostc} {v : BulkSync.Copy Word}
    (hv : ∀ w base, v ≠ .dirty w base) (hsome : v ≠ .none → b.copy j ≠ .none) :
    Follows b (b.setCopy j v) := by
  refine ⟨rfl, rfl, rfl, rfl, ?_, ?_⟩
  · intro i hc r hl
    refine ⟨?_, Or.inl hl⟩
    rw [BulkSync.setCopy_copy] at hc
    split at hc
    · rename_i hij
      rw [hij]
      exact hsome hc
    · exact hc
  · intro i w base hc
    rw [BulkSync.setCopy_copy] at hc
    split at hc
    · exact absurd hc (hv w base)
    · exact hc

theorem Follows.flush {j : Fin cfg.hostc} {w base : Word} (hc : b.copy j = .dirty w base) :
    Follows b ((b.overtake j w).setCopy j (.clean w)) := by
  have hcopy : ∀ i, ((b.overtake j w).setCopy j (.clean w)).copy i =
      if i = j then .clean w else b.copy i := BulkSync.setCopy_copy (b.overtake j w) j (.clean w)
  refine ⟨rfl, rfl, rfl, rfl, ?_, ?_⟩
  · intro i hi r hl
    have hold : b.copy i ≠ .none := by
      rw [hcopy] at hi
      split at hi
      · rename_i hij
        rw [hij, hc]
        exact nofun
      · exact hi
    rcases hl with hl | ⟨hij, hr⟩
    · exact ⟨hold, Or.inl hl⟩
    · exact ⟨hold, Or.inr ⟨hr, j, Ne.symm hij, w, base, hc⟩⟩
  · intro i w' base' hi
    rw [hcopy] at hi
    split at hi
    · cases hi
    · exact hi

theorem Follows.fetch {j : Fin cfg.hostc} :
    Follows b { b.setCopy j (.clean b.home) with late := Function.update b.late j fun _ => False } := by
  have hcopy : ∀ i, (b.setCopy j (.clean b.home)).copy i = if i = j then .clean b.home else b.copy i :=
    BulkSync.setCopy_copy b j (.clean b.home)
  refine ⟨rfl, rfl, rfl, rfl, ?_, ?_⟩
  · intro i hi r hl
    by_cases hij : i = j
    · subst hij
      simp at hl
    · change (b.setCopy j _).copy i ≠ _ at hi
      rw [hcopy, if_neg hij] at hi
      simp only [Function.update_of_ne hij] at hl
      exact ⟨hi, Or.inl hl⟩
  · intro i w base hi
    change (b.setCopy j _).copy i = _ at hi
    rw [hcopy] at hi
    split at hi
    · cases hi
    · exact hi

/-- What the hosts show after a message. -/
structure Shown (cfg : Config) (p : Nat) (u : Fin Pageunits) (s' : State)
    (b' : BulkSync.State (Fin cfg.hostc) Word) : Prop where
  home : b'.home = (s'.host (cfg.layout.owner p)).m.mem p u
  copy : ∀ i : Fin cfg.hostc, i.val ≠ cfg.layout.owner p →
    ∃ c, CopyAt cfg (s'.host i) p c ∧ Shows cfg s' p u i c (b'.copy i)

theorem Shown.of_copy {s' : State} {b' : BulkSync.State (Fin cfg.hostc) Word} {j : Fin cfg.hostc}
    {v : BulkSync.Copy Word} (hhome : b'.home = (s'.host (cfg.layout.owner p)).m.mem p u)
    (hcopy : ∀ i, b'.copy i = if i = j then v else b.copy i)
    (hnew : ∃ c, CopyAt cfg (s'.host j) p c ∧ Shows cfg s' p u j c v)
    (hold : ∀ i : Fin cfg.hostc, i ≠ j → i.val ≠ cfg.layout.owner p →
      ∃ c, CopyAt cfg (s'.host i) p c ∧ Shows cfg s' p u i c (b.copy i)) : Shown cfg p u s' b' := by
  refine ⟨hhome, fun i hi => ?_⟩
  rw [hcopy]
  by_cases hij : i = j
  · subst hij
    rw [if_pos rfl]
    exact hnew
  · rw [if_neg hij]
    exact hold i hij hi

theorem shows_served_others (hreach : (system cfg).Reach s) (hmir : Mirrors cfg p u s log ml b)
    (hnet : s.net src dst = msg :: rest) (hm : Served cfg dst (s.host dst) src rnd msg hst out)
    {i : Fin cfg.hostc} (hi : i.val ≠ cfg.layout.owner p) (hne : i.val ≠ dst)
    (hask : src = i → ∀ temp, msg ≠ .getp (cfg.pageAddr p) temp)
    (hdiff : src = i → dst = cfg.layout.owner p → msg.isDiff = false) :
    ∃ c, CopyAt cfg (({ s with net := drop s.net src dst }.put dst hst out).host i) p c ∧
      Shows cfg ({ s with net := drop s.net src dst }.put dst hst out) p u i c (b.copy i) := by
  obtain ⟨c, hat, hv⟩ := hmir.copy i hi
  refine ⟨c, ?_, shows_served_other hreach hat hv hnet hm hne hask hdiff⟩
  rwa [State.put_host_of_ne _ _ _ hne]

theorem shown_away (hb : cfg.Basic) (hp : p < cfg.npages) (hreach : (system cfg).Reach s)
    (hinv : BulkSync.Inv (homeOf cfg hp) 0 b) (hmir : Mirrors cfg p u s log ml b)
    (hnet : s.net src dst = msg :: rest) (hm : Served cfg dst (s.host dst) src rnd msg hst out)
    (haway : dst ≠ cfg.layout.owner p) :
    ∃ b', BulkSync.Inv (homeOf cfg hp) 0 b' ∧ Follows b b' ∧
      Shown cfg p u ({ s with net := drop s.net src dst }.put dst hst out) b' := by
  have hhome : b.home = (({ s with net := drop s.net src dst }.put dst hst out).host
      (cfg.layout.owner p)).m.mem p u := by
    rw [State.put_host_of_ne _ _ _ (Ne.symm haway)]
    exact hmir.home
  have hold : ∀ i : Fin cfg.hostc, i.val ≠ dst → i.val ≠ cfg.layout.owner p →
      ∃ c, CopyAt cfg (({ s with net := drop s.net src dst }.put dst hst out).host i) p c ∧
        Shows cfg ({ s with net := drop s.net src dst }.put dst hst out) p u i c (b.copy i) := by
    intro i hne hi
    refine shows_served_others hreach hmir hnet hm hi hne ?_ fun _ hd => absurd hd haway
    rintro rfl temp rfl
    obtain ⟨c, hat, hv⟩ := hmir.copy i hi
    exact haway (shows_fetch hb hreach hp hi hat hv hnet hm).1
  by_cases hdst : dst < cfg.hostc
  · obtain ⟨c, hat, hv⟩ := hmir.copy ⟨dst, hdst⟩ haway
    obtain ⟨c', v', hat', hv', hshown⟩ := shows_served_self hb hreach hp haway hat hv hnet hm
    have hnew : ∃ c, CopyAt cfg (({ s with net := drop s.net src dst }.put dst hst out).host dst) p c ∧
        Shows cfg ({ s with net := drop s.net src dst }.put dst hst out) p u dst c v' := by
      refine ⟨c', ?_, hv'⟩
      rwa [State.put_host_same]
    have hold' : ∀ i : Fin cfg.hostc, i ≠ ⟨dst, hdst⟩ → i.val ≠ cfg.layout.owner p →
        ∃ c, CopyAt cfg (({ s with net := drop s.net src dst }.put dst hst out).host i) p c ∧
          Shows cfg ({ s with net := drop s.net src dst }.put dst hst out) p u i c (b.copy i) :=
      fun i hij => hold i fun heq => hij (Fin.ext heq)
    rcases hshown with rfl | ⟨rfl, hnd⟩
    · refine ⟨b, hinv, .refl b, Shown.of_copy hhome ?_ hnew hold'⟩
      intro i
      split
      · rename_i hij
        rw [hij]
      · rfl
    · exact ⟨_, hinv.dropCopy hnd, .setCopy nofun fun hcon => absurd rfl hcon,
        Shown.of_copy hhome (BulkSync.setCopy_copy b ⟨dst, hdst⟩ .none) hnew hold'⟩
  · refine ⟨b, hinv, .refl b, hhome, fun i hi => hold i ?_ hi⟩
    have hlt := i.isLt
    omega

theorem shown_home (hb : cfg.Basic) (hp : p < cfg.npages) (hreach : (system cfg).Reach s)
    (hok : (Barrier.rounds cfg).Ok (s, log)) (hinv : BulkSync.Inv (homeOf cfg hp) 0 b)
    (hmir : Mirrors cfg p u s log ml b) (hnet : s.net src (cfg.layout.owner p) = msg :: rest)
    (hm : Served cfg (cfg.layout.owner p) (s.host (cfg.layout.owner p)) src rnd msg hst out) :
    ∃ b', BulkSync.Inv (homeOf cfg hp) 0 b' ∧ Follows b b' ∧
      Shown cfg p u ({ s with net := drop s.net src (cfg.layout.owner p) }.put
        (cfg.layout.owner p) hst out) b' := by
  have hmem : msg ∈ s.net src (cfg.layout.owner p) := by
    rw [hnet]
    exact List.mem_cons_self
  have hword : (({ s with net := drop s.net src (cfg.layout.owner p) }.put (cfg.layout.owner p) hst
      out).host (cfg.layout.owner p)).m.mem p u = hst.m.mem p u := by rw [State.put_host_same]
  have hother : ∀ i : Fin cfg.hostc, i.val ≠ src → i.val ≠ cfg.layout.owner p →
      ∃ c, CopyAt cfg (({ s with net := drop s.net src (cfg.layout.owner p) }.put
          (cfg.layout.owner p) hst out).host i) p c ∧
        Shows cfg ({ s with net := drop s.net src (cfg.layout.owner p) }.put
          (cfg.layout.owner p) hst out) p u i c (b.copy i) := fun i hi haway =>
    shows_served_others hreach hmir hnet hm haway haway (fun hs => absurd hs.symm hi)
      fun hs => absurd hs.symm hi
  by_cases hdiff : ∃ ds, msg = .diff ds
  · obtain ⟨ds, rfl⟩ := hdiff
    obtain ⟨hsrc, hne⟩ := reach_request hb hreach hmem rfl
    have haway := hne rfl
    obtain ⟨c, hat, hv⟩ := hmir.copy ⟨src, hsrc⟩ haway
    obtain ⟨hclosing, v', hv', hshown⟩ := shows_flush hb hreach hp haway hat hv hnet hm
    have hround : b.round ⟨src, hsrc⟩ = b.done := by
      refine hmir.running hok (reach_stackOk hreach src) ?_
      intro hpc
      rw [hpc] at hclosing
      cases hclosing
    have hhost : ({ s with net := drop s.net src (cfg.layout.owner p) }.put (cfg.layout.owner p) hst
        out).host src = s.host src := State.put_host_of_ne _ _ _ haway
    have hnew : ∃ c, CopyAt cfg (({ s with net := drop s.net src (cfg.layout.owner p) }.put
          (cfg.layout.owner p) hst out).host src) p c ∧
        Shows cfg ({ s with net := drop s.net src (cfg.layout.owner p) }.put
          (cfg.layout.owner p) hst out) p u src c v' := ⟨c, by rwa [hhost], hv'⟩
    have hold : ∀ i : Fin cfg.hostc, i ≠ ⟨src, hsrc⟩ → i.val ≠ cfg.layout.owner p → _ :=
      fun i hij => hother i fun heq => hij (Fin.ext heq)
    have hcopies : (⟨src, hsrc⟩ : Fin cfg.hostc) ≠ homeOf cfg hp :=
      fun heq => haway (Fin.ext_iff.mp heq)
    rcases hshown with ⟨-, rfl, hcur⟩ | ⟨w, base, hdirty, rfl, hcur⟩
    · refine ⟨b, hinv, .refl b, Shown.of_copy ?_ ?_ hnew hold⟩
      · rw [hword, hcur]
        exact hmir.home
      · intro i
        split
        · rename_i hij
          rw [hij]
        · rfl
    · by_cases hw : w = base
      · subst hw
        refine ⟨_, hinv.settle hcopies hround hdirty, .setCopy nofun fun _ => ?_,
          Shown.of_copy ?_ (BulkSync.setCopy_copy b ⟨src, hsrc⟩ (.clean w)) hnew hold⟩
        · rw [hdirty]
          exact nofun
        · rw [hword, hcur, if_pos rfl]
          exact hmir.home
      · refine ⟨_, hinv.flush hcopies hround hdirty hw, .flush hdirty,
          Shown.of_copy ?_ (BulkSync.setCopy_copy (b.overtake _ w) ⟨src, hsrc⟩ (.clean w)) hnew hold⟩
        rw [hword, hcur, if_neg hw]
        rfl
  have hnodiff : msg.isDiff = false := by
    cases msg with
    | diff ds => exact absurd ⟨ds, rfl⟩ hdiff
    | _ => rfl
  have hhome : b.home = (({ s with net := drop s.net src (cfg.layout.owner p) }.put
      (cfg.layout.owner p) hst out).host (cfg.layout.owner p)).m.mem p u := by
    rw [hword, home_served hb hreach hp hnet hm hnodiff]
    exact hmir.home
  by_cases hask : ∃ temp, msg = .getp (cfg.pageAddr p) temp
  · obtain ⟨temp, rfl⟩ := hask
    obtain ⟨hsrc, -⟩ := reach_request hb hreach hmem rfl
    have haway : src ≠ cfg.layout.owner p := by
      rintro rfl
      obtain ⟨w, hpc, -, ha, -⟩ := (reach_fetching hreach _).request hmem
      obtain ⟨hlt, hne⟩ := (reach_remoteOk hb hreach _).fault w hpc
      rw [← cfg.pageAddr_inj hp hlt ha] at hne
      exact hne (reach_homepid hb.hMig hreach _ hp)
    obtain ⟨c, hat, hv⟩ := hmir.copy ⟨src, hsrc⟩ haway
    obtain ⟨-, hnone, hrun, hv'⟩ := shows_fetch hb hreach hp haway hat hv hnet hm
    have hround : b.round ⟨src, hsrc⟩ = b.done :=
      hmir.running hok (reach_stackOk hreach src) hrun.not_barrwait
    rw [← hmir.home] at hv'
    refine ⟨_, hinv.fetch (fun heq => haway (Fin.ext_iff.mp heq)) hround (by rw [hnone]; exact nofun),
      .fetch, Shown.of_copy hhome (BulkSync.setCopy_copy b ⟨src, hsrc⟩ (.clean b.home)) ?_
        fun i hij => hother i fun heq => hij (Fin.ext heq)⟩
    refine ⟨c, ?_, hv'⟩
    rwa [State.put_host_of_ne _ _ _ haway]
  · refine ⟨b, hinv, .refl b, hhome, fun i hi => ?_⟩
    exact shows_served_others hreach hmir hnet hm hi hi
      (fun _ temp heq => hask ⟨temp, heq⟩) fun _ _ => hnodiff

theorem shown_served (hb : cfg.Basic) (hp : p < cfg.npages) (hreach : (system cfg).Reach s)
    (hok : (Barrier.rounds cfg).Ok (s, log)) (hinv : BulkSync.Inv (homeOf cfg hp) 0 b)
    (hmir : Mirrors cfg p u s log ml b) (hnet : s.net src dst = msg :: rest)
    (hm : Served cfg dst (s.host dst) src rnd msg hst out) :
    ∃ b', BulkSync.Inv (homeOf cfg hp) 0 b' ∧ Follows b b' ∧
      Shown cfg p u ({ s with net := drop s.net src dst }.put dst hst out) b' := by
  by_cases haway : dst = cfg.layout.owner p
  · subst haway
    exact shown_home hb hp hreach hok hinv hmir hnet hm
  · exact shown_away hb hp hreach hinv hmir hnet hm haway

/-- The history after a message. -/
def MemLog.afterServed (cfg : Config) (ml : MemLog) (log : RoundLog) (s' : State) : MemLog where
  stored := ml.stored
  final := noteHomes cfg log.rounds ml.final s'

theorem keepsTold_served {log' : RoundLog} (hb : cfg.Basic) (hp : p < cfg.npages)
    (hreach : (system cfg).Reach s) (hnet : s.net src dst = msg :: rest)
    (hm : Served cfg dst (s.host dst) src rnd msg hst out) (hoff : log'.offered = log.offered)
    (hrounds : log'.rounds = log.rounds) (hgranted : log'.granted = log.granted) :
    KeepsTold cfg p s ({ s with net := drop s.net src dst }.put dst hst out) log log' :=
  ⟨hrounds, hgranted, fun hhost _ ht =>
    willTell_served hb hp hreach (reach_runOk hhost hreach dst).1 hnet hm hoff hrounds ht⟩

theorem Mirrors.next_served {s' : State} {log' : RoundLog}
    {b' : BulkSync.State (Fin cfg.hostc) Word} (hp : p < cfg.npages)
    (hinv : BulkSync.Inv (homeOf cfg hp) 0 b) (hmir : Mirrors cfg p u s log ml b)
    (hkeep : KeepsTold cfg p s s' log log') (hfol : Follows b b') (hshown : Shown cfg p u s' b')
    (hpend : ∀ i : Fin cfg.hostc, b'.copy i ≠ .none → Pending cfg s log p i →
      Pending cfg s' log' p i) :
    Mirrors cfg p u s' log' (ml.afterServed cfg log s') b' := by
  have hself : ∀ i : Fin cfg.hostc, i.val = cfg.layout.owner p → b.copy i = .none := by
    intro i hi
    have heq : i = homeOf cfg hp := Fin.ext hi
    rw [heq]
    exact hinv.home_copy
  refine hmir.next hp hkeep hpend hfol.round hfol.done hfol.final hshown.home ?_
    (fun r hr => congrFun (if_neg (Nat.ne_of_lt hr)) u) hshown.copy ?_
    (fun i w base hc => Or.inl ⟨w, base, hfol.dirty i w base hc⟩) hself
  · intro i r
    rw [hfol.stored]
    exact hmir.stored i r
  · intro i hi hc r hl
    obtain ⟨hc', hl' | ⟨hr, j, hji, w, base, hdirty⟩⟩ := hfol.late i hc r hl
    · exact Or.inl ⟨hc', hl'⟩
    · refine Or.inr (Or.inr ⟨hr.trans hmir.done, j, j.isLt, fun heq => hji (Fin.ext heq), ?_⟩)
      exact hkeep.told (hostc_ne_one hp i.isLt hi) j (hmir.tell j w base hdirty)

/-- A host leaves a barrier with the notices of the barrier taken. -/
theorem Mirrors.leave {log' : RoundLog} (hp : p < cfg.npages)
    (hinv : BulkSync.Inv (homeOf cfg hp) 0 b) (hmir : Mirrors cfg p u s log ml b)
    (hdst : dst < cfg.hostc) (hbehind : log.granted dst + 1 = log.rounds)
    (hdue : dueNotice cfg s p dst = none) (hoff : log'.offered = log.offered)
    (hrounds : log'.rounds = log.rounds)
    (hgranted : log'.granted = set log.granted dst (log.granted dst + 1)) :
    ∃ b', BulkSync.Inv (homeOf cfg hp) 0 b' ∧ Mirrors cfg p u s log' ml b' := by
  have htold : ∀ {g : Nat}, WillTell cfg s log p g → WillTell cfg s log' p g :=
    fun ht => ht.congr rfl (by rw [hoff]) hrounds
  have hnone : ¬ Pending cfg s log p dst := by
    rintro ⟨-, n, hn, -⟩
    rw [hdue] at hn
    cases hn
  have hround : b.round ⟨dst, hdst⟩ + 1 = b.done := by
    rw [hmir.round, hmir.done]
    exact hbehind
  refine ⟨_, hinv.leave hround ?_, ?_⟩
  · by_cases hc : b.copy ⟨dst, hdst⟩ = .none
    · exact Or.inl hc
    · right
      intro hl
      have haway : dst ≠ cfg.layout.owner p := by
        rintro rfl
        exact hc hinv.home_copy
      rcases hmir.late ⟨dst, hdst⟩ haway hc _ hl with hpend | ⟨hr, -⟩
      · exact hnone hpend
      · rw [hmir.round] at hr
        have hr' : log.granted dst = log.rounds := hr
        omega
  · refine ⟨hmir.home, ?_, hmir.done.trans hrounds.symm, hmir.stored, ?_, hmir.copy, ?_, ?_⟩
    · intro i
      rw [hgranted]
      by_cases hi : i = ⟨dst, hdst⟩
      · subst hi
        simp only [Function.update_self, set_same, hmir.round]
      · rw [set_of_ne _ _ fun heq => hi (Fin.ext heq)]
        simp only [Function.update_of_ne hi]
        exact hmir.round i
    · intro r hr
      rw [hrounds] at hr
      exact hmir.final r hr
    · intro i hi hc r hl
      rcases hmir.late i hi hc r hl with hpend | ⟨hr, g, hg, hne, ht⟩
      · have hid : i.val ≠ dst := by
          rintro rfl
          exact hnone hpend
        obtain ⟨hr, n, hn, hfrom⟩ := hpend
        exact Or.inl ⟨by rw [hgranted, set_of_ne _ _ hid, hrounds, hr], n, hn, hfrom⟩
      · exact Or.inr ⟨hr.trans hrounds.symm, g, hg, hne, htold ht⟩
    · exact fun i w base hc => htold (hmir.tell i w base hc)

/-- A barrier ends: all hosts wait, and what they have written is announced. -/
theorem mirror_last {reply : List Msg} {b' : BulkSync.State (Fin cfg.hostc) Word}
    (hp : p < cfg.npages) (hreach : (system cfg).Reach s)
    (hinv : BulkSync.Inv (homeOf cfg hp) 0 b) (hinv' : BulkSync.Inv (homeOf cfg hp) 0 b')
    (hmir : Mirrors cfg p u s log ml b) (hfol : Follows b b')
    (hshown : Shown cfg p u ({ s with net := drop s.net src dst }.put dst hst out) b')
    (hend : RoundEnd cfg s log src dst msg hst out reply) :
    ∃ b'', BulkSync.Inv (homeOf cfg hp) 0 b'' ∧
      Mirrors cfg p u ({ s with net := drop s.net src dst }.put dst hst out)
        ((Barrier.rounds cfg).noteHandled log src dst msg out)
        (ml.afterServed cfg log ({ s with net := drop s.net src dst }.put dst hst out)) b'' := by
  -- nobody has a written copy in hand
  have hclean : ∀ i w base, b.copy i ≠ .dirty w base := by
    intro i w base hc
    by_cases hi : i.val = cfg.layout.owner p
    · have heq : i = homeOf cfg hp := Fin.ext hi
      rw [heq, hinv.home_copy] at hc
      cases hc
    · obtain ⟨c, -, hv⟩ := hmir.copy i hi
      rw [hc] at hv
      have hpc := (reach_stackOk hreach i).barrwait (hend.waits i i.isLt)
      exact Host.Waits.flushed hreach (Or.inr hpc) hv.unflushed
  have hround : ∀ i, b'.round i = b'.done := by
    intro i
    rw [hfol.round, hfol.done, hmir.round, hmir.done]
    exact hend.granted i i.isLt
  refine ⟨_, hinv'.close hround fun i w base hc => hclean i w base (hfol.dirty i w base hc), ?_⟩
  refine ⟨hshown.home, ?_, ?_, ?_, ?_, hshown.copy, ?_, ?_⟩
  · intro i
    rw [hend.granted', ← hmir.round]
    exact congrFun hfol.round i
  · rw [hend.rounds', ← hmir.done, ← hfol.done]
  · intro i r
    rw [hfol.stored]
    exact hmir.stored i r
  · intro r hr
    rw [hend.rounds'] at hr
    have hdone : b'.done = log.rounds := hfol.done.trans hmir.done
    simp only [MemLog.afterServed, noteHomes, hdone]
    by_cases hlast : r = log.rounds
    · subst hlast
      rw [Function.update_self, if_pos rfl]
      exact hshown.home
    · rw [Function.update_of_ne hlast, if_neg hlast, hfol.final]
      exact hmir.final r (by omega)
  · -- what is late has been announced by another host, so the answer drops the copy
    intro i hi hc r hl
    left
    obtain ⟨hc', hl' | ⟨-, j, -, w, base, hdirty⟩⟩ := hfol.late i hc r hl
    · rcases hmir.late i hi hc' r hl' with ⟨hbehind, -⟩ | ⟨-, g, hg, hne, ht⟩
      · have hgranted := hend.granted i i.isLt
        omega
      · obtain ⟨m, nt, hm, hnt, ha⟩ := ht.at_end (reach_stackOk hreach g) (hend.waits g hg)
        obtain ⟨n, hn, hfrom⟩ := hend.notice p hp g hg m hm nt hnt ha
        refine ⟨?_, n, ?_, ?_⟩
        · rw [hend.granted', hend.rounds', hend.granted i i.isLt]
        · rw [dueNotice, hend.downTo' i i.isLt, hn]
        · have hlt := i.isLt
          have hmax := cfg.hostc_le
          rcases hfrom with hfrom | hfrom
          · rw [hfrom]
            exact hne
          · omega
    · exact absurd hdirty (hclean j w base)
  · intro i w base hc
    exact absurd (hfol.dirty i w base hc) (hclean i w base)

theorem mirror_heard (hb : cfg.Basic) (hp : p < cfg.npages) (hreach : (system cfg).Reach s)
    (hreach' : (system cfg).Reach ({ s with net := drop s.net src dst }.put dst hst out))
    {b' : BulkSync.State (Fin cfg.hostc) Word} {log' : RoundLog}
    (hinv : BulkSync.Inv (homeOf cfg hp) 0 b) (hinv' : BulkSync.Inv (homeOf cfg hp) 0 b')
    (hmir : Mirrors cfg p u s log ml b) (hfol : Follows b b')
    (hshown : Shown cfg p u ({ s with net := drop s.net src dst }.put dst hst out) b')
    (hnet : s.net src dst = msg :: rest) (hm : Served cfg dst (s.host dst) src rnd msg hst out)
    (hdown : Barrier.down msg = true) (hout : out = []) (hoff : log'.offered = log.offered)
    (hrounds : log'.rounds = log.rounds) (hgranted : log'.granted = log.granted) :
    Mirrors cfg p u ({ s with net := drop s.net src dst }.put dst hst out) log'
      (ml.afterServed cfg log ({ s with net := drop s.net src dst }.put dst hst out)) b' := by
  have hmem : msg ∈ s.net src dst := by
    rw [hnet]
    exact List.mem_cons_self
  have hrel := reach_relayed hreach hmem
  have hput : ({ s with net := drop s.net src dst }.put dst hst out).host dst = hst :=
    State.put_host_same _ _ _ _
  have hkeep := keepsTold_served hb hp hreach hnet hm hoff hrounds hgranted
  refine hmir.next_served hp hinv hkeep hfol hshown ?_
  intro i hc hpend
  by_cases hid : i.val = dst
  · subst hid
    have hflag := (reach_down_waiting hreach hnet hdown).2
    have haway : i.val ≠ cfg.layout.owner p := by
      intro heq
      have hself : i = homeOf cfg hp := Fin.ext heq
      rw [hself] at hc
      exact hc hinv'.home_copy
    obtain ⟨hr, n, hn, hfrom⟩ := hpend
    have hheard := dueNotice_heard hst (reach_basics hreach) hnet hrel hdown hout p
    rw [hn] at hheard
    refine ⟨by rw [hgranted, hrounds, hr], n, ?_, hfrom⟩
    cases hnt : noticeOf cfg p msg.grantNotices with
    | none =>
        rw [hnt, Option.none_or] at hheard
        exact hheard.symm
    | some g =>
        -- the copy would be gone
        rw [hnt, Option.some_or, Option.some.injEq] at hheard
        subst hheard
        obtain ⟨c, hat, hv⟩ := hshown.copy i haway
        have hpc : hst.pc = .barrwait := by
          rw [(served_stack hm).1]
          exact (reach_stackOk hreach i).barrwait hflag
        have hcached : hst.m.Cached cfg p := by
          rcases hv.holds hat hc with hholds | ⟨a, addr, wv, data, xs, hflight, -⟩
          · rw [hput] at hholds
            exact hholds.1
          · obtain ⟨w, hw, -⟩ := (reach_fetching hreach' i).reply hflight
            rw [hput, hpc] at hw
            cases hw
        have hns := (notices_served (served_mem ((reach_pages hreach).host i).tables
          ((reach_pages hreach).net hmem) (reach_routed hreach hmem) hm) hdown).noticed p hp
        have hpid := reach_homepid hb.hMig hreach i hp
        rcases hns.cached hcached with ⟨-, hwriter⟩ | ⟨hown, -⟩
        · rcases hwriter n hnt with hw | hown
          · exact absurd hw hfrom
          · rw [hpid] at hown
            exact absurd hown.symm haway
        · rw [hpid] at hown
          exact absurd hown.symm haway
  · exact hkeep.pending (dueNotice_other (reach_basics hreach) hnet hrel hdown hout p hid) hpend

theorem mirror_served (hb : cfg.Basic) (hp : p < cfg.npages) (hreach : (system cfg).Reach s)
    (hreach' : (system cfg).Reach ({ s with net := drop s.net src dst }.put dst hst out))
    (hok : (Barrier.rounds cfg).Ok (s, log))
    (hok' : (Barrier.rounds cfg).Ok ({ s with net := drop s.net src dst }.put dst hst out,
      (Barrier.rounds cfg).noteHandled log src dst msg out))
    (hinv : BulkSync.Inv (homeOf cfg hp) 0 b) (hmir : Mirrors cfg p u s log ml b)
    (hnet : s.net src dst = msg :: rest) (hm : Served cfg dst (s.host dst) src rnd msg hst out) :
    ∃ b', BulkSync.Inv (homeOf cfg hp) 0 b' ∧
      Mirrors cfg p u ({ s with net := drop s.net src dst }.put dst hst out)
        ((Barrier.rounds cfg).noteHandled log src dst msg out)
        (ml.afterServed cfg log ({ s with net := drop s.net src dst }.put dst hst out)) b' := by
  have hoff := offered_noteHandled (Barrier.rounds cfg) log src dst msg out
  obtain ⟨b', hinv', hfol, hshown⟩ := shown_served hb hp hreach hok hinv hmir hnet hm
  cases served_handled (reach_basics hreach) hok hok' hnet hm with
  | quiet hdown hdue hrounds hgranted hanswer =>
      have hkeep := keepsTold_served hb hp hreach hnet hm hoff hrounds hgranted
      exact ⟨b', hinv', hmir.next_served hp hinv hkeep hfol hshown
        fun i _ => hkeep.pending (hdue p i)⟩
  | last reply hup hcl hlast hout hreply hburst hans hflag =>
      have hmem : msg ∈ s.net src dst := by
        rw [hnet]
        exact List.mem_cons_self
      exact mirror_last hp hreach hinv hinv' hmir hfol hshown
        (round_end hok hok' hnet (reach_pages hreach) (reach_routed hreach hmem) hup hcl hlast hout
          hreply hburst hans hflag)
  | heard hdown hout hrounds hanswer hgranted =>
      rcases hgranted with hgranted | ⟨hgranted, hbehind, hempty⟩
      · exact ⟨b', hinv', mirror_heard hb hp hreach hreach' hinv hinv' hmir hfol hshown hnet hm hdown
          hout hoff hrounds hgranted⟩
      · -- the host has the whole answer now
        have hmir' : Mirrors cfg p u ({ s with net := drop s.net src dst }.put dst hst out)
            { (Barrier.rounds cfg).noteHandled log src dst msg out with granted := log.granted }
            (ml.afterServed cfg log ({ s with net := drop s.net src dst }.put dst hst out)) b' :=
          mirror_heard hb hp hreach hreach' hinv hinv' hmir hfol hshown hnet hm hdown hout hoff
            hrounds rfl
        refine hmir'.leave hp hinv' (reach_down_waiting hreach hnet hdown).1 ?_ ?_ rfl rfl hgranted
        · exact hbehind.symm.trans hrounds.symm
        · rw [dueNotice, hempty]
          rfl

end Served

/-! ## Runs -/

theorem mirror_init (hp : p < cfg.npages) :
    Mirrors cfg p u (initState cfg) (memHistory cfg).start.1.1 (memHistory cfg).start.2
      (BulkSync.State.init 0) := by
  refine ⟨rfl, fun _ => rfl, rfl, fun _ _ => rfl, ?_, ?_, ?_, nofun⟩
  · intro r hr
    exact absurd hr (Nat.not_lt_zero r)
  · intro i hi
    obtain ⟨c, hat⟩ := (@remoteOk_init cfg i.val).page p hp (by
      simpa [initHost, initmem, hp] using Ne.symm hi)
    cases hat with
    | absent hc hprot hpc => exact ⟨_, .absent hc hprot hpc, .absent⟩
    | invalid hc => exact absurd hc (lt_irrefl _)
    | clean hc => exact absurd hc (lt_irrefl _)
    | dirty _ hc => exact absurd hc (lt_irrefl _)
    | faulting _ hc => exact absurd hc (lt_irrefl _)
  · intro i hi hc
    exact absurd rfl hc

/-- Every word of every run is a location of `BulkSync`. -/
theorem reach_mirror (hb : cfg.Basic) (hp : p < cfg.npages) {x : State × ClearLog × MemLog}
    (hx : ((system cfg).withHist (memHistory cfg)).Reach x) (u : Fin Pageunits) :
    ∃ b, BulkSync.Inv (homeOf cfg hp) 0 b ∧ Mirrors cfg p u x.1 x.2.1.1 x.2.2 b := by
  refine hx.invariant (I := fun x => ∃ b, BulkSync.Inv (homeOf cfg hp) 0 b ∧
    Mirrors cfg p u x.1 x.2.1.1 x.2.2 b) ⟨_, BulkSync.inv_init _ _, mirror_init hp⟩ ?_
  intro x e x' hx ⟨b, hinv, hmir⟩ hnext
  have hx' := hx.step hnext
  have hok := (Barrier.rounds cfg).reach_ok hx.unchain.unchain
  have hok' := (Barrier.rounds cfg).reach_ok hx'.unchain.unchain
  have hdir := reach_page hx.unchain hp
  have hreach := hx.forget
  have hreach' := hx'.forget
  obtain ⟨s, ⟨log, cl⟩, ml⟩ := x
  obtain ⟨s', ⟨log', cl'⟩, ml'⟩ := x'
  obtain ⟨hstep, hlog'⟩ := hnext
  dsimp only at hstep hlog' hok hok' hdir hreach hreach' hmir ⊢
  rcases step_view hstep with ⟨i, a, hst, out, rfl, hi, hm, hsent, rfl⟩ |
    ⟨src, dst, rnd, msg, rest, hst, out, rfl, hnet, hm, hsent, rfl⟩
  · obtain ⟨rfl, rfl⟩ : log' = (Barrier.rounds cfg).noteSent log i out ∧
        ml' = ml.afterMain cfg log i a (s.put i hst out) := by
      simp only [memHistory, clearHistory, System.Observer.chain, RoundKind.history, hsent,
        Prod.mk.injEq] at hlog'
      exact ⟨hlog'.1.1, hlog'.2⟩
    exact mirror_main hb hp hi hreach hreach' hok hdir hinv hmir hm
  · obtain ⟨rfl, rfl⟩ : log' = (Barrier.rounds cfg).noteHandled log src dst msg out ∧
        ml' = ml.afterServed cfg log ({ s with net := drop s.net src dst }.put dst hst out) := by
      simp only [memHistory, clearHistory, System.Observer.chain, RoundKind.history, hsent, handled,
        hnet, Prod.mk.injEq] at hlog'
      exact ⟨hlog'.1.1, hlog'.2⟩
    exact mirror_served hb hp hreach hreach' hok hok' hinv hmir hnet hm

theorem Mirrors.start_eq (hmir : Mirrors cfg p u s log ml b) {r : Nat} (hr : r ≤ log.rounds) :
    b.start 0 r = ml.start r p u := by
  cases r with
  | zero => rfl
  | succ r => exact hmir.final r hr

theorem Mirrors.reads (hmir : Mirrors cfg p u s log ml b) (hp : p < cfg.npages) {i : Fin cfg.hostc}
    (hpc : (s.host i).pc = .app) (hread : (s.host i).m.Readable p) :
    b.Reads (homeOf cfg hp) i ((s.host i).m.mem p u) := by
  by_cases hi : i.val = cfg.layout.owner p
  · have heq : i = homeOf cfg hp := Fin.ext hi
    rw [hi, ← hmir.home]
    exact .home heq
  · have hne : i ≠ homeOf cfg hp := fun heq => hi (Fin.ext_iff.mp heq)
    obtain ⟨c, hat, hv⟩ := hmir.copy i hi
    generalize hvb : b.copy i = v at hv
    cases hat with
    | absent _ hprot => rw [Readable, hprot] at hread; rcases hread with hread | hread <;> cases hread
    | invalid _ _ _ hprot =>
        rw [Readable, hprot] at hread
        rcases hread with hread | hread <;> cases hread
    | faulting _ _ _ _ _ hpcw => rw [hpc] at hpcw; cases hpcw
    | clean =>
        cases hv with
        | clean => exact .clean _ hne hvb
    | dirty =>
        cases hv with
        | dirty => exact .dirty _ _ hne hvb
        | flushed => exact .clean _ hne hvb

end Mirrors

end Jiajia
