import Jiajia.Memory
import Mathlib.Data.Set.Lattice
import Mathlib.Order.CompletePartialOrder

/-!
# Several writers of one page

Hosts that write different units of a page send diffs against their own twins.
The home applies them in any order that keeps the order of each host.
-/

namespace Jiajia

open MemState

/-! ## The intervals of a host -/

/-- One interval in which a host writes a page: the twin its fault handler makes, and the
stores up to the next synchronisation. -/
structure Interval where
  twin : Page
  stores : List (Fin Pageunits × Word)

namespace Interval

/-- A store to the cached page. -/
def put (pg : Page) (s : Fin Pageunits × Word) : Page := fun u => if u = s.1 then s.2 else pg u

/-- The cached page at the end of the interval. -/
def cur (v : Interval) : Page := v.stores.foldl put v.twin

theorem foldl_put_of_not_mem {u : Fin Pageunits} {stores : List (Fin Pageunits × Word)}
    {pg : Page} (h : ∀ s ∈ stores, s.1 ≠ u) : stores.foldl put pg u = pg u := by
  induction stores generalizing pg with
  | nil => rfl
  | cons s stores ih =>
      rw [List.foldl_cons, ih fun s' hs' => h s' (List.mem_cons_of_mem _ hs')]
      exact if_neg (Ne.symm (h s List.mem_cons_self))

/-- A unit that is not stored to is as in the twin. -/
theorem cur_of_not_stored {v : Interval} {u : Fin Pageunits} (h : ∀ s ∈ v.stores, s.1 ≠ u) :
    v.cur u = v.twin u :=
  foldl_put_of_not_mem h

end Interval

/-- The intervals of a host that writes the units `own` only, from a copy that has the
units of `base` there: every twin has the host's own earlier changes, and anything in the
units of others. -/
inductive Writes (own : Set (Fin Pageunits)) : Page → List Interval → Prop
  | nil {base : Page} : Writes own base []
  | cons {base : Page} {v : Interval} {vs : List Interval}
      (hfresh : ∀ u ∈ own, v.twin u = base u) (hstores : ∀ s ∈ v.stores, s.1 ∈ own)
      (hrest : Writes own v.cur vs) : Writes own base (v :: vs)

/-- The host's page after its intervals. -/
def finalPage (base : Page) (vs : List Interval) : Page := vs.foldl (fun _ v => v.cur) base

theorem finalPage_congr {base base' : Page} {vs : List Interval} {u : Fin Pageunits}
    (h : base u = base' u) : finalPage base vs u = finalPage base' vs u := by
  cases vs with
  | nil => exact h
  | cons v vs => rfl

theorem Writes.congr {own : Set (Fin Pageunits)} {base base' : Page} {vs : List Interval}
    (h : Writes own base vs) (hbase : ∀ u ∈ own, base u = base' u) : Writes own base' vs := by
  cases h with
  | nil => exact .nil
  | cons hfresh hstores hrest =>
      exact .cons (fun u hu => (hfresh u hu).trans (hbase u hu)) hstores hrest

/-- The diff of an interval brings the host's units up to date and no others. -/
theorem mergeDiff_interval {own : Set (Fin Pageunits)} {pg : Page} {v : Interval}
    (hfresh : ∀ u ∈ own, v.twin u = pg u) (hstores : ∀ s ∈ v.stores, s.1 ∈ own)
    (u : Fin Pageunits) :
    (u ∈ own → mergeDiff v.cur v.twin pg u = v.cur u) ∧
      (u ∉ own → mergeDiff v.cur v.twin pg u = pg u) := by
  unfold mergeDiff
  constructor
  · intro hu
    split
    · rename_i heq
      rw [heq, hfresh u hu]
    · rfl
  · intro hu
    rw [if_pos]
    apply Interval.cur_of_not_stored
    rintro s hs rfl
    exact hu (hstores s hs)

/-! ## Applying the diffs of all hosts -/

section Merge

variable {addr : Addr} {own : Nat → Set (Fin Pageunits)} {pg : Page} {vs : Nat → List Interval}
  {xs : List (Nat × PageDiff)}

/-- The diffs of host `i`, in order. -/
def diffsFrom (i : Nat) (xs : List (Nat × PageDiff)) : List PageDiff :=
  (xs.filter fun x => x.1 = i).map Prod.snd

/-- The diff of an interval. -/
def Interval.diff (addr : Addr) (v : Interval) : PageDiff := encodediff addr v.cur v.twin

theorem diffsFrom_cons_same (i : Nat) (d : PageDiff) :
    diffsFrom i ((i, d) :: xs) = d :: diffsFrom i xs := by
  simp [diffsFrom]

theorem diffsFrom_cons_other {i j : Nat} (d : PageDiff) (h : i ≠ j) :
    diffsFrom j ((i, d) :: xs) = diffsFrom j xs := by
  simp [diffsFrom, h]

/-- The units a page ends with: those of a host as that host left them, the others as
they were. -/
structure AllMerged (own : Nat → Set (Fin Pageunits)) (vs : Nat → List Interval)
    (pg pg' : Page) : Prop where
  changed : ∀ i, ∀ u ∈ own i, pg' u = finalPage pg (vs i) u
  kept : ∀ u, (∀ i, u ∉ own i) → pg' u = pg u

theorem AllMerged.unique {pg₁ pg₂ : Page} (h₁ : AllMerged own vs pg pg₁)
    (h₂ : AllMerged own vs pg pg₂) : pg₁ = pg₂ := by
  ext u
  by_cases hown : ∃ i, u ∈ own i
  · obtain ⟨i, hi⟩ := hown
    rw [h₁.changed i u hi, h₂.changed i u hi]
  · push Not at hown
    rw [h₁.kept u hown, h₂.kept u hown]

theorem applyAll_merged (hdisj : ∀ i j, i ≠ j → Disjoint (own i) (own j))
    (hw : ∀ i, Writes (own i) pg (vs i))
    (hxs : ∀ i, diffsFrom i xs = (vs i).map (Interval.diff addr)) :
    AllMerged own vs pg (xs.foldl (fun pg x => applyRuns x.2.runs pg) pg) := by
  induction xs generalizing pg vs with
  | nil =>
      have hnil : ∀ i, vs i = [] := fun i => List.map_eq_nil_iff.mp (hxs i).symm
      refine ⟨?_, fun _ _ => rfl⟩
      intro i u _
      rw [hnil i]
      rfl
  | cons x xs ih =>
      obtain ⟨i, d⟩ := x
      -- the first diff belongs to the first interval of its host
      have hfirst := hxs i
      rw [diffsFrom_cons_same] at hfirst
      obtain ⟨v, rest, hvs, rfl, hrest⟩ := List.map_eq_cons_iff.mp hfirst.symm
      have hwi := hw i
      rw [hvs] at hwi
      cases hwi with
      | cons hfresh hstores hlater =>
          have hunit := mergeDiff_interval hfresh hstores
          have happly : applyRuns (Interval.diff addr v).runs pg = mergeDiff v.cur v.twin pg :=
            applyRuns_encodediff addr v.cur v.twin pg
          rw [List.foldl_cons, happly]
          have hw' : ∀ j, Writes (own j) (mergeDiff v.cur v.twin pg) (upd vs i rest j) := by
            intro j
            by_cases hj : j = i
            · subst hj
              rw [upd_same]
              exact hlater.congr fun u hu => ((hunit u).1 hu).symm
            · rw [upd_of_ne _ _ hj]
              refine (hw j).congr fun u hu => ((hunit u).2 fun hi => ?_).symm
              exact Set.disjoint_left.mp (hdisj j i hj) hu hi
          have hxs' : ∀ j, diffsFrom j xs = (upd vs i rest j).map (Interval.diff addr) := by
            intro j
            by_cases hj : j = i
            · subst hj
              rw [upd_same, hrest]
            · rw [upd_of_ne _ _ hj, ← hxs j, diffsFrom_cons_other _ (Ne.symm hj)]
          have hmerged := ih hw' hxs'
          refine ⟨?_, ?_⟩
          · intro j u hu
            rw [hmerged.changed j u hu]
            by_cases hj : j = i
            · subst hj
              rw [upd_same, hvs]
              exact finalPage_congr ((hunit u).1 hu)
            · rw [upd_of_ne _ _ hj]
              apply finalPage_congr
              exact (hunit u).2 fun hi => Set.disjoint_left.mp (hdisj j i hj) hu hi
          · intro u hu
            rw [hmerged.kept u hu]
            exact (hunit u).2 (hu i)

end Merge

/-! ## The home -/

section Home

variable {cfg : Config} {m m' : MemState} {p : Nat} {addr : Addr}

/-- The home handles DIFF messages one after the other. -/
def serveDiffs (cfg : Config) : MemState → List (Nat × List PageDiff) → Result MemState
  | m, [] => .ok m
  | m, (src, ds) :: ms => do
      let (m, _) ← m.diffserver cfg src ds
      serveDiffs cfg m ms

/-- The diffs of page `p` in a list of messages, with their senders. -/
def diffsOf (cfg : Config) (p : Nat) (ms : List (Nat × List PageDiff)) : List (Nat × PageDiff) :=
  ms.flatMap fun x => (x.2.filter fun d => cfg.pagei d.addr = p).map fun d => (x.1, d)

theorem serveDiffs_mem {ms : List (Nat × List PageDiff)} (h : serveDiffs cfg m ms = .ok m')
    (p : Nat) :
    m'.mem p = (diffsOf cfg p ms).foldl (fun pg x => applyRuns x.2.runs pg) (m.mem p) := by
  induction ms generalizing m with
  | nil =>
      simp only [serveDiffs, Except.ok.injEq] at h
      rw [← h]
      rfl
  | cons x ms ih =>
      obtain ⟨src, ds⟩ := x
      simp only [serveDiffs, diffserver, bind_eq_ok, Prod.exists, pure, Except.pure,
        Except.ok.injEq, Prod.mk.injEq] at h
      obtain ⟨m₁, -, ⟨m₂, hd, rfl, -⟩, hrest⟩ := h
      have hcons : diffsOf cfg p ((src, ds) :: ms) =
          ((ds.filter fun d => cfg.pagei d.addr = p).map fun d => (src, d)) ++ diffsOf cfg p ms :=
        List.flatMap_cons
      rw [ih hrest, applyDiffs_mem hd p, hcons, List.foldl_append, List.foldl_map]

/-- The page of an address is a home page here: it has an entry, it is mapped, and
writable while its entry says so. -/
structure HomeHere (cfg : Config) (m : MemState) (a : Addr) : Prop where
  homei : m.homepage cfg a < Homepages
  mapped : m.prot (cfg.pagei a) ≠ .unmapped
  writable : m.homeWtnt cfg (m.homepage cfg a) &&& 1 = 1 → m.prot (cfg.pagei a) = .readWrite

theorem HomeHere.openHome_ok (h : HomeHere cfg m addr) :
    ∃ m', m.openHome cfg (cfg.pagei addr) (m.homepage cfg addr) = .ok m' ∧
      m'.prot (cfg.pagei addr) = .readWrite := by
  unfold openHome
  by_cases hw : m.homeWtnt cfg (m.homepage cfg addr) &&& 1 = 1
  · rw [if_pos hw]
    exact ⟨m, rfl, h.writable hw⟩
  · rw [if_neg hw]
    exact ⟨_, memprotect_eq_ok.mpr ⟨h.mapped, rfl⟩, by simp⟩

theorem noteBlocks_total (cfg : Config) (m : MemState) (src : Nat) {homei : Nat}
    (hhomei : homei < Homepages) (runs : List DiffRun) : ∃ m', m.noteBlocks cfg src homei runs = .ok m' := by
  unfold noteBlocks
  split
  · simp only [bind_eq_ok, defined_eq_ok]
    exact ⟨_, (), hhomei, rfl⟩
  · exact ⟨m, rfl⟩

theorem closeHome_total (cfg : Config) (homei : Nat) (hmapped : m.prot p ≠ .unmapped) :
    ∃ m', m.closeHome cfg p homei = .ok m' := by
  unfold closeHome
  split
  · exact ⟨m, rfl⟩
  · exact ⟨_, memprotect_eq_ok.mpr ⟨hmapped, rfl⟩⟩

theorem HomeHere.applyDiff_ok {d : PageDiff} (src : Nat) (h : HomeHere cfg m d.addr) :
    ∃ m', m.applyDiff cfg src d = .ok m' := by
  obtain ⟨m₁, hopen, hprot⟩ := h.openHome_ok
  obtain ⟨m₂, hnote⟩ := noteBlocks_total cfg
    (m₁.setMem (cfg.pagei d.addr) (applyRuns d.runs (m₁.mem (cfg.pagei d.addr)))) src h.homei d.runs
  have hmapped : m₂.prot (cfg.pagei d.addr) ≠ .unmapped := by
    obtain ⟨wtvect, wvfull, rfl⟩ := noteBlocks_ok hnote
    change m₁.prot (cfg.pagei d.addr) ≠ .unmapped
    rw [hprot]
    decide
  obtain ⟨m₃, hclose⟩ := closeHome_total cfg (m.homepage cfg d.addr) hmapped
  refine ⟨m₃, ?_⟩
  simp only [applyDiff, bind_eq_ok, defined_eq_ok]
  exact ⟨m₁, hopen, (), fun _ => hprot, m₂, hnote, hclose⟩

/-- A diff leaves home pages home pages. -/
theorem HomeHere.applied {d : PageDiff} (h : HomeHere cfg m addr) (hd : DiffApplied cfg d m m') :
    HomeHere cfg m' addr := by
  have hhomepage : ∀ a, m'.homepage cfg a = m.homepage cfg a := by
    intro a
    rw [homepage, homepage, hd.page]
  have hwtnt : ∀ i, m'.homeWtnt cfg i = m.homeWtnt cfg i := by
    intro i
    rw [homeWtnt, homeWtnt, hd.home_wtnt]
  refine ⟨by rw [hhomepage]; exact h.homei, ?_, ?_⟩
  · rw [hd.prot]
    split
    · exact h.mapped
    · by_cases hp : cfg.pagei addr = cfg.pagei d.addr
      · rw [hp, upd_same]
        decide
      · rw [upd_of_ne _ _ hp]
        exact h.mapped
  · rw [hhomepage, hwtnt, hd.prot]
    intro hw
    split
    · exact h.writable hw
    · rename_i hnot
      have hp : cfg.pagei addr ≠ cfg.pagei d.addr := by
        intro hp
        have hsame : m.homepage cfg addr = m.homepage cfg d.addr := by
          unfold homepage
          rw [hp]
        exact hnot (hsame ▸ hw)
      rw [upd_of_ne _ _ hp]
      exact h.writable hw

theorem applyDiffs_total {ds : List PageDiff} (src : Nat) (h : ∀ d ∈ ds, HomeHere cfg m d.addr) :
    ∃ m', applyDiffs cfg src m ds = .ok m' ∧ ∀ a, HomeHere cfg m a → HomeHere cfg m' a := by
  induction ds generalizing m with
  | nil => exact ⟨m, rfl, fun _ ha => ha⟩
  | cons d ds ih =>
      obtain ⟨m₁, hd⟩ := (h d List.mem_cons_self).applyDiff_ok src
      have hkeep : ∀ a, HomeHere cfg m a → HomeHere cfg m₁ a :=
        fun a ha => ha.applied (MemState.applyDiff_ok hd)
      obtain ⟨m', hrest, hkeep'⟩ := ih fun d' hd' => hkeep _ (h d' (List.mem_cons_of_mem _ hd'))
      refine ⟨m', ?_, fun a ha => hkeep' a (hkeep a ha)⟩
      simp only [applyDiffs, bind_eq_ok]
      exact ⟨m₁, hd, hrest⟩

theorem serveDiffs_total {ms : List (Nat × List PageDiff)}
    (h : ∀ x ∈ ms, ∀ d ∈ x.2, HomeHere cfg m d.addr) : ∃ m', serveDiffs cfg m ms = .ok m' := by
  induction ms generalizing m with
  | nil => exact ⟨m, rfl⟩
  | cons x ms ih =>
      obtain ⟨src, ds⟩ := x
      obtain ⟨m₁, hds, hkeep⟩ := applyDiffs_total src (h (src, ds) List.mem_cons_self)
      obtain ⟨m', hrest⟩ := ih fun x hx d hd =>
        hkeep _ (h x (List.mem_cons_of_mem _ hx) d hd)
      refine ⟨m', ?_⟩
      simp only [serveDiffs, diffserver, bind_eq_ok, Prod.exists]
      exact ⟨m₁, _, ⟨m₁, hds, rfl⟩, hrest⟩

/-- Messages that carry, for page `p`, the diffs of the intervals of every host in the
host's order; diffs of other pages may be among them. -/
def Carries (cfg : Config) (p : Nat) (vs : Nat → List Interval)
    (ms : List (Nat × List PageDiff)) : Prop :=
  ∀ i, diffsFrom i (diffsOf cfg p ms) = (vs i).map (Interval.diff (cfg.pageAddr p))

/-- The home page ends with the changes of all hosts, whatever the order in which the
home handles their messages, and the home handles them all. -/
theorem writers_merge (cfg : Config) (m : MemState) (p : Nat) (own : Nat → Set (Fin Pageunits))
    (hdisj : ∀ i j, i ≠ j → Disjoint (own i) (own j)) (vs : Nat → List Interval)
    (hwrites : ∀ i, Writes (own i) (m.mem p) (vs i)) (ms : List (Nat × List PageDiff))
    (hms : Carries cfg p vs ms) :
    (∀ m', serveDiffs cfg m ms = .ok m' → AllMerged own vs (m.mem p) (m'.mem p) ∧
      ∀ ms' m'', Carries cfg p vs ms' → serveDiffs cfg m ms' = .ok m'' → m''.mem p = m'.mem p) ∧
    ((∀ x ∈ ms, ∀ d ∈ x.2, HomeHere cfg m d.addr) → ∃ m', serveDiffs cfg m ms = .ok m') := by
  have hall : ∀ ms m', Carries cfg p vs ms → serveDiffs cfg m ms = .ok m' →
      AllMerged own vs (m.mem p) (m'.mem p) := by
    intro ms m' hms hserve
    rw [serveDiffs_mem hserve p]
    exact applyAll_merged hdisj hwrites hms
  refine ⟨?_, serveDiffs_total⟩
  intro m' hserve
  refine ⟨hall ms m' hms hserve, ?_⟩
  intro ms' m'' hms' hserve'
  exact (hall ms' m'' hms' hserve').unique (hall ms m' hms hserve)

/-- Host 0 writes the first unit of a page, host 1 the last one. -/
def twoWriters : Nat → List Interval
  | 0 => [⟨zeroPage, [(Config.unit0, 7)]⟩]
  | 1 => [⟨zeroPage, [(Fin.rev Config.unit0, 9)]⟩]
  | _ => []

def twoOwners : Nat → Set (Fin Pageunits)
  | 0 => {Config.unit0}
  | 1 => {Fin.rev Config.unit0}
  | _ => ∅

/-- The home handles the message of host 1 first. -/
def twoDiffs (addr : Addr) : List (Nat × List PageDiff) :=
  [(1, (twoWriters 1).map (Interval.diff addr)), (0, (twoWriters 0).map (Interval.diff addr))]

theorem twoOwners_disjoint (i j : Nat) (h : i ≠ j) : Disjoint (twoOwners i) (twoOwners j) := by
  have hne : Config.unit0 ≠ Fin.rev Config.unit0 := by decide
  match i, j with
  | 0, 0 => exact absurd rfl h
  | 0, 1 => exact Set.disjoint_singleton.mpr hne
  | 1, 0 => exact Set.disjoint_singleton.mpr hne.symm
  | 1, 1 => exact absurd rfl h
  | i + 2, _ => exact Set.empty_disjoint _
  | 0, j + 2 => exact Set.disjoint_empty _
  | 1, j + 2 => exact Set.disjoint_empty _

theorem twoWriters_writes (i : Nat) : Writes (twoOwners i) zeroPage (twoWriters i) := by
  match i with
  | 0 => exact .cons (fun _ _ => rfl) (by simp [twoOwners]) .nil
  | 1 => exact .cons (fun _ _ => rfl) (by simp [twoOwners]) .nil
  | i + 2 => exact .nil

theorem carries_twoDiffs :
    Carries .prefetchPair 0 twoWriters (twoDiffs (Config.prefetchPair.pageAddr 0)) := by
  have hp : Config.prefetchPair.pagei (Config.prefetchPair.pageAddr 0) = 0 := by decide
  intro i
  match i with
  | 0 => simp [diffsFrom, diffsOf, twoDiffs, twoWriters, Interval.diff, encodediff, hp]
  | 1 => simp [diffsFrom, diffsOf, twoDiffs, twoWriters, Interval.diff, encodediff, hp]
  | i + 2 => simp [diffsFrom, diffsOf, twoDiffs, twoWriters]

theorem writers_merge_twoWriters :
    ∃ m', serveDiffs .prefetchPair (initmem .prefetchPair 2)
        (twoDiffs (Config.prefetchPair.pageAddr 0)) = .ok m' ∧
      m'.mem 0 Config.unit0 = 7 ∧ m'.mem 0 (Fin.rev Config.unit0) = 9 := by
  have hhome : HomeHere .prefetchPair (initmem .prefetchPair 2) (Config.prefetchPair.pageAddr 0) :=
    ⟨by decide, by decide, by decide⟩
  obtain ⟨hall, htotal⟩ := writers_merge .prefetchPair (initmem .prefetchPair 2) 0 twoOwners
    twoOwners_disjoint twoWriters twoWriters_writes _ carries_twoDiffs
  obtain ⟨m', hserve⟩ := htotal (by simpa [twoDiffs, twoWriters, Interval.diff, encodediff] using hhome)
  have hmerged := (hall m' hserve).1
  refine ⟨m', hserve, ?_, ?_⟩
  · exact (hmerged.changed 0 Config.unit0 rfl).trans (by decide)
  · exact (hmerged.changed 1 (Fin.rev Config.unit0) rfl).trans (by decide)

end Home

end Jiajia
