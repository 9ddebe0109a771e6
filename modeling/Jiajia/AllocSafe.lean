import Jiajia.AllocInt

/-!
# When allocation is safe

A call of `jia_alloc3` or `jia_alloc4` goes through the hosts in turns.  Which turn is the
last one, and how the call ends there, is told by sums of the block sizes.
-/

namespace Jiajia.AllocInt

open Alloc (Setting Homesize addOrigin twoHosts)

variable (cfg : Setting) (pid : Nat)

/-- The arguments are `int`s, and the first host is one. -/
structure Call.Typed (hostc : Nat) (c : Call) : Prop where
  totalsize : IsInt c.totalsize
  blocks : ∀ b ∈ c.blocks, IsInt b
  starthost : c.starthost < hostc

/-- What changes the tables: a call of `jia_alloc3` or `jia_alloc4`, also by way of the other
allocators, or one of `jia_alloc_array`. -/
inductive Event
  | call (c : Call)
  | array (totalsize : Int) (array : List Int)

/-- The calls of host `pid` that return. -/
def allocSystem : Transition.System Tables Event where
  start := initTables
  next s e s' :=
    match e with
    | .call c => c.Typed cfg.hostc ∧ ∃ fuel a, c.exec cfg pid fuel s = .ok (s', a)
    | .array totalsize array =>
        ∃ fuel a, jiaAllocArray cfg pid fuel totalsize array s = .ok (s', a)

/-! ## What a call is for -/

/-- At least `totalsize` bytes from address `a` on are new: they lie behind the old
`globaladdr`, every page of them has a home, and the host has its own ones in its table. -/
structure Allocated (s : Tables) (totalsize : Int) (s' : Tables) (a : Nat) : Prop where
  address : a = cfg.gstart + s.globaladdr.toNat
  size : s.globaladdr.toNat + totalsize ≤ s'.globaladdr.toNat
  pages : ∀ p, s.globaladdr.toNat ≤ p * Pagesize → p * Pagesize < s'.globaladdr.toNat →
    p < Maxmempages ∧ s'.homepid p < cfg.hostc ∧
      (s'.homepid p = pid → s'.homei p < Homepages ∧
        s'.homeAddr (s'.homei p) = BitVec.ofNat 64 (cfg.gstart + p * Pagesize))

/-- The call stops at an assert, or ends and has allocated. -/
def Safe (c : Call) (s : Tables) : Prop :=
  ∃ fuel, (∃ msg, c.exec cfg pid fuel s = .error (.assert msg)) ∨
    ∃ s' a, c.exec cfg pid fuel s = .ok (s', a) ∧ Allocated cfg pid s c.totalsize s' a

/-! ## Where a call stops -/

namespace Call

variable (hostc : Nat) (c : Call)

/-- The host whose turn is the `t`-th. -/
def owner (t : Nat) : Nat := (c.starthost + t) % hostc

/-- The index of the block size in turn `t`. -/
def round (t : Nat) : Nat := (c.starthost + t) / hostc % c.blocks.length

/-- The size of the block in turn `t`. -/
def size (t : Nat) : Int := aligned (c.blocks.getD (c.round hostc t) 0)

/-- The sizes of all blocks before turn `t`. -/
def before (t : Nat) : Int := ∑ u ∈ Finset.range t, c.size hostc u

/-- The sizes of the blocks of host `h` before turn `t`. -/
def share (h t : Nat) : Int :=
  ∑ u ∈ Finset.range t, if c.owner hostc u = h then c.size hostc u else 0

/-- What is left to allocate before turn `t`. -/
def left (t : Nat) : Int := aligned c.totalsize - c.before hostc t

/-- The home bytes of the owner before its turn `t`. -/
def filled (s : Tables) (t : Nat) : Int :=
  s.homesize (c.owner hostc t) + c.share hostc (c.owner hostc t) t

/-- The block size of turn `t` is there, and its aligned value is an `int`. -/
structure HasSize (t : Nat) : Prop where
  blocks : c.blocks ≠ []
  size : IsInt (c.size hostc t)

/-- Nothing happens in turn `t`: what it computes are `int`s, its pages do not lie before
`page[]`, and the host has room for a block of its own. -/
structure Fine (pid : Nat) (s : Tables) (t : Nat) : Prop extends c.HasSize hostc t where
  filled : IsInt (c.filled hostc s t + c.size hostc t)
  left : IsInt (c.left hostc t - c.size hostc t)
  page : 0 < c.size hostc t → 0 ≤ s.globaladdr.toInt + c.before hostc t
  own : c.owner hostc t = pid →
    0 < c.size hostc t ∧ c.filled hostc s t + c.size hostc t < Homesize

/-- The host stops in turn `t`: its block is none, or does not fit its home table. -/
structure Stops (pid : Nat) (s : Tables) (t : Nat) : Prop extends c.HasSize hostc t where
  own : c.owner hostc t = pid
  filled : IsInt (c.filled hostc s t + c.size hostc t)
  refused : c.size hostc t ≤ 0 ∨ Homesize ≤ c.filled hostc s t + c.size hostc t

/-- There is no room for `totalsize` bytes; or their aligned number is an `int`, and the
first turn that is not fine is one where the host stops or comes after the end, with
`globaladdr` an `int` from the start. -/
def EndsWell (pid : Nat) (s : Tables) : Prop :=
  Maxmemsize < (addLong s.globaladdr c.totalsize).toNat ∨
    IsInt (aligned c.totalsize) ∧
      ∃ t, (∀ u < t, 0 < c.left hostc u ∧ c.Fine hostc pid s u) ∧
        (0 < c.left hostc t ∧ c.Stops hostc pid s t ∨
          c.left hostc t ≤ 0 ∧ s.globaladdr.toInt < 2 ^ 31)

instance (t : Nat) : Decidable (c.HasSize hostc t) :=
  decidable_of_iff (c.blocks ≠ [] ∧ IsInt (c.size hostc t))
    ⟨fun h => ⟨h.1, h.2⟩, fun h => ⟨h.blocks, h.size⟩⟩

instance (pid : Nat) (s : Tables) (t : Nat) : Decidable (c.Fine hostc pid s t) :=
  decidable_of_iff (c.HasSize hostc t ∧ IsInt (c.filled hostc s t + c.size hostc t) ∧
      IsInt (c.left hostc t - c.size hostc t) ∧
      (0 < c.size hostc t → 0 ≤ s.globaladdr.toInt + c.before hostc t) ∧
      (c.owner hostc t = pid →
        0 < c.size hostc t ∧ c.filled hostc s t + c.size hostc t < Homesize))
    ⟨fun h => ⟨h.1, h.2.1, h.2.2.1, h.2.2.2.1, h.2.2.2.2⟩,
      fun h => ⟨h.toHasSize, h.filled, h.left, h.page, h.own⟩⟩

end Call

variable {cfg : Setting} {pid : Nat} {s s' : Tables}

/-! ## The turns of a call -/

namespace Call

variable {hostc : Nat} {c : Call} {t : Nat}

theorem owner_lt (hpos : 0 < hostc) : c.owner hostc t < hostc := Nat.mod_lt _ hpos

theorem owner_succ : c.owner hostc (t + 1) = (c.owner hostc t + 1) % hostc := by
  unfold owner
  rw [Nat.mod_add_mod, Nat.add_assoc]

theorem owner_zero (hstart : c.starthost < hostc) : c.owner hostc 0 = c.starthost :=
  Nat.mod_eq_of_lt hstart

theorem round_zero (hstart : c.starthost < hostc) : c.round hostc 0 = 0 := by
  have hdiv : (c.starthost + 0) / hostc = 0 := Nat.div_eq_of_lt hstart
  rw [round, hdiv, Nat.zero_mod]

theorem round_succ : c.round hostc (t + 1) = if c.owner hostc (t + 1) = 0 then
    (c.round hostc t + 1) % c.blocks.length else c.round hostc t := by
  have hdvd : c.owner hostc (t + 1) = 0 ↔ hostc ∣ c.starthost + t + 1 := by
    rw [owner, Nat.dvd_iff_mod_eq_zero, Nat.add_assoc]
  have hdiv : (c.starthost + (t + 1)) / hostc =
      (c.starthost + t) / hostc + if hostc ∣ c.starthost + t + 1 then 1 else 0 :=
    Nat.succ_div
  unfold round
  rw [hdiv]
  simp only [hdvd]
  split
  · rw [Nat.mod_add_mod]
  · rw [Nat.add_zero]

theorem before_succ : c.before hostc (t + 1) = c.before hostc t + c.size hostc t :=
  Finset.sum_range_succ _ _

theorem share_succ (h : Nat) : c.share hostc h (t + 1) = c.share hostc h t +
    if c.owner hostc t = h then c.size hostc t else 0 :=
  Finset.sum_range_succ _ _

theorem left_succ : c.left hostc (t + 1) = c.left hostc t - c.size hostc t := by
  unfold left
  rw [before_succ]
  omega

theorem size_dvd : (Pagesize : Int) ∣ c.size hostc t := aligned_dvd _

end Call

variable {c : Call} {s₀ : Tables} {t : Nat}

/-- The state after the first `t` turns of a call. -/
structure After (cfg : Setting) (pid : Nat) (c : Call) (s₀ : Tables) (t : Nat) (s : Tables) :
    Prop where
  ok : StateOk cfg pid s
  homesize : ∀ h, s.homesize h = s₀.homesize h + c.share cfg.hostc h t
  total : total cfg.hostc s = total cfg.hostc s₀ + c.before cfg.hostc t
  pages : ∀ p : Nat, AllocInt.total cfg.hostc s₀ ≤ Pagesize * p →
    Pagesize * p < AllocInt.total cfg.hostc s → s.homepid p < cfg.hostc ∧
      (s.homepid p = pid → (Pagesize * s.homei p : Int) < s.homesize pid ∧
        s.homeAddr (s.homei p) = BitVec.ofNat 64 (cfg.gstart + Pagesize * p))

theorem After.zero (hok : StateOk cfg pid s₀) : After cfg pid c s₀ 0 s₀ where
  ok := hok
  homesize h := by simp [Call.share]
  total := by simp [Call.before]
  pages p hle hlt := absurd hlt (not_lt.mpr hle)

theorem After.block (ha : After cfg pid c s₀ t s)
    (hf : BlockFine cfg pid (c.owner cfg.hostc t) (c.size cfg.hostc t) s)
    (hd : BlockDone cfg pid (c.owner cfg.hostc t) (c.size cfg.hostc t) s s') :
    After cfg pid c s₀ (t + 1) s' where
  ok := hd.ok
  homesize h := by
    rw [hd.homesize, upd_apply, Call.share_succ, ha.homesize]
    split
    · rename_i heq
      rw [if_pos heq.symm, heq]
      omega
    · rename_i hne
      rw [if_neg (Ne.symm hne), ha.homesize]
      omega
  total := by
    rw [hd.total, ha.total, Call.before_succ]
    omega
  pages p hle hlt := by
    have hgrows : s.homesize pid ≤ s'.homesize pid := by
      rw [hd.homesize, upd_apply]
      split
      · rename_i heq
        have hpos := (hf.own heq.symm).1
        rw [← heq]
        omega
      · exact le_refl _
    by_cases hin : InBlock cfg.hostc (c.size cfg.hostc t) s p
    · rw [hd.homepid, if_pos hin]
      refine ⟨Call.owner_lt cfg.hostc_pos, ?_⟩
      intro hpid
      obtain ⟨hidx, haddr⟩ := hd.own hpid p hin
      refine ⟨?_, haddr⟩
      have hroom : s'.homesize pid = s.homesize pid + c.size cfg.hostc t := by
        rw [hd.homesize, hpid, upd_same]
      have hlast := hin.2
      omega
    · have hold : Pagesize * p < AllocInt.total cfg.hostc s := by
        have htotal := hd.total
        unfold InBlock at hin
        omega
      obtain ⟨hlt', hown⟩ := ha.pages p hle hold
      have hidx := hd.homei p fun hcon => hin hcon.2
      rw [hd.homepid, if_neg hin, hidx]
      refine ⟨hlt', ?_⟩
      intro hpid
      obtain ⟨hroom, haddr⟩ := hown hpid
      exact ⟨hroom.trans_le hgrows, (hd.homeAddr _ hroom).trans haddr⟩

theorem After.filled (ha : After cfg pid c s₀ t s) :
    s.homesize (c.owner cfg.hostc t) = c.filled cfg.hostc s₀ t := ha.homesize _

theorem After.fine_iff (hok : StateOk cfg pid s₀) (ha : After cfg pid c s₀ t s) :
    c.Fine cfg.hostc pid s₀ t ↔ c.HasSize cfg.hostc t ∧
      BlockFine cfg pid (c.owner cfg.hostc t) (c.size cfg.hostc t) s ∧
      IsInt (c.left cfg.hostc t - c.size cfg.hostc t) := by
  have hfilled := ha.filled
  have hglobal : s₀.globaladdr.toInt + c.before cfg.hostc t = AllocInt.total cfg.hostc s := by
    rw [hok.toInt, ha.total]
  constructor
  · intro hf
    refine ⟨hf.toHasSize, ⟨?_, ?_, ?_⟩, hf.left⟩
    · rw [hfilled]
      exact hf.filled
    · rw [← hglobal]
      exact hf.page
    · rw [hfilled]
      exact hf.own
  · rintro ⟨hsize, hb, hleft⟩
    refine ⟨hsize, ?_, hleft, ?_, ?_⟩
    · rw [← hfilled]
      exact hb.filled
    · rw [hglobal]
      exact hb.page
    · rw [← hfilled]
      exact hb.own

theorem After.stops_iff (ha : After cfg pid c s₀ t s) :
    c.Stops cfg.hostc pid s₀ t ↔ c.HasSize cfg.hostc t ∧
      BlockStops pid (c.owner cfg.hostc t) (c.size cfg.hostc t) s := by
  have hfilled := ha.filled
  constructor
  · intro hs
    refine ⟨hs.toHasSize, hs.own, ?_, ?_⟩
    · rw [hfilled]
      exact hs.filled
    · rw [hfilled]
      exact hs.refused
  · rintro ⟨hsize, hb⟩
    refine ⟨hsize, hb.own, ?_, ?_⟩
    · rw [← hfilled]
      exact hb.filled
    · rw [← hfilled]
      exact hb.refused

/-! ## The outer loop -/

/-- `mapsizes` gives the sizes of the call. -/
def Reads (hostc : Nat) (c : Call) (mapsizes : Nat → Result Int) : Prop :=
  ∀ t, (c.HasSize hostc t → mapsizes (c.round hostc t) = .ok (c.size hostc t)) ∧
    (¬ c.HasSize hostc t → ∃ what, mapsizes (c.round hostc t) = .error (.undefined what))

/-- The outer loop of a call from turn `t` on. -/
def turnLoop (cfg : Setting) (pid : Nat) (c : Call) (mapsizes : Nat → Result Int) (fuel t : Nat)
    (s : Tables) : Result Tables :=
  allocLoop cfg pid mapsizes c.blocks.length fuel (c.left cfg.hostc t) (c.owner cfg.hostc t)
    (c.round cfg.hostc t) s

variable {mapsizes : Nat → Result Int}

theorem turnLoop_end {fuel : Nat} (hleft : c.left cfg.hostc t ≤ 0) :
    turnLoop cfg pid c mapsizes fuel t s = .ok s := by
  cases fuel with
  | zero => rw [turnLoop, allocLoop, if_neg (not_lt.mpr hleft)]
  | succ fuel => rw [turnLoop, allocLoop, if_neg (not_lt.mpr hleft)]

theorem turnLoop_fine (hok : StateOk cfg pid s₀) (hr : Reads cfg.hostc c mapsizes)
    (ha : After cfg pid c s₀ t s) (hleft : 0 < c.left cfg.hostc t)
    (hf : c.Fine cfg.hostc pid s₀ t) : ∃ s', After cfg pid c s₀ (t + 1) s' ∧
      ∀ fuel, turnLoop cfg pid c mapsizes (fuel + 1) t s =
        turnLoop cfg pid c mapsizes fuel (t + 1) s' := by
  obtain ⟨hsize, hb, hint⟩ := (ha.fine_iff hok).mp hf
  obtain ⟨s', hblock, hd⟩ := allocBlock_fine ha.ok (Call.owner_lt cfg.hostc_pos) Call.size_dvd hb
  refine ⟨s', ha.block hb hd, ?_⟩
  intro fuel
  rw [turnLoop, allocLoop, if_pos hleft, (hr t).1 hsize]
  simp only [bind, Except.bind, hblock, int_eq_ok.mpr ⟨hint, rfl⟩]
  rw [turnLoop, Call.left_succ, Call.round_succ, Call.owner_succ]

theorem turnLoop_stops (hr : Reads cfg.hostc c mapsizes) (ha : After cfg pid c s₀ t s)
    (hleft : 0 < c.left cfg.hostc t) (hs : c.Stops cfg.hostc pid s₀ t) (fuel : Nat) :
    ∃ msg, turnLoop cfg pid c mapsizes (fuel + 1) t s = .error (.assert msg) := by
  obtain ⟨hsize, hb⟩ := ha.stops_iff.mp hs
  obtain ⟨msg, hblock⟩ := @allocBlock_stops cfg pid s _ _ hb
  refine ⟨msg, ?_⟩
  rw [turnLoop, allocLoop, if_pos hleft, (hr t).1 hsize]
  simp only [bind, Except.bind, hblock]

theorem turnLoop_undefined (hok : StateOk cfg pid s₀) (hr : Reads cfg.hostc c mapsizes)
    (ha : After cfg pid c s₀ t s) (hleft : 0 < c.left cfg.hostc t)
    (hf : ¬ c.Fine cfg.hostc pid s₀ t) (hs : ¬ c.Stops cfg.hostc pid s₀ t) (fuel : Nat) :
    ∃ what, turnLoop cfg pid c mapsizes (fuel + 1) t s = .error (.undefined what) := by
  rw [turnLoop, allocLoop, if_pos hleft]
  by_cases hsize : c.HasSize cfg.hostc t
  · rw [(hr t).1 hsize]
    by_cases hb : BlockFine cfg pid (c.owner cfg.hostc t) (c.size cfg.hostc t) s
    · -- only what is left to allocate is no `int`
      have hint : ¬ IsInt (c.left cfg.hostc t - c.size cfg.hostc t) :=
        fun hint => hf ((ha.fine_iff hok).mpr ⟨hsize, hb, hint⟩)
      obtain ⟨s', hblock, -⟩ :=
        allocBlock_fine ha.ok (Call.owner_lt cfg.hostc_pos) Call.size_dvd hb
      refine ⟨"int overflow", ?_⟩
      simp only [bind, Except.bind, hblock, int_overflow hint]
    · have hrefused : ¬ BlockStops pid (c.owner cfg.hostc t) (c.size cfg.hostc t) s :=
        fun hb => hs (ha.stops_iff.mpr ⟨hsize, hb⟩)
      obtain ⟨what, hblock⟩ := allocBlock_undefined ha.ok Call.size_dvd hb hrefused
      refine ⟨what, ?_⟩
      simp only [bind, Except.bind, hblock]
  · obtain ⟨what, hwhat⟩ := (hr t).2 hsize
    refine ⟨what, ?_⟩
    rw [hwhat]
    rfl

/-- Turn `u` is not the end, and nothing happens in it. -/
def Goes (cfg : Setting) (pid : Nat) (c : Call) (s₀ : Tables) (u : Nat) : Prop :=
  0 < c.left cfg.hostc u ∧ c.Fine cfg.hostc pid s₀ u

theorem turnLoop_run (hok : StateOk cfg pid s₀) (hr : Reads cfg.hostc c mapsizes)
    (hgoes : ∀ u < t, Goes cfg pid c s₀ u) : ∃ s', After cfg pid c s₀ t s' ∧
      ∀ fuel, turnLoop cfg pid c mapsizes (t + fuel) 0 s₀ =
        turnLoop cfg pid c mapsizes fuel t s' := by
  induction t with
  | zero => exact ⟨s₀, .zero hok, fun fuel => by rw [Nat.zero_add]⟩
  | succ t ih =>
      obtain ⟨s₁, ha, hrun⟩ := ih fun u hu => hgoes u (Nat.lt_succ_of_lt hu)
      have hlast := hgoes t (Nat.lt_succ_self t)
      obtain ⟨s', ha', hstep⟩ := turnLoop_fine hok hr ha hlast.1 hlast.2
      refine ⟨s', ha', ?_⟩
      intro fuel
      rw [← hstep, ← hrun, Nat.add_assoc, Nat.add_comm 1]

/-- A loop that ends or stops does so in the first turn that is not like those before. -/
theorem turnLoop_first (hok : StateOk cfg pid s₀) (hr : Reads cfg.hostc c mapsizes) {fuel : Nat}
    {r : Result Tables} (h : turnLoop cfg pid c mapsizes fuel 0 s₀ = r) :
    r = .error .blocked ∨ (∃ what, r = .error (.undefined what)) ∨
      ∃ t, (∀ u < t, Goes cfg pid c s₀ u) ∧
        ((c.left cfg.hostc t ≤ 0 ∧ ∃ s', r = .ok s' ∧ After cfg pid c s₀ t s') ∨
          (0 < c.left cfg.hostc t ∧ c.Stops cfg.hostc pid s₀ t ∧
            ∃ msg, r = .error (.assert msg))) := by
  by_cases hall : ∀ u < fuel, Goes cfg pid c s₀ u
  · obtain ⟨s', ha, hrun⟩ := turnLoop_run hok hr hall
    have hend := hrun 0
    rw [Nat.add_zero, h] at hend
    by_cases hleft : 0 < c.left cfg.hostc fuel
    · left
      rw [hend, turnLoop, allocLoop, if_pos hleft]
    · right; right
      rw [turnLoop_end (not_lt.mp hleft)] at hend
      exact ⟨fuel, hall, .inl ⟨not_lt.mp hleft, s', hend, ha⟩⟩
  · classical
    have hex : ∃ u, ¬ Goes cfg pid c s₀ u := by
      by_contra hno
      exact hall fun u _ => not_not.mp (not_exists.mp hno u)
    have hfirst : ∀ u < Nat.find hex, Goes cfg pid c s₀ u :=
      fun u hu => not_not.mp (Nat.find_min hex hu)
    have hlt : Nat.find hex < fuel := by
      by_contra hle
      exact hall fun u hu => hfirst u (hu.trans_le (not_lt.mp hle))
    have hbad := Nat.find_spec hex
    generalize Nat.find hex = t at hfirst hlt hbad
    obtain ⟨s', ha, hrun⟩ := turnLoop_run hok hr hfirst
    obtain ⟨k, rfl⟩ : ∃ k, fuel = t + (k + 1) := ⟨fuel - t - 1, by omega⟩
    rw [hrun] at h
    right
    by_cases hleft : 0 < c.left cfg.hostc t
    · have hf : ¬ c.Fine cfg.hostc pid s₀ t := fun hf => hbad ⟨hleft, hf⟩
      by_cases hs : c.Stops cfg.hostc pid s₀ t
      · right
        obtain ⟨msg, hmsg⟩ := turnLoop_stops hr ha hleft hs k
        exact ⟨t, hfirst, .inr ⟨hleft, hs, msg, h.symm.trans hmsg⟩⟩
      · left
        obtain ⟨what, hwhat⟩ := turnLoop_undefined hok hr ha hleft hf hs k
        exact ⟨what, h.symm.trans hwhat⟩
    · right
      rw [turnLoop_end (not_lt.mp hleft)] at h
      exact ⟨t, hfirst, .inl ⟨not_lt.mp hleft, s', h.symm, ha⟩⟩

/-! ## A call -/

theorem reads_arraySize {totalsize : Int} {blocks : List Int} {starthost hostc : Nat} :
    Reads hostc (.alloc4 totalsize blocks starthost) (arraySize blocks) := by
  intro t
  generalize hi : (Call.alloc4 totalsize blocks starthost).round hostc t = i
  have hsize : (Call.alloc4 totalsize blocks starthost).size hostc t =
      aligned (blocks.getD i 0) := by
    rw [← hi]
    rfl
  have hlen : blocks ≠ [] → i < blocks.length := by
    intro hne
    rw [← hi]
    exact Nat.mod_lt _ (List.length_pos_iff.mpr hne)
  constructor
  · intro hs
    have hint := hs.size
    rw [hsize] at hint ⊢
    rw [arraySize, defined, if_pos (hlen hs.blocks)]
    exact int_eq_ok.mpr ⟨hint, rfl⟩
  · intro hno
    by_cases hne : blocks = []
    · refine ⟨"blocks[] out of range", ?_⟩
      have hout : ¬ i < blocks.length := by
        rw [hne]
        exact Nat.not_lt_zero i
      rw [arraySize, defined, if_neg hout]
      rfl
    · have hint : ¬ IsInt (aligned (blocks.getD i 0)) :=
        fun hint => hno ⟨hne, hsize ▸ hint⟩
      refine ⟨"int overflow", ?_⟩
      rw [arraySize, defined, if_pos (hlen hne)]
      exact int_overflow hint

theorem reads_oneSize {totalsize blocksize : Int} {starthost hostc : Nat}
    (hint : IsInt (aligned blocksize)) :
    Reads hostc (.alloc3 totalsize blocksize starthost) fun _ => .ok (aligned blocksize) := by
  intro t
  have hsize : (Call.alloc3 totalsize blocksize starthost).size hostc t = aligned blocksize := by
    have hone : (Call.alloc3 totalsize blocksize starthost).round hostc t = 0 := Nat.mod_one _
    rw [Call.size, hone]
    rfl
  constructor
  · intro _
    rw [hsize]
  · intro hno
    exact absurd ⟨List.cons_ne_nil _ _, hsize ▸ hint⟩ hno

/-- The sizes a call finds. -/
def Call.sizes : Call → Result (Nat → Result Int)
  | .alloc3 _ b _ => oneSize b
  | .alloc4 _ bs _ => .ok (arraySize bs)

theorem exec_eq (fuel : Nat) : c.exec cfg pid fuel s =
    allocate cfg pid fuel c.totalsize c.sizes c.blocks.length c.starthost s := by
  cases c <;> rfl

theorem mapsizes_reads (c : Call) (hostc : Nat) :
    (¬ c.HasSize hostc 0 ∧ c.sizes = .error (.undefined "int overflow")) ∨
      ∃ mapsizes, c.sizes = .ok mapsizes ∧ Reads hostc c mapsizes := by
  cases c with
  | alloc3 n b h =>
      by_cases hb : IsInt (aligned b)
      · right
        refine ⟨_, ?_, reads_oneSize hb⟩
        rw [Call.sizes, oneSize, align2page, int_eq_ok.mpr ⟨hb, rfl⟩]
        rfl
      · left
        constructor
        · intro hs
          have hone : (Call.alloc3 n b h).round hostc 0 = 0 := Nat.mod_one _
          have hint := hs.size
          rw [Call.size, hone] at hint
          exact hb hint
        · rw [Call.sizes, oneSize, align2page, int_overflow hb]
          rfl
  | alloc4 n bs h => exact .inr ⟨_, rfl, reads_arraySize⟩

/-- The address a call returns. -/
def returned (cfg : Setting) (s : Tables) : Nat :=
  addOrigin cfg.gstart (s.globaladdr.truncate 32).toInt

theorem exec_insufficient (hroom : Maxmemsize < (addLong s.globaladdr c.totalsize).toNat)
    (fuel : Nat) : c.exec cfg pid fuel s = .error (.assert "Insufficient shared space!") := by
  rw [exec_eq, allocate, jiaAssert, if_neg (not_le.mpr hroom)]
  rfl

theorem exec_overflow (hroom : (addLong s.globaladdr c.totalsize).toNat ≤ Maxmemsize)
    (hint : ¬ IsInt (aligned c.totalsize)) (fuel : Nat) :
    c.exec cfg pid fuel s = .error (.undefined "int overflow") := by
  rw [exec_eq, allocate, jiaAssert, if_pos hroom, align2page, int_overflow hint]
  rfl

/-- With room for an aligned `int`, the outer loop runs, unless `jia_alloc3` has no size
for it. -/
theorem exec_loop (hstart : c.starthost < cfg.hostc)
    (hroom : (addLong s.globaladdr c.totalsize).toNat ≤ Maxmemsize)
    (hint : IsInt (aligned c.totalsize)) :
    (¬ c.HasSize cfg.hostc 0 ∧
      ∀ fuel, c.exec cfg pid fuel s = .error (.undefined "int overflow")) ∨
    ∃ mapsizes, Reads cfg.hostc c mapsizes ∧ ∀ fuel, c.exec cfg pid fuel s =
      (turnLoop cfg pid c mapsizes fuel 0 s).map fun s' => (s', returned cfg s) := by
  have hsize := int_eq_ok.mpr ⟨hint, rfl⟩
  cases mapsizes_reads c cfg.hostc with
  | inl hnone =>
      refine .inl ⟨hnone.1, ?_⟩
      intro fuel
      rw [exec_eq, allocate, jiaAssert, if_pos hroom, align2page, hsize, hnone.2]
      rfl
  | inr hsome =>
      obtain ⟨mapsizes, hmap, hr⟩ := hsome
      refine .inr ⟨mapsizes, hr, ?_⟩
      intro fuel
      have hleft : c.left cfg.hostc 0 = aligned c.totalsize := by simp [Call.left, Call.before]
      rw [exec_eq, allocate, jiaAssert, if_pos hroom, align2page, hsize, hmap, turnLoop, hleft,
        Call.owner_zero hstart, Call.round_zero hstart]
      simp only [bind, Except.bind]
      cases allocLoop cfg pid mapsizes c.blocks.length fuel (aligned c.totalsize) c.starthost 0 s <;>
        rfl

/-- The ways a call can go: there is no room, the fuel ends, something undefined happens, or
its turns go on up to one where it returns or stops at an assert. -/
theorem exec_cases (hok : StateOk cfg pid s) (hstart : c.starthost < cfg.hostc) {fuel : Nat}
    {r : Result (Tables × Nat)} (h : c.exec cfg pid fuel s = r) :
    Maxmemsize < (addLong s.globaladdr c.totalsize).toNat ∨
    r = .error .blocked ∨ (∃ what, r = .error (.undefined what)) ∨
    IsInt (aligned c.totalsize) ∧ ∃ t, (∀ u < t, Goes cfg pid c s u) ∧
      ((c.left cfg.hostc t ≤ 0 ∧ ∃ s', r = .ok (s', returned cfg s) ∧ After cfg pid c s t s') ∨
        (0 < c.left cfg.hostc t ∧ c.Stops cfg.hostc pid s t ∧
          ∃ msg, r = .error (.assert msg))) := by
  subst h
  by_cases hroom : (addLong s.globaladdr c.totalsize).toNat ≤ Maxmemsize
  · right
    by_cases hint : IsInt (aligned c.totalsize)
    · cases @exec_loop cfg pid s c hstart hroom hint with
      | inl hnone => exact .inr (.inl ⟨_, hnone.2 fuel⟩)
      | inr hloop =>
          obtain ⟨mapsizes, hr, hexec⟩ := hloop
          rw [hexec fuel]
          rcases turnLoop_first hok hr (@rfl _ (turnLoop cfg pid c mapsizes fuel 0 s)) with
            hblocked | ⟨what, hwhat⟩ | ⟨t, hgoes, ⟨hleft, s₁, hend, ha⟩ | ⟨hleft, hs, msg, hmsg⟩⟩
          · rw [hblocked]
            exact .inl rfl
          · rw [hwhat]
            exact .inr (.inl ⟨what, rfl⟩)
          · rw [hend]
            exact .inr (.inr ⟨hint, t, hgoes, .inl ⟨hleft, s₁, rfl, ha⟩⟩)
          · rw [hmsg]
            exact .inr (.inr ⟨hint, t, hgoes, .inr ⟨hleft, hs, msg, rfl⟩⟩)
    · exact .inr (.inl ⟨_, exec_overflow hroom hint fuel⟩)
  · exact .inl (not_le.mp hroom)

/-- A call that returns. -/
theorem exec_ok (hok : StateOk cfg pid s) (hstart : c.starthost < cfg.hostc) {fuel a : Nat}
    (h : c.exec cfg pid fuel s = .ok (s', a)) :
    IsInt (aligned c.totalsize) ∧ a = returned cfg s ∧
      ∃ t, (∀ u < t, Goes cfg pid c s u) ∧ c.left cfg.hostc t ≤ 0 ∧ After cfg pid c s t s' := by
  rcases exec_cases hok hstart h with hroom | hblocked | ⟨what, hwhat⟩ |
    ⟨hint, t, hgoes, ⟨hleft, s₁, hend, ha⟩ | ⟨-, -, msg, hmsg⟩⟩
  · rw [exec_insufficient hroom] at h
    cases h
  · cases hblocked
  · cases hwhat
  · simp only [Except.ok.injEq, Prod.mk.injEq] at hend
    obtain ⟨rfl, rfl⟩ := hend
    exact ⟨hint, rfl, t, hgoes, hleft, ha⟩
  · cases hmsg

/-- A call that stops at an assert. -/
theorem exec_assert (hok : StateOk cfg pid s) (hstart : c.starthost < cfg.hostc) {fuel : Nat}
    {msg : String} (h : c.exec cfg pid fuel s = .error (.assert msg)) :
    Maxmemsize < (addLong s.globaladdr c.totalsize).toNat ∨ IsInt (aligned c.totalsize) ∧
      ∃ t, (∀ u < t, Goes cfg pid c s u) ∧ 0 < c.left cfg.hostc t ∧
        c.Stops cfg.hostc pid s t := by
  rcases exec_cases hok hstart h with hroom | hblocked | ⟨what, hwhat⟩ |
    ⟨hint, t, hgoes, ⟨-, s₁, hend, -⟩ | ⟨hleft, hs, -⟩⟩
  · exact .inl hroom
  · cases hblocked
  · cases hwhat
  · cases hend
  · exact .inr ⟨hint, t, hgoes, hleft, hs⟩

/-- Turns that all go on, and then the end. -/
theorem exec_ends (hok : StateOk cfg pid s) (hstart : c.starthost < cfg.hostc)
    (hroom : (addLong s.globaladdr c.totalsize).toNat ≤ Maxmemsize)
    (hint : IsInt (aligned c.totalsize)) (hsize : c.HasSize cfg.hostc 0) {t : Nat}
    (hgoes : ∀ u < t, Goes cfg pid c s u) (hleft : c.left cfg.hostc t ≤ 0) :
    ∃ s', c.exec cfg pid t s = .ok (s', returned cfg s) ∧ After cfg pid c s t s' := by
  cases @exec_loop cfg pid s c hstart hroom hint with
  | inl hnone => exact absurd hsize hnone.1
  | inr hloop =>
      obtain ⟨mapsizes, hr, hexec⟩ := hloop
      obtain ⟨s', ha, hrun⟩ := turnLoop_run hok hr hgoes
      refine ⟨s', ?_, ha⟩
      have hend := hrun 0
      rw [Nat.add_zero, turnLoop_end hleft] at hend
      rw [hexec, hend]
      rfl

/-- Turns that all go on, and then one where the host stops. -/
theorem exec_stops (hok : StateOk cfg pid s) (hstart : c.starthost < cfg.hostc)
    (hroom : (addLong s.globaladdr c.totalsize).toNat ≤ Maxmemsize)
    (hint : IsInt (aligned c.totalsize)) (hsize : c.HasSize cfg.hostc 0) {t : Nat}
    (hgoes : ∀ u < t, Goes cfg pid c s u) (hleft : 0 < c.left cfg.hostc t)
    (hs : c.Stops cfg.hostc pid s t) :
    ∃ msg, c.exec cfg pid (t + 1) s = .error (.assert msg) := by
  cases @exec_loop cfg pid s c hstart hroom hint with
  | inl hnone => exact absurd hsize hnone.1
  | inr hloop =>
      obtain ⟨mapsizes, hr, hexec⟩ := hloop
      obtain ⟨s', ha, hrun⟩ := turnLoop_run hok hr hgoes
      obtain ⟨msg, hmsg⟩ := turnLoop_stops hr ha hleft hs 0
      refine ⟨msg, ?_⟩
      rw [hexec, hrun, hmsg]
      rfl

/-! ## What a call that returns has allocated -/

/-- No block goes before `page[]`. -/
theorem before_nonpos (hok : StateOk cfg pid s) (hneg : total cfg.hostc s < 0)
    (hgoes : ∀ u < t, Goes cfg pid c s u) : c.before cfg.hostc t ≤ 0 := by
  induction t with
  | zero => exact le_of_eq (Finset.sum_range_zero _)
  | succ t ih =>
      have hbefore := ih fun u hu => hgoes u (Nat.lt_succ_of_lt hu)
      have hpage := (hgoes t (Nat.lt_succ_self t)).2.page
      rw [hok.toInt] at hpage
      rw [Call.before_succ]
      omega

theorem returned_eq_iff {x : Int} (hg : s.globaladdr = BitVec.ofInt 64 x) (h0 : 0 ≤ x)
    (hlt : x < 2 ^ 35) : returned cfg s = cfg.gstart + s.globaladdr.toNat ↔ x < 2 ^ 31 := by
  have hgs := cfg.gstart_le
  have hnat := toNat_ofInt h0 (by omega)
  have horigin : ((BitVec.ofInt 64 x).truncate 32).toInt = Int.bmod x (2 ^ 32) := by
    rw [BitVec.truncate_eq_setWidth, BitVec.toInt_eq_toNat_bmod, BitVec.toNat_setWidth, hnat]
    have hcast : ((x.toNat % 2 ^ 32 : Nat) : Int) = x % (2 ^ 32 : Nat) := by omega
    rw [hcast]
    exact Int.emod_bmod _ _
  rw [returned, hg, hnat, horigin, addOrigin, BitVec.toNat_ofInt]
  simp only [Maxmemsize] at hgs
  by_cases hsmall : x < 2 ^ 31
  · have hsame : Int.bmod x (2 ^ 32) = x := Int.bmod_eq_of_le (by omega) (by omega)
    rw [hsame]
    omega
  · have hrange : -2 ^ 31 ≤ Int.bmod x (2 ^ 32) ∧ Int.bmod x (2 ^ 32) < 2 ^ 31 := by
      have hlow := Int.le_bmod (x := x) (m := 2 ^ 32) (by decide)
      have hhigh := Int.bmod_lt (x := x) (m := 2 ^ 32) (by decide)
      omega
    omega

theorem After.allocated (hok : StateOk cfg pid s₀) (ha : After cfg pid c s₀ t s)
    (htotal : 0 < c.totalsize) (hgoes : ∀ u < t, Goes cfg pid c s₀ u)
    (hleft : c.left cfg.hostc t ≤ 0) : Allocated cfg pid s₀ c.totalsize s (returned cfg s₀) ↔
      s₀.globaladdr.toInt < 2 ^ 31 := by
  have hbefore : c.totalsize ≤ c.before cfg.hostc t := by
    have hle := le_aligned htotal
    unfold Call.left at hleft
    omega
  have hnonneg : 0 ≤ AllocInt.total cfg.hostc s₀ := by
    by_contra hneg
    have hnone := before_nonpos hok (not_le.mp hneg) hgoes
    omega
  have hb₀ := hok.bounds
  have hb := ha.ok.bounds
  have hsum := ha.total
  have hnat₀ : s₀.globaladdr.toNat = (AllocInt.total cfg.hostc s₀).toNat := by
    rw [hok.globaladdr, toNat_ofInt hnonneg (by omega)]
  have hnat : s.globaladdr.toNat = (AllocInt.total cfg.hostc s).toNat := by
    rw [ha.ok.globaladdr, toNat_ofInt (by omega) (by omega)]
  have hreturned := @returned_eq_iff cfg s₀ _ hok.globaladdr hnonneg hb₀.2
  rw [hok.toInt]
  constructor
  · exact fun hall => hreturned.mp hall.address
  · intro hsmall
    refine ⟨hreturned.mpr hsmall, ?_, ?_⟩
    · rw [hnat₀, hnat]
      omega
    · intro p hle hlt
      rw [hnat₀] at hle
      rw [hnat] at hlt
      have hlow : AllocInt.total cfg.hostc s₀ ≤ Pagesize * p := by
        simp only [Pagesize] at *
        omega
      have hhigh : Pagesize * p < AllocInt.total cfg.hostc s := by
        simp only [Pagesize] at *
        omega
      obtain ⟨howner, hown⟩ := ha.pages p hlow hhigh
      refine ⟨?_, howner, ?_⟩
      · simp only [Maxmempages, Maxmemsize, Pagesize] at *
        omega
      · intro hpid
        obtain ⟨hroom, haddr⟩ := hown hpid
        have hlimit := ha.ok.own.2
        refine ⟨?_, ?_⟩
        · simp only [Homesize, Homepages, Pagesize] at *
          omega
        · rw [haddr, Nat.mul_comm]

/-! ## All calls -/

theorem reach_stateOk (hs : (allocSystem cfg pid).Reach s) : StateOk cfg pid s := by
  apply hs.invariant (I := StateOk cfg pid)
  · exact stateOk_init
  · intro s e s' _ hok hnext
    cases e with
    | call c =>
        obtain ⟨htyped, fuel, a, hexec⟩ := hnext
        obtain ⟨-, -, t, -, -, ha⟩ := exec_ok hok htyped.starthost hexec
        exact ha.ok
    | array totalsize array =>
        obtain ⟨fuel, a, hexec⟩ := hnext
        exact hok.jiaAllocArray hexec

/-- Allocation is safe, in every state that calls lead to, just when no `int` overflows and no
page lies before `page[]` until the call is over, and `globaladdr` is an `int` at a call that
returns. -/
theorem alloc_safe_iff (hs : (allocSystem cfg pid).Reach s) (hc : c.Typed cfg.hostc)
    (htotal : 0 < c.totalsize) : Safe cfg pid c s ↔ c.EndsWell cfg.hostc pid s := by
  have hok := reach_stateOk hs
  have hstart := hc.starthost
  constructor
  · rintro ⟨fuel, ⟨msg, hmsg⟩ | ⟨s', a, hexec, hall⟩⟩
    · cases exec_assert hok hstart hmsg with
      | inl hroom => exact .inl hroom
      | inr hstops =>
          obtain ⟨hint, t, hgoes, hleft, hstops⟩ := hstops
          exact .inr ⟨hint, t, hgoes, .inl ⟨hleft, hstops⟩⟩
    · obtain ⟨hint, rfl, t, hgoes, hleft, ha⟩ := exec_ok hok hstart hexec
      exact .inr ⟨hint, t, hgoes, .inr ⟨hleft, (ha.allocated hok htotal hgoes hleft).mp hall⟩⟩
  · intro hends
    by_cases hroom : (addLong s.globaladdr c.totalsize).toNat ≤ Maxmemsize
    · obtain ⟨hint, t, hgoes, hlast⟩ := hends.resolve_left (not_lt.mpr hroom)
      have hfirst : 0 < c.left cfg.hostc 0 := by
        have hle := le_aligned htotal
        have hzero : c.before cfg.hostc 0 = 0 := Finset.sum_range_zero _
        unfold Call.left
        omega
      cases hlast with
      | inl hstops =>
          have hsize : c.HasSize cfg.hostc 0 := by
            cases t with
            | zero => exact hstops.2.toHasSize
            | succ t => exact (hgoes 0 (Nat.succ_pos t)).2.toHasSize
          obtain ⟨msg, hmsg⟩ :=
            exec_stops hok hstart hroom hint hsize hgoes hstops.1 hstops.2
          exact ⟨t + 1, .inl ⟨msg, hmsg⟩⟩
      | inr hend =>
          have hsize : c.HasSize cfg.hostc 0 := by
            cases t with
            | zero => omega
            | succ t => exact (hgoes 0 (Nat.succ_pos t)).2.toHasSize
          obtain ⟨s', hexec, ha⟩ := exec_ends hok hstart hroom hint hsize hgoes hend.1
          exact ⟨t, .inr ⟨s', _, hexec, (ha.allocated hok htotal hgoes hend.1).mpr hend.2⟩⟩
    · exact ⟨0, .inl ⟨_, exec_insufficient (not_le.mp hroom) 0⟩⟩

/-- Two pages, one on each host. -/
theorem alloc_safe_twoPages : Safe twoHosts 0 (.alloc3 8192 4096 0) initTables := by
  have htyped : (Call.alloc3 8192 4096 0).Typed twoHosts.hostc := by
    refine ⟨by decide, ?_, by decide⟩
    intro b hb
    rw [List.mem_singleton.mp hb]
    decide
  have hgoes : ∀ u < 2, 0 < (Call.alloc3 8192 4096 0).left twoHosts.hostc u ∧
      (Call.alloc3 8192 4096 0).Fine twoHosts.hostc 0 initTables u := by decide +kernel
  exact (alloc_safe_iff .start htyped (by decide)).mpr
    (.inr ⟨by decide, 2, hgoes, .inr ⟨by decide +kernel, by decide⟩⟩)

/-- The largest `int` is refused by no assert, and its aligned value is no `int`. -/
theorem largest_int_not_safe : (allocSystem twoHosts 0).Reach initTables ∧
    (Call.alloc3 0x7fffffff 4096 0).Typed twoHosts.hostc ∧
    ¬ Safe twoHosts 0 (.alloc3 0x7fffffff 4096 0) initTables := by
  have hrun : ∀ fuel, (Call.alloc3 0x7fffffff 4096 0).exec twoHosts 0 fuel initTables =
      .error (.undefined "int overflow") := exec_overflow (by decide) (by decide)
  refine ⟨.start, ⟨by decide, ?_, by decide⟩, ?_⟩
  · intro b hb
    rw [List.mem_singleton.mp hb]
    decide
  · rintro ⟨fuel, ⟨msg, hmsg⟩ | ⟨s', a, hok, -⟩⟩
    · rw [hrun] at hmsg
      cases hmsg
    · rw [hrun] at hok
      cases hok

end Jiajia.AllocInt
