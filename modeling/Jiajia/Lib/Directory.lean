import Mathlib.Tactic.Common

/-!
# A home that remembers whether there are copies

One object and its home.  A party that sees itself as the home hands out copies
and sets a flag; it clears the flag when it announces a write for the round of a
counting coordinator.  The end of a round tells every party of the announcement,
which drops its copy and may move the home.
-/

namespace Directory

/-- What a round announces: the one writer, or a number that is no party, and
whether the home moves to it. -/
structure Notice where
  writer : Nat
  moves : Bool

/-- One object as all parties see it.  `home` is the home after all rounds that
have ended and `last` the one before the last of them; `holds` counts copies on
their way to a party; `told` means an announcement for the round a party is in. -/
structure State where
  rounds : Nat
  granted : Nat → Nat
  last : Nat
  home : Nat
  seen : Nat → Nat
  holds : Nat → Prop
  told : Nat → Prop
  flag : Nat → Bool
  cleared : Nat → Option Nat
  due : Nat → Option Notice

/-- The home after a notice. -/
def Notice.apply (nt : Notice) (home : Nat) : Nat := if nt.moves then nt.writer else home

def applyDue : Option Notice → Nat → Nat
  | none, home => home
  | some nt, home => nt.apply home

/-- What only the end of a round and the answers to it change. -/
structure Frame (x y : State) : Prop where
  rounds : y.rounds = x.rounds
  granted : y.granted = x.granted
  last : y.last = x.last
  home : y.home = x.home
  seen : y.seen = x.seen
  due : y.due = x.due

/-- Steps of `n` parties. -/
inductive Step (n : Nat) (x y : State) : Prop
  /-- Copies are dropped, or handed out by a party that sets its flag. -/
  | keep (hframe : Frame x y) (hcleared : y.cleared = x.cleared)
      (hflag : ∀ h < n, x.seen h = h → y.flag h = false → x.flag h = false)
      (htold : ∀ h < n, x.granted h = x.rounds → x.told h → y.told h)
      (hholds : ∀ h < n, y.holds h → x.holds h ∨ ∃ p < n, x.seen p = p ∧ y.flag p = true)
  /-- Party `p` announces a write and clears its flag. -/
  | clear (p : Nat) (hframe : Frame x y) (hp : x.granted p = x.rounds)
      (hcleared : y.cleared p = some x.rounds) (hother : ∀ h, h ≠ p → y.cleared h = x.cleared h)
      (hflag : ∀ h < n, h ≠ p → y.flag h = false → x.flag h = false)
      (htold : ∀ h < n, x.granted h = x.rounds → x.told h → y.told h) (hnew : y.told p)
      (hholds : ∀ h < n, y.holds h → x.holds h)
  /-- A round ends with the notice `m`. -/
  | close (m : Option Notice) (hall : ∀ h < n, x.granted h = x.rounds)
      (hrounds : y.rounds = x.rounds + 1) (hgranted : y.granted = x.granted)
      (hlast : y.last = x.home) (hhome : y.home = applyDue m x.home) (hseen : y.seen = x.seen)
      (hflag : y.flag = x.flag) (hcleared : y.cleared = x.cleared)
      (hdue : ∀ h < n, y.due h = m) (hholds : ∀ h < n, y.holds h → x.holds h)
      (htold : ∀ h < n, x.told h → ∃ nt, m = some nt ∧ ∀ h' < n, h' ≠ h → nt.writer ≠ h')
  /-- Party `p` takes the notice. -/
  | hear (p : Nat) (nt : Notice) (hdue : x.due p = some nt) (hdue' : y.due p = none)
      (hduer : ∀ h, h ≠ p → y.due h = x.due h) (hrounds : y.rounds = x.rounds)
      (hgranted : y.granted = x.granted) (hlast : y.last = x.last) (hhome : y.home = x.home)
      (hseen : y.seen p = nt.apply (x.seen p)) (hseenr : ∀ h, h ≠ p → y.seen h = x.seen h)
      (hflag : y.seen p = p → y.flag p = false → x.seen p = p ∧ x.flag p = false)
      (hflagr : ∀ h, h ≠ p → y.flag h = x.flag h) (hcleared : y.cleared = x.cleared)
      (hholds : y.holds p → (x.holds p ∧ (nt.writer = p ∨ x.seen p = p)) ∨
        (x.seen p = p ∧ y.seen p ≠ p))
      (hholdsr : ∀ h < n, h ≠ p → y.holds h → x.holds h)
      (htold : ∀ h < n, h ≠ p → x.told h → y.told h)
  /-- Party `p` has the whole answer. -/
  | grant (p : Nat) (hdue : x.due p = none) (hp : x.granted p + 1 = x.rounds)
      (hgranted : y.granted p = x.granted p + 1)
      (hgrantedr : ∀ h, h ≠ p → y.granted h = x.granted h) (hdue' : y.due = x.due)
      (hrounds : y.rounds = x.rounds) (hlast : y.last = x.last) (hhome : y.home = x.home)
      (hseen : y.seen = x.seen) (hflag : y.flag = x.flag) (hcleared : y.cleared = x.cleared)
      (hholds : ∀ h < n, y.holds h → x.holds h)
      (htold : ∀ h < n, h ≠ p → x.told h → y.told h)

/-! ## The invariant -/

/-- Party `h` knows the home after all rounds, unless the last notice is due. -/
inductive Known (x : State) (h : Nat) : Prop
  | done (hgranted : x.granted h = x.rounds) (hdue : x.due h = none) (hseen : x.seen h = x.home)
  | heard (hgranted : x.granted h + 1 = x.rounds) (hdue : x.due h = none)
      (hseen : x.seen h = x.home)
  | waits (nt : Notice) (hgranted : x.granted h + 1 = x.rounds) (hdue : x.due h = some nt)
      (hseen : x.seen h = x.last) (hhome : x.home = nt.apply x.last)

/-- The home has announced its write for the round that is not over yet. -/
def Noted (x : State) (p : Nat) : Prop :=
  x.granted p = x.rounds ∧ x.told p ∧ x.cleared p = some x.rounds

/-- Party `h` is in the round in which `p` cleared its flag and will drop its copy. -/
def Doomed (x : State) (p h : Nat) : Prop :=
  x.granted h + 1 = x.rounds ∧ x.cleared p = some (x.granted h) ∧
    ∃ nt, x.due h = some nt ∧ nt.writer ≠ h

/-- All parties agree on the home `p`, and every copy elsewhere will be dropped. -/
def Clean (n : Nat) (x : State) (p : Nat) : Prop :=
  (∀ h < n, x.seen h = p) ∧ ∀ h < n, h ≠ p → x.holds h → Doomed x p h

structure Inv (n : Nat) (x : State) : Prop where
  known : ∀ h < n, Known x h
  safe : ∀ p < n, p = x.home → x.seen p = p → x.flag p = false → Noted x p ∨ Clean n x p

section Inv

variable {n : Nat} {x y : State}

theorem Known.frame {h : Nat} (hk : Known x h) (hf : Frame x y) : Known y h := by
  cases hk with
  | done hg hd hs =>
      exact .done (by rw [hf.granted, hf.rounds, hg]) (by rw [hf.due, hd])
        (by rw [hf.seen, hf.home, hs])
  | heard hg hd hs =>
      exact .heard (by rw [hf.granted, hf.rounds, hg]) (by rw [hf.due, hd])
        (by rw [hf.seen, hf.home, hs])
  | waits nt hg hd hs hh =>
      exact .waits nt (by rw [hf.granted, hf.rounds, hg])
        (by rw [hf.due, hd]) (by rw [hf.seen, hf.last, hs]) (by rw [hf.home, hf.last, hh])

theorem Known.granted {h : Nat} (hk : Known x h) :
    x.granted h = x.rounds ∨ x.granted h + 1 = x.rounds := by
  cases hk with
  | done hg hd hs => exact Or.inl hg
  | heard hg hd hs => exact Or.inr hg
  | waits nt hg hd hs hh => exact Or.inr hg

/-- A party that has the answer to every round that is over. -/
theorem Known.up_to_date {h : Nat} (hk : Known x h) (hg : x.granted h = x.rounds) :
    x.due h = none ∧ x.seen h = x.home := by
  cases hk with
  | done _ hd hs => exact ⟨hd, hs⟩
  | heard hg' _ _ => omega
  | waits nt hg' _ _ _ => omega

theorem Known.of_due {h : Nat} {nt : Notice} (hk : Known x h) (hd : x.due h = some nt) :
    x.granted h + 1 = x.rounds ∧ x.seen h = x.last ∧ x.home = nt.apply x.last := by
  cases hk with
  | done _ hd' _ => rw [hd'] at hd; cases hd
  | heard _ hd' _ => rw [hd'] at hd; cases hd
  | waits nt' hg hd' hs hh =>
      rw [hd'] at hd
      obtain rfl := Option.some.inj hd
      exact ⟨hg, hs, hh⟩

theorem Known.of_none {h : Nat} (hk : Known x h) (hd : x.due h = none) : x.seen h = x.home := by
  cases hk with
  | done _ _ hs => exact hs
  | heard _ _ hs => exact hs
  | waits nt _ hd' _ _ => rw [hd'] at hd; cases hd

theorem Noted.frame {p : Nat} (hf : Frame x y) (hcleared : y.cleared p = x.cleared p)
    (htold : x.granted p = x.rounds → x.told p → y.told p) (hp : Noted x p) : Noted y p :=
  ⟨by rw [hf.granted, hf.rounds, hp.1], htold hp.1 hp.2.1,
    by rw [hcleared, hf.rounds, hp.2.2]⟩

theorem Doomed.frame {p h : Nat} (hf : Frame x y) (hcleared : y.cleared p = x.cleared p)
    (hd : Doomed x p h) : Doomed y p h := by
  obtain ⟨hg, hc, nt, hdue, hne⟩ := hd
  exact ⟨by rw [hf.granted, hf.rounds, hg], by rw [hcleared, hc, hf.granted],
    nt, by rw [hf.due, hdue], hne⟩

/-- Nobody hands out copies but the home once all parties agree. -/
theorem inv_keep (hinv : Inv n x) (hf : Frame x y) (hcleared : y.cleared = x.cleared)
    (hflag : ∀ h < n, x.seen h = h → y.flag h = false → x.flag h = false)
    (htold : ∀ h < n, x.granted h = x.rounds → x.told h → y.told h)
    (hholds : ∀ h < n, y.holds h → x.holds h ∨ ∃ p < n, x.seen p = p ∧ y.flag p = true) :
    Inv n y where
  known h hh := (hinv.known h hh).frame hf
  safe p hp hhome hseen hclear := by
    rw [hf.home] at hhome
    rw [hf.seen] at hseen
    have hc : y.cleared p = x.cleared p := by rw [hcleared]
    rcases hinv.safe p hp hhome hseen (hflag p hp hseen hclear) with hn | ⟨hall, hcopies⟩
    · exact Or.inl (hn.frame hf hc (htold p hp))
    · right
      refine ⟨fun h hh => by rw [hf.seen, hall h hh], ?_⟩
      intro h hh hne hcopy
      rcases hholds h hh hcopy with hcopy | ⟨q, hq, hown, hset⟩
      · exact (hcopies h hh hne hcopy).frame hf hc
      · -- the party that hands out the copy is the home
        have hqp : q = p := hown.symm.trans (hall q hq)
        rw [hqp, hclear] at hset
        cases hset

theorem inv_clear {p : Nat} (hinv : Inv n x) (hf : Frame x y) (hp : x.granted p = x.rounds)
    (hcleared : y.cleared p = some x.rounds) (hother : ∀ h, h ≠ p → y.cleared h = x.cleared h)
    (hflag : ∀ h < n, h ≠ p → y.flag h = false → x.flag h = false)
    (htold : ∀ h < n, x.granted h = x.rounds → x.told h → y.told h) (hnew : y.told p)
    (hholds : ∀ h < n, y.holds h → x.holds h) : Inv n y where
  known h hh := (hinv.known h hh).frame hf
  safe q hq hhome hseen hclear := by
    by_cases hqp : q = p
    · subst hqp
      exact Or.inl ⟨by rw [hf.granted, hf.rounds, hp], hnew, by rw [hcleared, hf.rounds]⟩
    · rw [hf.home] at hhome
      rw [hf.seen] at hseen
      rcases hinv.safe q hq hhome hseen (hflag q hq hqp hclear) with hn | ⟨hall, hcopies⟩
      · exact Or.inl (hn.frame hf (hother q hqp) (htold q hq))
      · right
        refine ⟨fun h hh => by rw [hf.seen, hall h hh], ?_⟩
        intro h hh hne hcopy
        exact (hcopies h hh hne (hholds h hh hcopy)).frame hf (hother q hqp)

/-- The announcement of the home is in the answer, or nobody has a copy. -/
theorem inv_close {m : Option Notice} (hinv : Inv n x) (hall : ∀ h < n, x.granted h = x.rounds)
    (hrounds : y.rounds = x.rounds + 1) (hgranted : y.granted = x.granted)
    (hlast : y.last = x.home) (hhome : y.home = applyDue m x.home) (hseen : y.seen = x.seen)
    (hflag : y.flag = x.flag) (hcleared : y.cleared = x.cleared) (hdue : ∀ h < n, y.due h = m)
    (hholds : ∀ h < n, y.holds h → x.holds h)
    (htold : ∀ h < n, x.told h → ∃ nt, m = some nt ∧ ∀ h' < n, h' ≠ h → nt.writer ≠ h') :
    Inv n y where
  known h hh := by
    have hup := (hinv.known h hh).up_to_date (hall h hh)
    have hg : y.granted h + 1 = y.rounds := by rw [hgranted, hrounds, hall h hh]
    have hs : y.seen h = x.home := by rw [hseen, hup.2]
    cases hm : m with
    | none =>
        rw [hm] at hhome
        exact .heard hg (by rw [hdue h hh, hm]) (by rw [hs, hhome, applyDue])
    | some nt =>
        rw [hm] at hhome
        exact .waits nt hg (by rw [hdue h hh, hm]) (by rw [hs, hlast]) (by rw [hhome, hlast, applyDue])
  safe p hp hph hown hclear := by
    rw [hseen] at hown
    rw [hflag] at hclear
    have hup := (hinv.known p hp).up_to_date (hall p hp)
    -- the home has not moved, since it sees itself as the home already
    have hpx : p = x.home := hown.symm.trans hup.2
    right
    refine ⟨fun h hh => ?_, ?_⟩
    · rw [hseen, ((hinv.known h hh).up_to_date (hall h hh)).2, hpx]
    · intro h hh hne hcopy
      rcases hinv.safe p hp hpx hown hclear with ⟨-, htp, hcp⟩ | ⟨-, hcopies⟩
      · obtain ⟨nt, hm, hwriter⟩ := htold p hp htp
        refine ⟨by rw [hgranted, hrounds, hall h hh], ?_, nt, by rw [hdue h hh, hm],
          hwriter h hh hne⟩
        rw [hcleared, hcp, hgranted, hall h hh]
      · obtain ⟨hg, -⟩ := hcopies h hh hne (hholds h hh hcopy)
        have heq := hall h hh
        omega

theorem inv_hear {p : Nat} {nt : Notice} (hinv : Inv n x) (hp : p < n) (hdue : x.due p = some nt)
    (hdue' : y.due p = none) (hduer : ∀ h, h ≠ p → y.due h = x.due h)
    (hrounds : y.rounds = x.rounds) (hgranted : y.granted = x.granted) (hlast : y.last = x.last)
    (hhome : y.home = x.home) (hseen : y.seen p = nt.apply (x.seen p))
    (hseenr : ∀ h, h ≠ p → y.seen h = x.seen h)
    (hflag : y.seen p = p → y.flag p = false → x.seen p = p ∧ x.flag p = false)
    (hflagr : ∀ h, h ≠ p → y.flag h = x.flag h) (hcleared : y.cleared = x.cleared)
    (hholds : y.holds p → (x.holds p ∧ (nt.writer = p ∨ x.seen p = p)) ∨
      (x.seen p = p ∧ y.seen p ≠ p))
    (hholdsr : ∀ h < n, h ≠ p → y.holds h → x.holds h)
    (htold : ∀ h < n, h ≠ p → x.told h → y.told h) : Inv n y := by
  obtain ⟨hg, hsp, hxh⟩ := (hinv.known p hp).of_due hdue
  have hyp : y.seen p = y.home := by rw [hseen, hsp, hhome, hxh]
  constructor
  · intro h hh
    by_cases hhp : h = p
    · subst hhp
      exact .heard (by rw [hgranted, hrounds, hg]) hdue' hyp
    · have hk := hinv.known h hh
      cases hk with
      | done hg' hd hs =>
          exact .done (by rw [hgranted, hrounds, hg']) (by rw [hduer h hhp, hd])
            (by rw [hseenr h hhp, hhome, hs])
      | heard hg' hd hs =>
          exact .heard (by rw [hgranted, hrounds, hg']) (by rw [hduer h hhp, hd])
            (by rw [hseenr h hhp, hhome, hs])
      | waits nt' hg' hd hs hh' =>
          exact .waits nt' (by rw [hgranted, hrounds, hg'])
            (by rw [hduer h hhp, hd]) (by rw [hseenr h hhp, hlast, hs]) (by rw [hhome, hlast, hh'])
  · intro q hq hqh hown hclear
    rw [hhome] at hqh
    have hold : x.seen q = q ∧ x.flag q = false := by
      by_cases hqp : q = p
      · subst hqp
        exact hflag hown hclear
      · exact ⟨by rw [← hseenr q hqp, hown], by rw [← hflagr q hqp, hclear]⟩
    have hcq : y.cleared q = x.cleared q := by rw [hcleared]
    rcases hinv.safe q hq hqh hold.1 hold.2 with ⟨hgq, htq, hcl⟩ | ⟨hall, hcopies⟩
    · have hqp : q ≠ p := by
        rintro rfl
        omega
      exact Or.inl ⟨by rw [hgranted, hrounds, hgq], htold q hq hqp htq, by rw [hcq, hrounds, hcl]⟩
    · right
      constructor
      · intro h hh
        by_cases hhp : h = p
        · rw [hhp, hyp, hhome, hqh]
        · rw [hseenr h hhp, hall h hh]
      · intro h hh hne hcopy
        by_cases hhp : h = p
        · -- the party drops its copy with the notice, as the home has cleared its flag
          subst hhp
          have hself : x.seen h ≠ h := by
            rw [hall h hh]
            exact Ne.symm hne
          rcases hholds hcopy with ⟨hx, hw⟩ | ⟨hx, -⟩
          · obtain ⟨-, -, nt', hd, hwr⟩ := hcopies h hh hne hx
            rw [hdue] at hd
            obtain rfl := Option.some.inj hd
            rcases hw with hw | hw
            · exact absurd hw hwr
            · exact absurd hw hself
          · exact absurd hx hself
        · obtain ⟨hg', hc', nt', hd, hwr⟩ := hcopies h hh hne (hholdsr h hh hhp hcopy)
          exact ⟨by rw [hgranted, hrounds, hg'], by rw [hcq, hc', hgranted],
            nt', by rw [hduer h hhp, hd], hwr⟩

theorem inv_grant {p : Nat} (hinv : Inv n x) (hdue : x.due p = none)
    (hp : x.granted p + 1 = x.rounds) (hgranted : y.granted p = x.granted p + 1)
    (hgrantedr : ∀ h, h ≠ p → y.granted h = x.granted h) (hdue' : y.due = x.due)
    (hrounds : y.rounds = x.rounds) (hlast : y.last = x.last) (hhome : y.home = x.home)
    (hseen : y.seen = x.seen) (hflag : y.flag = x.flag) (hcleared : y.cleared = x.cleared)
    (hholds : ∀ h < n, y.holds h → x.holds h)
    (htold : ∀ h < n, h ≠ p → x.told h → y.told h) : Inv n y where
  known h hh := by
    by_cases hhp : h = p
    · subst hhp
      exact .done (by rw [hgranted, hrounds, hp]) (by rw [hdue', hdue])
        (by rw [hseen, hhome, (hinv.known h hh).of_none hdue])
    · have hk := hinv.known h hh
      cases hk with
      | done hg hd hs =>
          exact .done (by rw [hgrantedr h hhp, hrounds, hg]) (by rw [hdue', hd])
            (by rw [hseen, hhome, hs])
      | heard hg hd hs =>
          exact .heard (by rw [hgrantedr h hhp, hrounds, hg]) (by rw [hdue', hd])
            (by rw [hseen, hhome, hs])
      | waits nt hg hd hs hh' =>
          exact .waits nt (by rw [hgrantedr h hhp, hrounds, hg])
            (by rw [hdue', hd]) (by rw [hseen, hlast, hs]) (by rw [hhome, hlast, hh'])
  safe q hq hqh hown hclear := by
    rw [hhome] at hqh
    rw [hseen] at hown
    rw [hflag] at hclear
    have hcq : y.cleared q = x.cleared q := by rw [hcleared]
    rcases hinv.safe q hq hqh hown hclear with ⟨hgq, htq, hcl⟩ | ⟨hall, hcopies⟩
    · have hqp : q ≠ p := by
        rintro rfl
        omega
      exact Or.inl ⟨by rw [hgrantedr q hqp, hrounds, hgq], htold q hq hqp htq,
        by rw [hcq, hrounds, hcl]⟩
    · right
      refine ⟨fun h hh => by rw [hseen, hall h hh], ?_⟩
      intro h hh hne hcopy
      obtain ⟨hg, hc, nt, hd, hwr⟩ := hcopies h hh hne (hholds h hh hcopy)
      have hhp : h ≠ p := by
        rintro rfl
        rw [hdue] at hd
        cases hd
      exact ⟨by rw [hgrantedr h hhp, hrounds, hg], by rw [hcq, hc, hgrantedr h hhp],
        nt, by rw [hdue', hd], hwr⟩

theorem inv_step (hinv : Inv n x) (hs : Step n x y) (hlt : ∀ p nt, x.due p = some nt → p < n) :
    Inv n y := by
  cases hs with
  | keep hframe hcleared hflag htold hholds =>
      exact inv_keep hinv hframe hcleared hflag htold hholds
  | clear p hframe hp hcleared hother hflag htold hnew hholds =>
      exact inv_clear hinv hframe hp hcleared hother hflag htold hnew hholds
  | close m hall hrounds hgranted hlast hhome hseen hflag hcleared hdue hholds htold =>
      exact inv_close hinv hall hrounds hgranted hlast hhome hseen hflag hcleared hdue hholds htold
  | hear p nt hdue hdue' hduer hrounds hgranted hlast hhome hseen hseenr hflag hflagr hcleared
      hholds hholdsr htold =>
      exact inv_hear hinv (hlt p nt hdue) hdue hdue' hduer hrounds hgranted hlast hhome hseen
        hseenr hflag hflagr hcleared hholds hholdsr htold
  | grant p hdue hp hgranted hgrantedr hdue' hrounds hlast hhome hseen hflag hcleared hholds
      htold =>
      exact inv_grant hinv hdue hp hgranted hgrantedr hdue' hrounds hlast hhome hseen hflag
        hcleared hholds htold

/-- A step, perhaps with the end of an answer at once. -/
inductive Steps (n : Nat) (x y : State) : Prop
  | one (hs : Step n x y)
  | granted (z : State) (hs : Step n x z) (hdue : z.due = y.due) (hs' : Step n z y)

theorem inv_steps (hinv : Inv n x) (hs : Steps n x y) (hlt : ∀ p nt, x.due p = some nt → p < n)
    (hlt' : ∀ p nt, y.due p = some nt → p < n) : Inv n y := by
  cases hs with
  | one hs => exact inv_step hinv hs hlt
  | granted z hs hdue hs' =>
      refine inv_step (inv_step hinv hs hlt) hs' ?_
      rw [hdue]
      exact hlt'

/-! ## Copies that are promised -/

/-- The parties of `r` count as holders. -/
def State.reserve (x : State) (r : Nat → Prop) : State :=
  { x with holds := fun h => x.holds h ∨ r h }

section Reserve

variable {r : Nat → Prop}

theorem Frame.reserve (hf : Frame x y) : Frame (x.reserve r) (y.reserve r) :=
  ⟨hf.rounds, hf.granted, hf.last, hf.home, hf.seen, hf.due⟩

theorem holds_reserve {h : Nat} (hk : y.holds h → x.holds h) (hy : (y.reserve r).holds h) :
    (x.reserve r).holds h :=
  hy.imp hk id

/-- Nobody with a promise has a notice due, so a step stays one. -/
theorem Step.reserve (hs : Step n x y) (hr : ∀ h, r h → x.due h = none) :
    Step n (x.reserve r) (y.reserve r) := by
  cases hs with
  | keep hframe hcleared hflag htold hholds =>
      refine .keep hframe.reserve hcleared hflag htold ?_
      intro h hh hy
      rcases hy with hy | hy
      · exact (hholds h hh hy).imp Or.inl id
      · exact Or.inl (Or.inr hy)
  | clear p hframe hp hcleared hother hflag htold hnew hholds =>
      exact .clear p hframe.reserve hp hcleared hother hflag htold hnew
        fun h hh => holds_reserve (hholds h hh)
  | close m hall hrounds hgranted hlast hhome hseen hflag hcleared hdue hholds htold =>
      exact .close m hall hrounds hgranted hlast hhome hseen hflag hcleared hdue
        (fun h hh => holds_reserve (hholds h hh)) htold
  | hear p nt hdue hdue' hduer hrounds hgranted hlast hhome hseen hseenr hflag hflagr hcleared
      hholds hholdsr htold =>
      refine .hear p nt hdue hdue' hduer hrounds hgranted hlast hhome hseen hseenr hflag hflagr
        hcleared ?_ (fun h hh hne => holds_reserve (hholdsr h hh hne)) htold
      intro hy
      rcases hy with hy | hy
      · exact (hholds hy).imp (fun hx => ⟨Or.inl hx.1, hx.2⟩) id
      · rw [hr p hy] at hdue
        cases hdue
  | grant p hdue hp hgranted hgrantedr hdue' hrounds hlast hhome hseen hflag hcleared hholds
      htold =>
      exact .grant p hdue hp hgranted hgrantedr hdue' hrounds hlast hhome hseen hflag hcleared
        (fun h hh => holds_reserve (hholds h hh)) htold

theorem Steps.reserve (hs : Steps n x y) (hr : ∀ h, r h → x.due h = none)
    (hr' : ∀ h, r h → y.due h = none) : Steps n (x.reserve r) (y.reserve r) := by
  cases hs with
  | one hs => exact .one (hs.reserve hr)
  | granted z hs hdue hs' =>
      refine .granted (z.reserve r) (hs.reserve hr) hdue (hs'.reserve ?_)
      rw [hdue]
      exact hr'

end Reserve

end Inv

end Directory
