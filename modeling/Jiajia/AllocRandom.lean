import Jiajia.Alloc
import Mathlib.Logic.Function.Iterate

/-!
# Allocation on a random host

`jia_alloc_random` takes the start host from `rand()`, and `replacei` takes the
victim of a page fault from `random()`.  Both draw from one generator, so a host
that has had more page faults is further on in the sequence.
-/

namespace Jiajia.Alloc

/-- The generator behind `rand()` and `random()`: what a call returns, what it leaves, and
what `srand` sets. -/
structure Generator where
  State : Type
  srand : Nat → State
  value : State → Nat
  next : State → State

/-- The `k`-th value after `srand(0)`. -/
def Generator.nth (G : Generator) (k : Nat) : Nat := G.value (G.next^[k] (G.srand 0))

/-- A host as far as its random choices go; `initialized` is the static variable of
`jia_alloc_random`. -/
structure RandomHost (G : Generator) where
  gen : G.State
  initialized : Bool
  tables : AllocState

/-- After `initmem`. -/
def initRandom (G : Generator) : RandomHost G := ⟨G.srand 1, false, initAlloc⟩

/-- What a host does that draws from the generator. -/
inductive RandomEvent
  /-- A page fault for which `findposition` calls `replacei`. -/
  | replacei (setpages : Nat)
  | allocRandom (totalsize : Nat)
deriving DecidableEq, Repr

section Model

variable {G : Generator}

/-- `replacei` -/
def replacei (setpages : Nat) (s : RandomHost G) : RandomHost G × Nat :=
  ({ s with gen := G.next s.gen }, (G.value s.gen >>> 8) % setpages)

/-- The start host of `jia_alloc_random`; the first call sets the seed. -/
def randomStart (hostc : Nat) (s : RandomHost G) : RandomHost G × Nat :=
  let gen := if s.initialized then s.gen else G.srand 0
  ({ s with gen := G.next gen, initialized := true }, G.value gen % hostc)

def jiaAllocRandom (cfg : Setting) (pid totalsize : Nat) (s : RandomHost G) :
    Result (RandomHost G × Nat) := do
  let (s, starthost) := randomStart cfg.hostc s
  let (tables, a) ← jiaAlloc3 cfg pid totalsize totalsize starthost s.tables
  return ({ s with tables := tables }, a)

/-- The start hosts a host chooses, call after call. -/
def starthosts (hostc : Nat) : List RandomEvent → RandomHost G → List Nat
  | [], _ => []
  | .replacei n :: es, s => starthosts hostc es (replacei n s).1
  | .allocRandom _ :: es, s => (randomStart hostc s).2 :: starthosts hostc es (randomStart hostc s).1

/-- Host `pid` does what the events say. -/
def runRandom (cfg : Setting) (pid : Nat) : List RandomEvent → RandomHost G → Result (RandomHost G)
  | [], s => .ok s
  | .replacei n :: es, s => runRandom cfg pid es (replacei n s).1
  | .allocRandom t :: es, s => do
      let (s, _) ← jiaAllocRandom cfg pid t s
      runRandom cfg pid es s

end Model

/-- The sizes of the calls of `jia_alloc_random`. -/
def randomCalls (es : List RandomEvent) : List Nat :=
  es.filterMap fun
    | .replacei _ => none
    | .allocRandom t => some t

/-- Where a host is in the sequence of the generator at each of its calls.  Before the first
call, which sets the seed, nothing counts. -/
def drawPositions : Option Nat → List RandomEvent → List Nat
  | _, [] => []
  | none, .replacei _ :: es => drawPositions none es
  | none, .allocRandom _ :: es => 0 :: drawPositions (some 1) es
  | some i, .replacei _ :: es => drawPositions (some (i + 1)) es
  | some i, .allocRandom _ :: es => i :: drawPositions (some (i + 1)) es

/-- All hosts choose the same start hosts, and their tables name the same homes. -/
def RandomAgrees (cfg : Setting) (G : Generator) (prog : Nat → List RandomEvent) : Prop :=
  ∀ h < cfg.hostc, ∀ h' < cfg.hostc,
    starthosts cfg.hostc (prog h) (initRandom G) = starthosts cfg.hostc (prog h') (initRandom G) ∧
      ∀ s s' : RandomHost G, runRandom cfg h (prog h) (initRandom G) = .ok s →
        runRandom cfg h' (prog h') (initRandom G) = .ok s' → s.tables.homepid = s'.tables.homepid

/-! ## The choices -/

section Choices

variable {G : Generator} {s : RandomHost G}

/-- The generator stands where the position says. -/
def AtDraw (s : RandomHost G) : Option Nat → Prop
  | none => s.initialized = false
  | some i => s.initialized = true ∧ s.gen = G.next^[i] (G.srand 0)

theorem AtDraw.replacei {i : Option Nat} (h : AtDraw s i) (n : Nat) :
    AtDraw (replacei n s).1 (i.map (· + 1)) := by
  cases i with
  | none => exact h
  | some i =>
      refine ⟨h.1, ?_⟩
      show G.next s.gen = G.next^[i + 1] (G.srand 0)
      rw [h.2, Function.iterate_succ_apply']

/-- A call takes the value at the position. -/
theorem AtDraw.randomStart {i : Option Nat} (h : AtDraw s i) (hostc : Nat) :
    (randomStart hostc s).2 = G.nth (i.getD 0) % hostc ∧
      AtDraw (Alloc.randomStart hostc s).1 (some (i.getD 0 + 1)) := by
  have hgen : (if s.initialized then s.gen else G.srand 0) = G.next^[i.getD 0] (G.srand 0) := by
    cases i with
    | none =>
        have hinit : s.initialized = false := h
        rw [hinit]
        rfl
    | some i => rw [h.1, if_pos rfl, h.2, Option.getD_some]
  refine ⟨?_, rfl, ?_⟩
  · simp only [Alloc.randomStart, hgen, Generator.nth]
  · simp only [Alloc.randomStart, hgen, Function.iterate_succ_apply']

theorem starthosts_eq {i : Option Nat} (h : AtDraw s i) (hostc : Nat) (es : List RandomEvent) :
    starthosts hostc es s = (drawPositions i es).map fun k => G.nth k % hostc := by
  induction es generalizing s i with
  | nil => cases i <;> rfl
  | cons e es ih =>
      cases e with
      | replacei n =>
          rw [starthosts, ih (h.replacei n)]
          cases i <;> rfl
      | allocRandom t =>
          obtain ⟨hvalue, hnext⟩ := h.randomStart hostc
          rw [starthosts, hvalue, ih hnext]
          cases i <;> rfl

/-- The tables do not matter for the choices. -/
theorem starthosts_tables (hostc : Nat) (es : List RandomEvent) (tables : AllocState) :
    starthosts hostc es { s with tables := tables } = starthosts hostc es s := by
  induction es generalizing s with
  | nil => rfl
  | cons e es ih =>
      cases e with
      | replacei n => exact ih (s := (replacei n s).1)
      | allocRandom t =>
          show _ :: starthosts hostc es { (randomStart hostc s).1 with tables := tables } = _
          rw [ih]
          rfl

theorem starthosts_init (hostc : Nat) (es : List RandomEvent) :
    starthosts hostc es (initRandom G) =
      (drawPositions none es).map fun k => G.nth k % hostc := by
  apply starthosts_eq
  exact rfl

end Choices

/-! ## The tables -/

section Tables

variable {cfg : Setting} {pid : Nat} {owners : List Nat} {s s' : AllocState}

/-- The homes of the pages of a list of blocks. -/
def blockOwners (bs : List (Nat × Nat)) : List Nat :=
  bs.flatMap fun b => List.replicate (b.2 / Pagesize) b.1

/-- The homes a host enters are those of the blocks, whichever host it is. -/
theorem TableOk.blocks (hok : TableOk cfg pid owners s) {bs : List (Nat × Nat)}
    (hdvd : ∀ b ∈ bs, Pagesize ∣ b.2) (h : allocBlocks cfg pid bs s = .ok s') :
    TableOk cfg pid (owners ++ blockOwners bs) s' := by
  induction bs generalizing owners s with
  | nil =>
      rw [allocBlocks, Except.ok.injEq] at h
      subst h
      simpa [blockOwners] using hok
  | cons b bs ih =>
      simp only [allocBlocks, bind_eq_ok] at h
      obtain ⟨s₁, hone, h⟩ := h
      have hz : b.2 = Pagesize * (b.2 / Pagesize) :=
        (Nat.mul_div_cancel' (hdvd b List.mem_cons_self)).symm
      have hrest := ih (hok.block hz hone).1 (fun x hx => hdvd x (List.mem_cons_of_mem _ hx)) h
      simpa [blockOwners] using hrest

theorem dvd_loopBlocks {hostc n fuel allocsize homepid blocki : Nat} {blocks : Nat → Nat} :
    ∀ b ∈ loopBlocks hostc blocks n fuel allocsize homepid blocki, Pagesize ∣ b.2 := by
  induction fuel generalizing allocsize homepid blocki with
  | zero =>
      intro b hb
      cases hb
  | succ fuel ih =>
      intro b hb
      rw [loopBlocks] at hb
      split at hb
      · cases List.mem_cons.mp hb with
        | inl heq => exact heq ▸ dvd_align2page _
        | inr hmem => exact ih b hmem
      · cases hb

/-- The homes of the pages of `jia_alloc3`. -/
def callOwners (hostc totalsize starthost : Nat) : List Nat :=
  blockOwners (loopBlocks hostc (fun _ => totalsize) 1 (align2page totalsize)
    (align2page totalsize) starthost 0)

theorem TableOk.alloc3 (hok : TableOk cfg pid owners s) {totalsize starthost a : Nat}
    (h : jiaAlloc3 cfg pid totalsize totalsize starthost s = .ok (s', a)) :
    TableOk cfg pid (owners ++ callOwners cfg.hostc totalsize starthost) s' := by
  simp only [jiaAlloc3, allocate, allocLoop_eq, bind_eq_ok, pure, Except.pure, Except.ok.injEq,
    Prod.mk.injEq] at h
  obtain ⟨-, -, s₁, hblocks, rfl, -⟩ := h
  exact hok.blocks dvd_loopBlocks hblocks

/-- The homes after a sequence of calls with the start hosts chosen for them. -/
def ownersOf (hostc : Nat) (calls starts : List Nat) : List Nat :=
  (List.zipWith (callOwners hostc) calls starts).flatten

theorem runRandom_tables {G : Generator} {x x' : RandomHost G} {es : List RandomEvent}
    (hok : TableOk cfg pid owners x.tables) (h : runRandom cfg pid es x = .ok x') :
    TableOk cfg pid (owners ++ ownersOf cfg.hostc (randomCalls es) (starthosts cfg.hostc es x))
      x'.tables := by
  induction es generalizing owners x with
  | nil =>
      rw [runRandom, Except.ok.injEq] at h
      subst h
      simpa [randomCalls, starthosts, ownersOf] using hok
  | cons e es ih =>
      cases e with
      | replacei n =>
          rw [runRandom] at h
          exact ih (x := (replacei n x).1) hok h
      | allocRandom t =>
          simp only [runRandom, jiaAllocRandom, bind_eq_ok, Prod.exists, pure, Except.pure,
            Except.ok.injEq, Prod.mk.injEq] at h
          obtain ⟨x₁, a, ⟨tables, a', hcall, rfl, rfl⟩, h⟩ := h
          have hone : TableOk cfg pid _ tables := TableOk.alloc3 hok hcall
          have hrest := ih (x := { (randomStart cfg.hostc x).1 with tables := tables }) hone h
          rw [List.append_assoc, starthosts_tables] at hrest
          exact hrest

end Tables

/-- The generator that counts, and whose values tell one position from the others. -/
def pick (pos : Nat) : Generator where
  State := Nat
  srand _ := 0
  value i := if i = pos then 1 else 0
  next i := i + 1

theorem pick_nth (pos k : Nat) : (pick pos).nth k = if k = pos then 1 else 0 := by
  have hiter : (pick pos).next^[k] ((pick pos).srand 0) = k := by
    induction k with
    | zero => rfl
    | succ k ih =>
        rw [Function.iterate_succ_apply', ih]
        rfl
  rw [Generator.nth, hiter]
  rfl

section Agreement

variable {cfg : Setting} {prog : Nat → List RandomEvent}

/-- With one generator the hosts agree when the values they draw for their calls choose the
same hosts. -/
theorem randomAgrees_iff_draws (G : Generator) {calls : List Nat}
    (hcalls : ∀ h < cfg.hostc, randomCalls (prog h) = calls) :
    RandomAgrees cfg G prog ↔ ∀ h < cfg.hostc, ∀ h' < cfg.hostc,
      (drawPositions none (prog h)).map (fun k => G.nth k % cfg.hostc) =
        (drawPositions none (prog h')).map fun k => G.nth k % cfg.hostc := by
  constructor
  · intro hagree h hh h' hh'
    have hstart := (hagree h hh h' hh').1
    rwa [starthosts_init, starthosts_init] at hstart
  · intro hdraws h hh h' hh'
    have hstart : starthosts cfg.hostc (prog h) (initRandom G) =
        starthosts cfg.hostc (prog h') (initRandom G) := by
      rw [starthosts_init, starthosts_init]
      exact hdraws h hh h' hh'
    refine ⟨hstart, ?_⟩
    intro s s' hs hs'
    have ht := runRandom_tables (x := initRandom G) tableOk_init hs
    have ht' := runRandom_tables (x := initRandom G) tableOk_init hs'
    rw [hcalls h hh, hstart] at ht
    rw [hcalls h' hh'] at ht'
    funext p
    rw [ht.homepid, ht'.homepid]

/-- Lists of positions that differ are told apart by some generator. -/
theorem exists_pick {l l' : List Nat} {n : Nat} (hn : 1 < n)
    (h : ∀ pos, l.map (fun k => (pick pos).nth k % n) = l'.map fun k => (pick pos).nth k % n) :
    l = l' := by
  have hlen : l.length = l'.length := by
    have hcong := congrArg List.length (h 0)
    rwa [List.length_map, List.length_map] at hcong
  apply List.ext_getElem hlen
  intro i hi hi'
  have hget := congrArg (fun x : List Nat => x[i]?) (h l[i])
  simp only [List.getElem?_map, List.getElem?_eq_getElem hi, List.getElem?_eq_getElem hi',
    Option.map_some, Option.some.injEq, pick_nth, if_true, Nat.mod_eq_of_lt hn] at hget
  by_contra hne
  rw [if_neg (Ne.symm hne), Nat.zero_mod] at hget
  cases hget

/-- The hosts agree, whatever the generator, when each host has had as many page faults
between its first call and any later one as every other host; for one generator they agree
when the values drawn there choose the same hosts. -/
theorem random_agrees_iff {calls : List Nat}
    (hcalls : ∀ h < cfg.hostc, randomCalls (prog h) = calls) :
    ((∀ G, RandomAgrees cfg G prog) ↔ ∀ h < cfg.hostc, ∀ h' < cfg.hostc,
      drawPositions none (prog h) = drawPositions none (prog h')) ∧
    ∀ G, RandomAgrees cfg G prog ↔ ∀ h < cfg.hostc, ∀ h' < cfg.hostc,
      (drawPositions none (prog h)).map (fun k => G.nth k % cfg.hostc) =
        (drawPositions none (prog h')).map fun k => G.nth k % cfg.hostc := by
  refine ⟨⟨?_, ?_⟩, fun G => randomAgrees_iff_draws G hcalls⟩
  · intro hagree h hh h' hh'
    by_cases hone : cfg.hostc = 1
    · have heq : h = h' := by omega
      rw [heq]
    · have hpos := cfg.hostc_pos
      apply exists_pick (n := cfg.hostc) (by omega)
      intro pos
      exact (randomAgrees_iff_draws (pick pos) hcalls).mp (hagree (pick pos)) h hh h' hh'
  · intro hsame G
    apply (randomAgrees_iff_draws G hcalls).mpr
    intro h hh h' hh'
    rw [hsame h hh h' hh']

/-- Both hosts have two page faults between the calls; host 1 has had one before the first. -/
def equalFaults (h : Nat) : List RandomEvent :=
  if h = 1 then
    [.replacei 4, .allocRandom 4096, .replacei 4, .replacei 2, .allocRandom 8192]
  else [.allocRandom 4096, .replacei 8, .replacei 4, .allocRandom 8192]

theorem random_agrees_equalFaults :
    (∀ h < twoHosts.hostc, drawPositions none (equalFaults h) = [0, 3]) ∧
      ∀ G, RandomAgrees twoHosts G equalFaults := by
  have hcalls : ∀ h < twoHosts.hostc, randomCalls (equalFaults h) = [4096, 8192] := by
    intro h _
    unfold equalFaults
    split <;> rfl
  have hdraws : ∀ h < twoHosts.hostc, drawPositions none (equalFaults h) = [0, 3] := by
    intro h _
    unfold equalFaults
    split <;> rfl
  refine ⟨hdraws, (random_agrees_iff hcalls).1.mpr ?_⟩
  intro h hh h' hh'
  rw [hdraws h hh, hdraws h' hh']

/-! ## The generator of the library -/

/-- The next word of the additive generator, from the last 31. -/
def glibcWord (w : List Nat) : Nat := (w.getD 0 0 + w.getD 28 0) % 2 ^ 32

def glibcNext (w : List Nat) : List Nat := w.tail ++ [glibcWord w]

/-- The words `srand` starts with: 31 from a linear generator, of which the first three
come last, and 310 values are thrown away.  Seed 0 stands for seed 1. -/
def glibcSeed (seed : Nat) : List Nat :=
  let r := List.iterate (fun x => 16807 * x % 2147483647) (if seed = 0 then 1 else seed) 31
  glibcNext^[310] (r.drop 3 ++ r.take 3)

/-- The generator of the C library. -/
def glibc : Generator where
  State := List Nat
  srand := glibcSeed
  value w := glibcWord w / 2
  next := glibcNext

example : (List.range 3).map glibc.nth = [1804289383, 846930886, 1681692777] := by decide +kernel

/-- Host 1 has a page fault between two calls. -/
def oneFault (h : Nat) : List RandomEvent :=
  if h = 1 then [.allocRandom 4096, .replacei 4, .allocRandom 4096]
  else [.allocRandom 4096, .allocRandom 4096]

/-- The hosts make the same calls, and the second one chooses host 0 on host 0 and host 1 on
host 1. -/
theorem one_fault_disagrees : (∀ h < twoHosts.hostc, randomCalls (oneFault h) = [4096, 4096]) ∧
    ¬ RandomAgrees twoHosts glibc oneFault := by
  constructor
  · intro h _
    unfold oneFault
    split <;> rfl
  · intro hagree
    have hstart := (hagree 0 (by decide) 1 (by decide)).1
    rw [starthosts_init, starthosts_init] at hstart
    revert hstart
    decide +kernel

end Agreement

end Jiajia.Alloc
