import Jiajia.Setting
import Jiajia.PageWire
import Jiajia.Memory

/-!
# The reply of `getpserver`

The scan for pages to add, with the settings as `.jiaconf` leaves them and any homes for the
pages that follow.  `atoi(..) % 9` may be negative, and then the test that ends the scan
never succeeds.
-/

namespace Jiajia.PageReply

open Setting (Options)
open Bytes (Buffer toLE length_toLE)
open PageWire

/-! ## The scan -/

/-- The scan so far: the pages looked at, `num`, and `addr[1 .. num - 1]`. -/
structure Scan where
  checked : Nat
  num : Nat
  addr : List Nat

/-- The scan before its first turn: only the requested page. -/
def Scan.first : Scan := ⟨0, 1, []⟩

/-- The loop of `getpserver` from page `p` on, with `k` pages left to `endaddr`; `homed`
are the pages with their home here. -/
def scanLoop (homed : Nat → Bool) (s : Options) : Nat → Nat → Scan → Result Scan
  | 0, _, r => .ok r
  | k + 1, p, r =>
      if (r.num : Int) < s.maxCheckingPages + 1 then
        if homed p then do
          defined (r.num < 10) "addr[] out of range"
          let r : Scan := ⟨r.checked + 1, r.num + 1, r.addr ++ [p]⟩
          if (r.num : Int) = s.prefetchPages + 1 then return r else scanLoop homed s k (p + 1) r
        else scanLoop homed s k (p + 1) { r with checked := r.checked + 1 }
      else .ok r

/-- The pages that go with page `p`. -/
def scan (homed : Nat → Bool) (s : Options) (p : Nat) : Result Scan :=
  if s.prefetchFlag ∧ s.prefetchPages ≠ 0 then
    scanLoop homed s s.maxCheckingPages.toNat (p + 1) Scan.first
  else .ok Scan.first

section Loop

variable {homed : Nat → Bool} {s : Options} {k p : Nat} {r : Scan}

theorem scanLoop_positive (hmax : s.prefetchPages ≤ 8) (hnum : r.num = r.addr.length + 1)
    (hfound : (r.num : Int) ≤ s.prefetchPages) :
    ∃ r', scanLoop homed s k p r = .ok r' ∧ r'.checked ≤ r.checked + k ∧
      (r'.addr.length : Int) ≤ s.prefetchPages := by
  induction k generalizing p r with
  | zero => exact ⟨r, rfl, le_rfl, by omega⟩
  | succ k ih =>
      rw [scanLoop]
      by_cases hcheck : (r.num : Int) < s.maxCheckingPages + 1
      · rw [if_pos hcheck]
        by_cases hhome : homed p = true
        · have hten : r.num < 10 := by omega
          rw [if_pos hhome, defined, if_pos hten]
          have hlen : (r.addr ++ [p]).length = r.num := by
            rw [List.length_append, List.length_singleton, hnum]
          by_cases hlast : ((r.num + 1 : Nat) : Int) = s.prefetchPages + 1
          · refine ⟨⟨r.checked + 1, r.num + 1, r.addr ++ [p]⟩, ?_, ?_, ?_⟩
            · show (if ((r.num + 1 : Nat) : Int) = s.prefetchPages + 1 then _ else _) = _
              rw [if_pos hlast]
              rfl
            · show r.checked + 1 ≤ r.checked + (k + 1)
              omega
            · show ((r.addr ++ [p]).length : Int) ≤ _
              rw [hlen]
              exact hfound
          · have hfound' : ((r.num + 1 : Nat) : Int) ≤ s.prefetchPages := by
              push_cast at hlast ⊢
              omega
            obtain ⟨r', hloop, hchecked, hle⟩ := @ih (p + 1)
              ⟨r.checked + 1, r.num + 1, r.addr ++ [p]⟩ (by rw [hlen]) hfound'
            refine ⟨r', ?_, ?_, hle⟩
            · show (if ((r.num + 1 : Nat) : Int) = s.prefetchPages + 1 then _ else _) = _
              rw [if_neg hlast]
              exact hloop
            · simp only at hchecked
              omega
        · rw [if_neg hhome]
          obtain ⟨r', hloop, hchecked, hle⟩ := @ih (p + 1)
            { r with checked := r.checked + 1 } hnum hfound
          refine ⟨r', hloop, ?_, hle⟩
          simp only at hchecked
          omega
      · rw [if_neg hcheck]
        exact ⟨r, rfl, by omega, by omega⟩

theorem scanLoop_none (hnone : ∀ q, p ≤ q → q < p + k → homed q = false) :
    ∃ r', scanLoop homed s k p r = .ok r' ∧ r'.checked ≤ r.checked + k ∧ r'.addr = r.addr := by
  induction k generalizing p r with
  | zero => exact ⟨r, rfl, le_rfl, rfl⟩
  | succ k ih =>
      rw [scanLoop]
      by_cases hcheck : (r.num : Int) < s.maxCheckingPages + 1
      · have hhome : ¬ homed p = true := by
          rw [hnone p le_rfl (by omega)]
          exact Bool.false_ne_true
        rw [if_pos hcheck, if_neg hhome]
        obtain ⟨r', hloop, hchecked, haddr⟩ := @ih (p + 1) { r with checked := r.checked + 1 }
          (fun q hle hlt => hnone q (by omega) (by omega))
        refine ⟨r', hloop, ?_, haddr⟩
        simp only at hchecked
        omega
      · rw [if_neg hcheck]
        exact ⟨r, rfl, by omega, rfl⟩

theorem scanLoop_length {r' : Scan} (h : scanLoop homed s k p r = .ok r') :
    r.addr.length ≤ r'.addr.length := by
  induction k generalizing p r with
  | zero =>
      obtain rfl := Except.ok.inj h
      exact le_rfl
  | succ k ih =>
      rw [scanLoop] at h
      by_cases hcheck : (r.num : Int) < s.maxCheckingPages + 1
      · rw [if_pos hcheck] at h
        by_cases hhome : homed p = true
        · rw [if_pos hhome] at h
          simp only [bind_eq_ok, defined_eq_ok] at h
          obtain ⟨-, -, h⟩ := h
          have hlen : r.addr.length ≤ (r.addr ++ [p]).length := by
            rw [List.length_append]
            exact Nat.le_add_right _ _
          split at h
          · obtain rfl := Except.ok.inj h
            exact hlen
          · exact hlen.trans (ih h)
        · rw [if_neg hhome] at h
          exact @ih (p + 1) { r with checked := r.checked + 1 } h
      · rw [if_neg hcheck] at h
        obtain rfl := Except.ok.inj h
        exact le_rfl

theorem scanLoop_adds {q : Nat} {r' : Scan} (hroom : (r.num : Int) + k ≤ s.maxCheckingPages + 1)
    (hle : p ≤ q) (hlt : q < p + k) (hhome : homed q = true)
    (h : scanLoop homed s k p r = .ok r') : r.addr.length < r'.addr.length := by
  induction k generalizing p r with
  | zero => omega
  | succ k ih =>
      have hcheck : (r.num : Int) < s.maxCheckingPages + 1 := by
        push_cast at hroom
        omega
      rw [scanLoop, if_pos hcheck] at h
      by_cases hp : homed p = true
      · rw [if_pos hp] at h
        simp only [bind_eq_ok, defined_eq_ok] at h
        obtain ⟨-, -, h⟩ := h
        have hlen : r.addr.length < (r.addr ++ [p]).length := by
          rw [List.length_append, List.length_singleton]
          exact Nat.lt_succ_self _
        split at h
        · obtain rfl := Except.ok.inj h
          exact hlen
        · exact hlen.trans_le (scanLoop_length h)
      · rw [if_neg hp] at h
        have hne : p ≠ q := by
          intro heq
          rw [heq] at hp
          exact hp hhome
        have hroom' : (r.num : Int) + k ≤ s.maxCheckingPages + 1 := by
          push_cast at hroom
          omega
        exact @ih (p + 1) { r with checked := r.checked + 1 } hroom' (by omega) (by omega) h

end Loop

/-! ## The message -/

/-- A reply with the pages the scan allows fits, whatever its vector and left-over bytes. -/
theorem grantMsg_ok {compact : Bool} {addr : Addr} {wv : BitVec Wvbits} {pg : Page}
    {xs : List ExtraPage} {old : Buffer}
    (hfit : Intbytes + Addrbytes + Pagesize + (Addrbytes + Pagesize) * xs.length ≤ Maxmsgsize) :
    ∃ rep, grantMsg compact addr wv pg xs old = .ok rep := by
  have hlennum : (toLE Intbytes (1 + xs.length)).length = Intbytes := length_toLE _ _
  have hlenaddr : (toLE Addrbytes addr.toNat).length = Addrbytes := length_toLE _ _
  have hmax : Intbytes + Addrbytes + Pagesize ≤ Maxmsgsize := by decide
  have hroom₀ : (⟨0, old⟩ : Rep).size + (toLE Intbytes (1 + xs.length)).length ≤ Maxmsgsize := by
    show 0 + _ ≤ _
    omega
  obtain ⟨rep₁, hnum, happ₁⟩ := appendmsg_ok hroom₀
  have hsize₁ : rep₁.size = Intbytes := by
    rw [happ₁.size, hlennum]
    exact Nat.zero_add _
  obtain ⟨rep₂, haddr, happ₂⟩ := @appendmsg_ok rep₁ (toLE Addrbytes addr.toNat) (by omega)
  have hsize₂ : rep₂.size = Intbytes + Addrbytes := by rw [happ₂.size, hsize₁, hlenaddr]
  have hpage : ∃ rep₃, appendPage compact wv pg rep₂ = .ok rep₃ ∧
      rep₃.size = rep₂.size + Pagesize := by
    cases compact with
    | false =>
        obtain ⟨rep₃, happend, happ₃⟩ := @appendmsg_ok rep₂ (pageBytes pg) (by
          rw [length_pageBytes]
          omega)
        exact ⟨rep₃, happend, by rw [happ₃.size, length_pageBytes]⟩
    | true =>
        obtain ⟨rep₃, happend, hsize₃, -⟩ :=
          @appendPage_ok { Config.noPages with wVec := true } true wv pg rep₂ (fun _ => rfl)
            (fun hcon => by cases hcon) (by omega)
        exact ⟨rep₃, happend, hsize₃⟩
  obtain ⟨rep₃, hpage, hsize₃⟩ := hpage
  obtain ⟨rep, hextra, -⟩ := @appendExtras_ok xs rep₃ (by omega)
  refine ⟨rep, ?_⟩
  simp only [grantMsg, bind_eq_ok]
  exact ⟨rep₁, hnum, rep₂, haddr, rep₃, hpage, hextra⟩

/-- What `getpserver` promises about the pages it adds: `addr[]` is enough, no more than
`max_checking_pages` pages are looked at, no more than `prefetch_pages` are added, and the
reply fits; a negative bound stands for no page. -/
def Fits (homed : Nat → Bool) (s : Options) (p : Nat) : Prop :=
  ∃ r, scan homed s p = .ok r ∧ r.checked ≤ s.maxCheckingPages.toNat ∧
    r.addr.length ≤ s.prefetchPages.toNat ∧
    ∀ (compact : Bool) (addr : Nat → Addr) (wv : BitVec Wvbits) (mem : Nat → Page) (old : Buffer),
      ∃ rep, grantMsg compact (addr p) wv (mem p) (r.addr.map fun q => ⟨addr q, mem q⟩) old =
        .ok rep

theorem Fits.of_length {homed : Nat → Bool} {s : Options} {p : Nat} {r : Scan}
    (hs : Setting.InRange s) (hscan : scan homed s p = .ok r)
    (hchecked : r.checked ≤ s.maxCheckingPages.toNat)
    (hlen : r.addr.length ≤ s.prefetchPages.toNat) : Fits homed s p := by
  refine ⟨r, hscan, hchecked, hlen, ?_⟩
  intro compact addr wv mem old
  apply grantMsg_ok
  have hpages := hs.pages
  rw [List.length_map]
  simp only [Intbytes, Addrbytes, Pagesize, Maxmsgsize, Maxsize, Msgheadsize]
  omega

/-- With a negative number of pages the scan must not find any. -/
def ScanSafe (homed : Nat → Bool) (s : Options) (p : Nat) : Prop :=
  s.prefetchFlag = true → s.prefetchPages < 0 →
    ∀ q, p < q → q ≤ p + s.maxCheckingPages.toNat → homed q = false

/-- For every `.jiaconf`, page and distribution of homes. -/
theorem getpserver_fits_iff {file : List Char} {s : Options}
    (h : Setting.getOptions file = .ok s) (homed : Nat → Bool) (p : Nat) :
    Fits homed s p ↔ ScanSafe homed s p := by
  have hrange := Setting.getOptions_inRange h
  have hpages := hrange.pages
  constructor
  · rintro ⟨r, hscan, -, hlen, -⟩ hflag hneg q hlt hle
    by_contra hhome
    have hon : s.prefetchFlag = true ∧ s.prefetchPages ≠ 0 := ⟨hflag, by omega⟩
    rw [scan, if_pos hon] at hscan
    have hroom : ((Scan.first.num : Nat) : Int) + s.maxCheckingPages.toNat ≤
        s.maxCheckingPages + 1 := by
      show ((1 : Nat) : Int) + _ ≤ _
      push_cast
      omega
    have hadds := scanLoop_adds hroom hlt (by omega) (Bool.not_eq_false _ ▸ hhome) hscan
    omega
  · intro hsafe
    by_cases hon : s.prefetchFlag = true ∧ s.prefetchPages ≠ 0
    · have hscan : scan homed s p =
          scanLoop homed s s.maxCheckingPages.toNat (p + 1) Scan.first := by
        rw [scan, if_pos hon]
      by_cases hneg : s.prefetchPages < 0
      · have hnone : ∀ q, p + 1 ≤ q → q < p + 1 + s.maxCheckingPages.toNat → homed q = false :=
          fun q hle hlt => hsafe hon.1 hneg q hle (by omega)
        obtain ⟨r, hloop, hchecked, haddr⟩ := @scanLoop_none homed s _ _ Scan.first hnone
        refine Fits.of_length hrange (hscan.trans hloop) ?_ ?_
        · rwa [show Scan.first.checked = 0 from rfl, Nat.zero_add] at hchecked
        · rw [haddr]
          exact Nat.zero_le _
      · have hone : ((Scan.first.num : Nat) : Int) ≤ s.prefetchPages := by
          have hne := hon.2
          show ((1 : Nat) : Int) ≤ _
          omega
        obtain ⟨r, hloop, hchecked, hle⟩ := @scanLoop_positive homed s s.maxCheckingPages.toNat
          (p + 1) Scan.first hpages.2 rfl hone
        refine Fits.of_length hrange (hscan.trans hloop) ?_ (by omega)
        rwa [show Scan.first.checked = 0 from rfl, Nat.zero_add] at hchecked
    · have hscan : scan homed s p = .ok Scan.first := by rw [scan, if_neg hon]
      exact Fits.of_length hrange hscan (Nat.zero_le _) (Nat.zero_le _)

/-- Prefetching with -1 pages. -/
def minusOne : List Char :=
  "prefetch = on\nprefetch_pages = -1\nmax_checking_pages = 10\n".toList

/-- What it leaves behind. -/
def minusOneOptions : Options where
  msgBufferSize := 48
  msgQueueSize := 32
  prefetchFlag := true
  prefetchPages := -1
  maxCheckingPages := 10

theorem getOptions_minusOne : Setting.getOptions minusOne = .ok minusOneOptions := by
  decide

/-- With ten pages at home behind the requested one the scan leaves `addr[]`. -/
theorem addr_overrun : ¬ ∀ file s, Setting.getOptions file = .ok s →
    ∀ (homed : Nat → Bool) (p : Nat), Fits homed s p := by
  intro hfits
  obtain ⟨r, hscan, -⟩ := hfits minusOne minusOneOptions getOptions_minusOne (fun _ => true) 0
  cases hscan

/-- Values above the limits. -/
def tooMany : List Char := "prefetch = on\nprefetch_pages = 13\nmax_checking_pages = 12\n".toList

/-- Four pages at most, and every page at home. -/
theorem getpserver_fits_four : ∃ file s, Setting.getOptions file = .ok s ∧
    s.prefetchPages = 4 ∧ Fits (fun _ => true) s 0 := by
  have hoptions : Setting.getOptions tooMany = .ok ⟨48, 32, true, 4, 10⟩ := by decide
  refine ⟨tooMany, ⟨48, 32, true, 4, 10⟩, hoptions, rfl, ?_⟩
  exact (getpserver_fits_iff hoptions _ _).mpr fun _ hneg => absurd hneg (by decide)

/-! ## The scan of the server -/

/-- The settings as `inittools` passes them on. -/
def optionsOf (cfg : Config) : Options where
  msgBufferSize := 48
  msgQueueSize := 32
  prefetchFlag := cfg.prefetchFlag
  prefetchPages := cfg.prefetchPages
  maxCheckingPages := cfg.maxCheckingPages

/-- The pages whose home is host `pid`. -/
def homedAt (m : MemState) (pid q : Nat) : Bool := (m.page q).homepid = pid

@[simp] theorem optionsOf_prefetchPages (cfg : Config) :
    (optionsOf cfg).prefetchPages = cfg.prefetchPages := rfl

@[simp] theorem optionsOf_maxCheckingPages (cfg : Config) :
    (optionsOf cfg).maxCheckingPages = cfg.maxCheckingPages := rfl

theorem prefetchLoop_stop {cfg : Config} {pid k p num : Nat} {m m' : MemState}
    {acc ps : List Nat} (hstop : ¬ (num : Int) < cfg.maxCheckingPages + 1)
    (h : m.prefetchLoop cfg pid k p num acc = .ok (m', ps)) : ps = acc := by
  induction k generalizing p with
  | zero =>
      rw [MemState.prefetchLoop, Except.ok.injEq, Prod.mk.injEq] at h
      exact h.2.symm
  | succ k ih =>
      simp only [MemState.prefetchLoop, bind_eq_ok, hstop, and_false, if_false] at h
      obtain ⟨-, -, h⟩ := h
      exact ih h

/-- The loop over the tables is the scan over the homes in them. -/
theorem prefetchLoop_scan {cfg : Config} {pid k p : Nat} {m m' : MemState} {ps : List Nat}
    {r : Scan} (h : m.prefetchLoop cfg pid k p r.num r.addr = .ok (m', ps)) :
    ∃ r', scanLoop (homedAt m pid) (optionsOf cfg) k p r = .ok r' ∧ r'.addr = ps := by
  induction k generalizing m p r with
  | zero =>
      rw [MemState.prefetchLoop, Except.ok.injEq, Prod.mk.injEq] at h
      exact ⟨r, rfl, h.2⟩
  | succ k ih =>
      rw [scanLoop, optionsOf_maxCheckingPages]
      by_cases hcheck : (r.num : Int) < cfg.maxCheckingPages + 1
      · rw [if_pos hcheck]
        by_cases hhome : (m.page p).homepid = pid
        · have hhome' : homedAt m pid p = true := decide_eq_true hhome
          simp only [MemState.prefetchLoop, bind_eq_ok, hhome, hcheck, and_self, if_true] at h
          obtain ⟨-, -, -, -, u, hten, h⟩ := h
          rw [if_pos hhome', hten]
          by_cases hlast : ((r.num + 1 : Nat) : Int) = cfg.prefetchPages + 1
          · rw [if_pos hlast] at h
            have hps := (Prod.mk.inj (Except.ok.inj h)).2
            refine ⟨⟨r.checked + 1, r.num + 1, r.addr ++ [p]⟩, ?_, hps⟩
            show (if ((r.num + 1 : Nat) : Int) = (optionsOf cfg).prefetchPages + 1 then _
              else _) = _
            rw [optionsOf_prefetchPages, if_pos hlast]
            rfl
          · rw [if_neg hlast] at h
            obtain ⟨r', hloop, haddr⟩ :=
              @ih (p + 1) _ ⟨r.checked + 1, r.num + 1, r.addr ++ [p]⟩ h
            refine ⟨r', ?_, haddr⟩
            show (if ((r.num + 1 : Nat) : Int) = (optionsOf cfg).prefetchPages + 1 then _
              else _) = _
            rw [optionsOf_prefetchPages, if_neg hlast]
            exact hloop
        · have hhome' : ¬ homedAt m pid p = true := fun hcon => hhome (of_decide_eq_true hcon)
          simp only [MemState.prefetchLoop, bind_eq_ok, hhome, false_and, if_false] at h
          obtain ⟨-, -, h⟩ := h
          rw [if_neg hhome']
          exact @ih (p + 1) m { r with checked := r.checked + 1 } h
      · rw [if_neg hcheck]
        exact ⟨r, rfl, (prefetchLoop_stop hcheck h).symm⟩

theorem prefetch_scan {cfg : Config} {pid p : Nat} {m m' : MemState} {ps : List Nat}
    (h : m.prefetch cfg pid p = .ok (m', ps)) :
    ∃ r, scan (homedAt m pid) (optionsOf cfg) p = .ok r ∧ r.addr = ps := by
  unfold MemState.prefetch at h
  unfold scan
  by_cases hon : cfg.prefetchFlag = true ∧ cfg.prefetchPages ≠ 0
  · have hon' : (optionsOf cfg).prefetchFlag = true ∧ (optionsOf cfg).prefetchPages ≠ 0 := hon
    rw [if_pos hon] at h
    rw [if_pos hon']
    exact @prefetchLoop_scan cfg pid _ (p + 1) m m' ps Scan.first h
  · have hon' : ¬ ((optionsOf cfg).prefetchFlag = true ∧ (optionsOf cfg).prefetchPages ≠ 0) := hon
    rw [if_neg hon, Except.ok.injEq, Prod.mk.injEq] at h
    rw [if_neg hon']
    exact ⟨Scan.first, rfl, h.2⟩

end Jiajia.PageReply
