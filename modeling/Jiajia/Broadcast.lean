import Jiajia.Routing
import Jiajia.Lib.Relay

/-!
# Broadcasts

`broadcast` sends a message to every host, one by one or along a binomial tree.
In both modes the copies for a host are one queue, to which the root appends
and from which the host takes.
-/

namespace Jiajia

open Fifo Transition Host

/-! ## Positions in the tree -/

/-- `p` with its low `l` bits cleared. -/
def above (l p : Nat) : Nat := p / 2 ^ l * 2 ^ l

theorem above_zero (p : Nat) : above 0 p = p := by simp [above]

theorem above_le (l p : Nat) : above l p ≤ p := Nat.div_mul_le_self p _

theorem above_of_dvd {l p : Nat} (h : 2 ^ l ∣ p) : above l p = p := Nat.div_mul_cancel h

theorem dvd_above (l p : Nat) : 2 ^ l ∣ above l p := Nat.dvd_mul_left _ _

theorem above_eq_zero {l p : Nat} (h : p < 2 ^ l) : above l p = 0 := by
  rw [above, Nat.div_eq_of_lt h, Nat.zero_mul]

theorem above_succ (l p : Nat) : above (l + 1) p = p / 2 ^ l / 2 * 2 * 2 ^ l := by
  rw [above, pow_succ, ← Nat.div_div_eq_div_mul, Nat.mul_assoc, Nat.mul_comm 2]

/-- A position is its parent's or one power of two further. -/
theorem above_cases (l p : Nat) :
    above l p = above (l + 1) p ∨ above l p = above (l + 1) p + 2 ^ l := by
  rw [above_succ, above]
  rcases Nat.mod_two_eq_zero_or_one (p / 2 ^ l) with h | h
  · left
    congr 1
    omega
  · right
    rw [← Nat.succ_mul]
    congr 1
    omega

theorem above_above (l p : Nat) : above (l + 1) (above l p) = above (l + 1) p := by
  have hdiv : above l p / 2 ^ l = p / 2 ^ l := Nat.mul_div_cancel _ (Nat.two_pow_pos l)
  rw [above_succ, above_succ, hdiv]

theorem above_child {l q : Nat} (h : 2 ^ (l + 1) ∣ q) :
    above l (q + 2 ^ l) = q + 2 ^ l ∧ above (l + 1) (q + 2 ^ l) = q := by
  have hl : 2 ^ l ∣ q := (pow_dvd_pow 2 (Nat.le_succ l)).trans h
  refine ⟨above_of_dvd (Nat.dvd_add hl (Nat.dvd_refl _)), ?_⟩
  obtain ⟨k, rfl⟩ := h
  have hlt : 2 ^ l < 2 ^ (l + 1) := Nat.pow_lt_pow_right (by omega) (Nat.lt_succ_self l)
  rw [above, Nat.mul_add_div (Nat.two_pow_pos _), Nat.div_eq_of_lt hlt, Nat.add_zero,
    Nat.mul_comm]

/-! ## The channels of a broadcast -/

variable (cfg : Config)

/-- The position of a host relative to the root, `mypid` of `bcastserver`. -/
def treePos (root h : Nat) : Nat := if root ≤ h then h - root else h + cfg.hostc - root

def treeHost (root p : Nat) : Nat := (p + root) % cfg.hostc

variable {cfg}

theorem treePos_lt {root h : Nat} (hr : root < cfg.hostc) (hh : h < cfg.hostc) :
    treePos cfg root h < cfg.hostc := by
  unfold treePos
  split <;> omega

theorem treeHost_lt (root p : Nat) : treeHost cfg root p < cfg.hostc :=
  Nat.mod_lt _ cfg.hostc_pos

theorem treeHost_treePos {root h : Nat} (hr : root < cfg.hostc) (hh : h < cfg.hostc) :
    treeHost cfg root (treePos cfg root h) = h := by
  unfold treeHost treePos
  split
  · rw [Nat.sub_add_cancel (by assumption), Nat.mod_eq_of_lt hh]
  · rw [Nat.sub_add_cancel (by omega), Nat.add_mod_right, Nat.mod_eq_of_lt hh]

theorem treePos_treeHost {root p : Nat} (hr : root < cfg.hostc) (hp : p < cfg.hostc) :
    treePos cfg root (treeHost cfg root p) = p := by
  unfold treeHost treePos
  by_cases hlt : p + root < cfg.hostc
  · rw [Nat.mod_eq_of_lt hlt]
    split <;> omega
  · have hmod : (p + root) % cfg.hostc = p + root - cfg.hostc := by
      rw [Nat.mod_eq_sub_mod (by omega), Nat.mod_eq_of_lt (by omega)]
    rw [hmod]
    split <;> omega

@[simp] theorem treePos_self (root : Nat) : treePos cfg root root = 0 := by
  simp [treePos]

theorem bcastLevel_pos (cfg : Config) : 0 < bcastLevel cfg := by
  unfold bcastLevel
  split
  · exact Nat.one_pos
  · rename_i hne
    by_contra h0
    have h0 : firstIdx (fun level => decide (cfg.hostc ≤ 2 ^ level)) cfg.hostc 0 = 0 := by omega
    have hpos := cfg.hostc_pos
    have hfound := firstIdx_found (P := fun level => decide (cfg.hostc ≤ 2 ^ level))
      (k := cfg.hostc) (i := 0) (by omega)
    rw [h0] at hfound
    simp only [pow_zero, decide_eq_true_eq] at hfound
    omega

/-- The tree has room for all hosts. -/
theorem hostc_le_two_pow_bcastLevel : cfg.hostc ≤ 2 ^ bcastLevel cfg := by
  unfold bcastLevel
  split
  · omega
  · by_cases hlt : firstIdx (fun level => decide (cfg.hostc ≤ 2 ^ level)) cfg.hostc 0 <
        0 + cfg.hostc
    · simpa using firstIdx_found hlt
    · have hle := firstIdx_le (fun level => decide (cfg.hostc ≤ 2 ^ level)) cfg.hostc 0
      have heq : firstIdx (fun level => decide (cfg.hostc ≤ 2 ^ level)) cfg.hostc 0 =
        cfg.hostc := by omega
      rw [heq]
      exact Nat.lt_two_pow_self.le

variable (cfg)

/-- Number of channels a copy crosses. -/
def castLevels : Nat := if cfg.bCast then bcastLevel cfg else 1

def castSrc (root h l : Nat) : Nat :=
  if cfg.bCast then treeHost cfg root (above (l + 1) (treePos cfg root h)) else root

def castDst (root h l : Nat) : Nat :=
  if cfg.bCast then treeHost cfg root (above l (treePos cfg root h)) else h

variable {cfg}

/-- What a message of level `l` of a broadcast from `root` carries. -/
def castRead (root : Nat) (kind : Msg → Bool) : Nat → Msg → Option Msg
  | 0, msg => if kind msg then some msg else none
  | l + 1, .bcast r l' msg => if r = root ∧ l' = l + 1 ∧ kind msg then some msg else none
  | _ + 1, _ => none

/-- The host that broadcasts a message. -/
def Msg.castRoot (cfg : Config) : Msg → Nat
  | .waitgrant => 0
  | _ => hidelock % cfg.hostc

theorem Msg.castRoot_lt (msg : Msg) : msg.castRoot cfg < cfg.hostc := by
  cases msg <;> first | exact cfg.hostc_pos | exact Nat.mod_lt _ cfg.hostc_pos

/-- A kind of messages that are broadcast from one host. -/
structure Kind (cfg : Config) where
  root : Nat
  down : Msg → Bool
  isBroadcast : ∀ {msg}, down msg → msg.Broadcast
  castRoot : ∀ {msg}, down msg → msg.castRoot cfg = root
  root_lt : root < cfg.hostc

namespace Kind

variable (k : Kind cfg)

theorem down_bcast (r l : Nat) (msg : Msg) : k.down (.bcast r l msg) = false := by
  by_contra h
  rw [Bool.not_eq_false] at h
  cases k.isBroadcast h

theorem read_eq_some {l : Nat} {msg msg' : Msg} (h : castRead k.root k.down l msg = some msg') :
    k.down msg' = true ∧ (l = 0 ∧ msg = msg' ∨ 0 < l ∧ msg = .bcast k.root l msg') := by
  cases l with
  | zero =>
      simp only [castRead, Option.ite_none_right_eq_some, Option.some.injEq] at h
      obtain ⟨hk, rfl⟩ := h
      exact ⟨hk, Or.inl ⟨rfl, rfl⟩⟩
  | succ l =>
      cases msg with
      | bcast r l' msg =>
          simp only [castRead, Option.ite_none_right_eq_some, Option.some.injEq] at h
          obtain ⟨⟨rfl, rfl, hk⟩, rfl⟩ := h
          exact ⟨hk, Or.inr ⟨Nat.succ_pos l, rfl⟩⟩
      | _ => cases h

/-- The broadcasts of this kind as queues of copies. -/
def cast : Relay.Cast Msg Msg where
  parties := cfg.hostc
  levels := castLevels cfg
  src := castSrc cfg k.root
  dst := castDst cfg k.root
  read := castRead k.root k.down
  levels_pos := by
    unfold castLevels
    split
    · exact bcastLevel_pos cfg
    · exact Nat.one_pos
  dst_zero h hh := by
    unfold castDst
    split
    · rw [above_zero, treeHost_treePos k.root_lt hh]
    · rfl
  read_unique {l l' m} h h' := by
    obtain ⟨a, ha⟩ := Option.ne_none_iff_exists'.mp h
    obtain ⟨b, hb⟩ := Option.ne_none_iff_exists'.mp h'
    obtain ⟨hka, hca⟩ := k.read_eq_some ha
    obtain ⟨hkb, hcb⟩ := k.read_eq_some hb
    rcases hca with ⟨rfl, rfl⟩ | ⟨hl, rfl⟩
    · rcases hcb with ⟨rfl, -⟩ | ⟨-, rfl⟩
      · rfl
      · rw [k.down_bcast] at hka
        cases hka
    · rcases hcb with ⟨rfl, rfl⟩ | ⟨-, heq⟩
      · rw [k.down_bcast] at hkb
        cases hkb
      · exact (Msg.bcast.inj heq).2.1

end Kind

/-! ## Every copy is on its way -/

/-- The channel from `a` to `b` carries copies of level `l`. -/
structure OnPath (cfg : Config) (root a b l : Nat) : Prop where
  lt : b < cfg.hostc
  level : l < castLevels cfg
  dst : castDst cfg root b l = b
  src : castSrc cfg root b l = a

def Relayed (cfg : Config) (a b : Nat) : Msg → Prop
  | .bcast root l msg =>
      cfg.bCast = true ∧ root = msg.castRoot cfg ∧ 0 < l ∧ OnPath cfg root a b l
  | msg => msg.Broadcast → OnPath cfg (msg.castRoot cfg) a b 0

theorem OnPath.dvd {root a b l : Nat} (h : OnPath cfg root a b l) (hb : cfg.bCast = true)
    (hr : root < cfg.hostc) : 2 ^ l ∣ treePos cfg root b := by
  have hdst := h.dst
  rw [castDst, if_pos hb] at hdst
  have hlt : above l (treePos cfg root b) < cfg.hostc :=
    (above_le l _).trans_lt (treePos_lt hr h.lt)
  have hpos := congrArg (treePos cfg root) hdst
  rw [treePos_treeHost hr hlt] at hpos
  rw [← hpos]
  exact dvd_above l _

theorem relayed_of_onPath {root a b l : Nat} {msg : Msg} (hb : cfg.bCast = true)
    (hmsg : msg.Broadcast) (hroot : root = msg.castRoot cfg) (h : OnPath cfg root a b l) :
    Relayed cfg a b (if l = 0 then msg else .bcast root l msg) := by
  by_cases hl : l = 0
  · subst hl
    subst hroot
    rw [if_pos rfl]
    cases hmsg <;> exact fun _ => h
  · rw [if_neg hl]
    exact ⟨hb, hroot, Nat.pos_of_ne_zero hl, h⟩

/-- What a relay sends on level `l`: `x` to its second child, if there is one,
and to itself. -/
def relayOut {μ : Type} (cfg : Config) (pid root l : Nat) (x : μ) : Outbox μ :=
  (if treePos cfg root pid + 2 ^ l < cfg.hostc then
    [(treeHost cfg root (treePos cfg root pid + 2 ^ l), x)] else []) ++
    [(treeHost cfg root (treePos cfg root pid), x)]

section RelayOut

variable {μ : Type} {pid root l : Nat} {x : μ} {y : Nat × μ}

/-- The two positions a relay sends to. -/
theorem mem_relayOut (hr : root < cfg.hostc) (hpid : pid < cfg.hostc)
    (hy : y ∈ relayOut cfg pid root l x) :
    y.2 = x ∧ y.1 < cfg.hostc ∧
      (treePos cfg root y.1 = treePos cfg root pid ∨
        treePos cfg root y.1 = treePos cfg root pid + 2 ^ l) := by
  have hpos := treePos_lt hr hpid
  rw [relayOut, List.mem_append, List.mem_singleton] at hy
  rcases hy with hy | rfl
  · split at hy
    · rename_i hlt
      rw [List.mem_singleton] at hy
      subst hy
      exact ⟨rfl, treeHost_lt _ _, Or.inr (treePos_treeHost hr hlt)⟩
    · cases hy
  · exact ⟨rfl, treeHost_lt _ _, Or.inl (treePos_treeHost hr hpos)⟩

/-- What a relay sends is on its way again, one level lower. -/
theorem relayOut_onPath (hb : cfg.bCast = true) (hr : root < cfg.hostc) (hpid : pid < cfg.hostc)
    (hl : l < castLevels cfg) (hdvd : 2 ^ (l + 1) ∣ treePos cfg root pid)
    (hy : y ∈ relayOut cfg pid root l x) : OnPath cfg root pid y.1 l := by
  obtain ⟨-, hd, hpos⟩ := mem_relayOut hr hpid hy
  have habove : above l (treePos cfg root y.1) = treePos cfg root y.1 ∧
      above (l + 1) (treePos cfg root y.1) = treePos cfg root pid := by
    rcases hpos with hpos | hpos
    · rw [hpos]
      exact ⟨above_of_dvd ((pow_dvd_pow 2 (Nat.le_succ l)).trans hdvd), above_of_dvd hdvd⟩
    · rw [hpos]
      exact above_child hdvd
  refine ⟨hd, hl, ?_, ?_⟩
  · rw [castDst, if_pos hb, habove.1, treeHost_treePos hr hd]
  · rw [castSrc, if_pos hb, habove.2, treeHost_treePos hr hpid]

/-- The copy a relay sends on the way to host `h`, if it is on that way. -/
theorem outboxTo_relayOut {h : Nat} (hb : cfg.bCast = true) (hr : root < cfg.hostc)
    (hh : h < cfg.hostc) (hpid : pid < cfg.hostc) (hdvd : 2 ^ (l + 1) ∣ treePos cfg root pid) :
    outboxTo (relayOut cfg pid root l x) (castDst cfg root h l) =
      if above (l + 1) (treePos cfg root h) = treePos cfg root pid then [x] else [] := by
  have hpb := treePos_lt hr hpid
  have hq : above l (treePos cfg root h) < cfg.hostc :=
    (above_le l _).trans_lt (treePos_lt hr hh)
  have hpow := Nat.two_pow_pos l
  -- positions and hosts correspond, so the target decides which of the two entries counts
  have htarget : ∀ p, p < cfg.hostc →
      outboxTo [(treeHost cfg root p, x)] (treeHost cfg root (above l (treePos cfg root h))) =
      if above l (treePos cfg root h) = p then [x] else [] := by
    intro p hp
    by_cases heq : above l (treePos cfg root h) = p
    · rw [if_pos heq, heq, outboxTo_cons_same, outboxTo_nil]
    · rw [if_neg heq]
      apply outboxTo_cons_ne
      intro hhost
      have hpos := congrArg (treePos cfg root) hhost
      rw [treePos_treeHost hr hp, treePos_treeHost hr hq] at hpos
      exact heq hpos.symm
  have hchild : outboxTo (if treePos cfg root pid + 2 ^ l < cfg.hostc then
      [(treeHost cfg root (treePos cfg root pid + 2 ^ l), x)] else [])
      (treeHost cfg root (above l (treePos cfg root h))) =
      if above l (treePos cfg root h) = treePos cfg root pid + 2 ^ l then [x] else [] := by
    by_cases hlt : treePos cfg root pid + 2 ^ l < cfg.hostc
    · rw [if_pos hlt, htarget _ hlt]
    · rw [if_neg hlt, if_neg (by omega), outboxTo_nil]
  have hparent := above_above l (treePos cfg root h)
  rw [castDst, if_pos hb, relayOut, outboxTo_append, hchild, htarget _ hpb]
  by_cases hself : above l (treePos cfg root h) = treePos cfg root pid
  · rw [hself, above_of_dvd hdvd] at hparent
    rw [if_neg (by omega), if_pos hself, if_pos hparent.symm]
    rfl
  · by_cases hnext : above l (treePos cfg root h) = treePos cfg root pid + 2 ^ l
    · rw [hnext, (above_child hdvd).2] at hparent
      rw [if_pos hnext, if_neg hself, if_pos hparent.symm]
      rfl
    · have hoff : above (l + 1) (treePos cfg root h) ≠ treePos cfg root pid := by
        intro heq
        rcases above_cases l (treePos cfg root h) with hcase | hcase
        · exact hself (hcase.trans heq)
        · exact hnext (by rw [hcase, heq])
      rw [if_neg hnext, if_neg hself, if_neg hoff]
      rfl

end RelayOut

theorem bcastserver_eq (pid root l : Nat) (msg : Msg) :
    bcastserver cfg pid root (l + 1) msg =
      relayOut cfg pid root l (if l = 0 then msg else .bcast root l msg) :=
  rfl

/-- What a relay sends is on its way again, one level lower. -/
theorem bcastserver_onPath {pid root l d : Nat} {msg msg' : Msg} (hb : cfg.bCast = true)
    (hr : root < cfg.hostc) (hpid : pid < cfg.hostc) (hl : l < castLevels cfg)
    (hdvd : 2 ^ (l + 1) ∣ treePos cfg root pid)
    (hm : (d, msg') ∈ bcastserver cfg pid root (l + 1) msg) :
    msg' = (if l = 0 then msg else .bcast root l msg) ∧ OnPath cfg root pid d l :=
  ⟨(mem_relayOut hr hpid hm).1, relayOut_onPath hb hr hpid hl hdvd hm⟩

theorem broadcast_relayed {pid d : Nat} {msg msg' : Msg} (hmsg : msg.Broadcast)
    (hroot : pid = msg.castRoot cfg) (hm : (d, msg') ∈ broadcast cfg pid msg) :
    Relayed cfg pid d msg' := by
  have hpid : pid < cfg.hostc := hroot ▸ msg.castRoot_lt
  unfold broadcast at hm
  split at hm
  · rename_i hb
    obtain ⟨l, hl⟩ := Nat.exists_eq_add_of_lt (bcastLevel_pos cfg)
    rw [Nat.zero_add] at hl
    rw [hl] at hm
    have hlevel : l < castLevels cfg := by
      rw [castLevels, if_pos hb, hl]
      exact Nat.lt_succ_self l
    obtain ⟨rfl, hpath⟩ := bcastserver_onPath hb hpid hpid hlevel (by simp) hm
    exact relayed_of_onPath hb hmsg hroot hpath
  · rename_i hb
    obtain ⟨k, hk, heq⟩ := List.mem_map.mp hm
    obtain ⟨rfl, rfl⟩ := Prod.mk.inj heq
    have hpath : OnPath cfg (msg.castRoot cfg) pid k 0 := by
      refine ⟨List.mem_range.mp hk, ?_, ?_, ?_⟩
      · rw [castLevels, if_neg hb]
        exact Nat.one_pos
      · rw [castDst, if_neg hb]
      · rw [castSrc, if_neg hb, hroot]
    cases hmsg <;> exact fun _ => hpath

theorem relayed_of_isRequest {a b : Nat} {msg : Msg} (h : msg.isRequest = true) :
    Relayed cfg a b msg := by
  cases msg <;> first | (cases h; done) | exact fun hb => nomatch hb

theorem served_relayed {pid src : Nat} {rnd : List Nat} {h h' : Host} {out : Out} {msg : Msg}
    (hin : Routed cfg src pid msg) (hrel : Relayed cfg src pid msg)
    (hs : Served cfg pid h src rnd msg h' out) {d : Nat} {msg' : Msg} (hmem : (d, msg') ∈ out) :
    Relayed cfg pid d msg' := by
  have hlock : ∀ {l : Nat} {h : Host} {out : Out}, l < Maxlocks → h.grantFirst cfg l = .ok out →
      (d, msg') ∈ out → Relayed cfg pid d msg' := by
    intro l h out hl hout hmem
    obtain ⟨cs, -, rfl⟩ := grantFirst_ok hout
    obtain ⟨msg₁, hmsg, heq⟩ := List.mem_map.mp hmem
    obtain ⟨-, rfl⟩ := Prod.mk.inj heq
    obtain ⟨c, -, rfl | rfl⟩ := mem_chunkMsgs hmsg
    · intro hb
      cases hb
      simp at hl
    · exact fun hb => nomatch hb
  cases hs with
  | diff hm =>
      obtain ⟨-, rfl⟩ := Prod.mk.inj (List.mem_singleton.mp hmem)
      exact fun hb => nomatch hb
  | getp hm =>
      obtain ⟨wv, data, extra, rfl⟩ := getpserver_out hm
      obtain ⟨-, rfl⟩ := Prod.mk.inj (List.mem_singleton.mp hmem)
      exact fun hb => nomatch hb
  | acqFirst hl hc hout => exact hlock hin.1 hout hmem
  | relNext hl hsrc hc hout => exact hlock hin.1 hout hmem
  | barrLast hl hc hout =>
      obtain ⟨cs, -, rfl⟩ := grantbarr_ok hout
      obtain ⟨msg, hmsg, hmem⟩ := List.mem_flatMap.mp hmem
      obtain ⟨c, -, rfl | rfl⟩ := mem_chunkMsgs hmsg
      · exact broadcast_relayed (.invld _) hl.symm hmem
      · exact broadcast_relayed (.barrgrant _ _) hl.symm hmem
  | waitLast hc => exact broadcast_relayed .waitgrant hin hmem
  | @bcast root level msg =>
      obtain ⟨hb, hroot, hlevel, hpath⟩ := hrel
      obtain ⟨l, rfl⟩ := Nat.exists_eq_succ_of_ne_zero hlevel.ne'
      have hr : root < cfg.hostc := hroot ▸ msg.castRoot_lt
      have hlt : l < castLevels cfg := (Nat.lt_succ_self l).trans hpath.level
      obtain ⟨rfl, hpath'⟩ := bcastserver_onPath hb hr hpath.lt hlt (hpath.dvd hb hr) hmem
      exact relayed_of_onPath hb hin hroot hpath'
  | _ => cases hmem

theorem reach_relayed {s : State} (hs : (system cfg).Reach s) {a b : Nat} {msg : Msg}
    (hm : msg ∈ s.net a b) : Relayed cfg a b msg := by
  have hboth : Routed cfg a b msg ∧ Relayed cfg a b msg := by
    refine reach_net (P := fun a b msg => Routed cfg a b msg ∧ Relayed cfg a b msg) ?_ ?_ hs hm
    · intro s i act h' out hreach hi hmain d msg hmem
      have hr := Host.main_routed (reach_stackOk hreach i) hmain hmem
      exact ⟨hr.2, relayed_of_isRequest hr.1⟩
    · intro s src dst rnd msg h' out _ hin hserved d msg' hmem
      exact ⟨(Host.served_routed hin.1 hserved hmem).2, served_relayed hin.1 hin.2 hserved hmem⟩
  exact hboth.2

/-! ## The queue of copies -/

namespace Kind

variable (k : Kind cfg) {n : Net Msg} {a b h : Nat} {msg : Msg} {rest : List Msg}

/-- Messages that carry nothing of this kind. -/
def Quiet (msg : Msg) : Prop := ∀ l, castRead k.root k.down l msg = none

theorem quiet_of_request (hreq : msg.isRequest = true) : k.Quiet msg := by
  intro l
  by_contra hsome
  obtain ⟨msg', hread⟩ := Option.ne_none_iff_exists'.mp hsome
  obtain ⟨hdown, ⟨-, rfl⟩ | ⟨-, rfl⟩⟩ := k.read_eq_some hread
  · rw [(k.isBroadcast hdown).isRequest] at hreq
    cases hreq
  · cases hreq

/-- A message is of this kind, a relayed message of this kind, or quiet. -/
theorem quiet_of_not_down (hdown : k.down msg = false)
    (hbcast : ∀ r l msg', msg = .bcast r l msg' → k.down msg' = false) : k.Quiet msg := by
  intro l
  by_contra hsome
  obtain ⟨msg', hread⟩ := Option.ne_none_iff_exists'.mp hsome
  obtain ⟨hdown', ⟨-, rfl⟩ | ⟨-, rfl⟩⟩ := k.read_eq_some hread
  · rw [hdown] at hdown'
    cases hdown'
  · rw [hbcast _ _ _ rfl] at hdown'
    cases hdown'

theorem read_plain (hdown : k.down msg = true) : castRead k.root k.down 0 msg = some msg := by
  simp [castRead, hdown]

theorem read_wrapped (hdown : k.down msg = true) (l : Nat) :
    castRead k.root k.down l (if l = 0 then msg else .bcast k.root l msg) = some msg := by
  cases l with
  | zero => exact k.read_plain hdown
  | succ l => simp [castRead, hdown]

theorem read_wrapped_ne (hdown : k.down msg = true) {l l' : Nat} (hl : l' ≠ l) :
    castRead k.root k.down l' (if l = 0 then msg else .bcast k.root l msg) = none := by
  by_contra hsome
  have hread : k.cast.read l (if l = 0 then msg else .bcast k.root l msg) ≠ none := by
    change castRead k.root k.down l _ ≠ none
    rw [k.read_wrapped hdown]
    exact Option.some_ne_none _
  exact hl (k.cast.read_unique hsome hread)

/-- The plain copies that reach a host were sent to it by its relay. -/
theorem onPath_of_down (hdown : k.down msg = true) (hrel : Relayed cfg a b msg) :
    OnPath cfg k.root a b 0 := by
  have hb := k.isBroadcast hdown
  rw [← k.castRoot hdown]
  cases hb <;> exact hrel (by constructor)

theorem pending_deliver (hnet : n a b = msg :: rest) (hrel : Relayed cfg a b msg)
    (hdown : k.down msg = true) :
    k.cast.pending n b = msg :: k.cast.pending (drop n a b) b :=
  Relay.Cast.pending_deliver (k.onPath_of_down hdown hrel).lt hnet (k.read_plain hdown)
    (k.onPath_of_down hdown hrel).src

theorem pending_deliver_ne (hnet : n a b = msg :: rest) (hdown : k.down msg = true)
    (hh : h < cfg.hostc) (hne : h ≠ b) :
    k.cast.pending (drop n a b) h = k.cast.pending n h :=
  Relay.Cast.pending_deliver_ne hh hne hnet (k.read_plain hdown)

/-- The copy a relay sends on the way to host `h`, if it is on that way. -/
theorem read_bcastserver (hb : cfg.bCast = true) (hdown : k.down msg = true)
    (hh : h < cfg.hostc) (hpid : b < cfg.hostc) {l : Nat}
    (hdvd : 2 ^ (l + 1) ∣ treePos cfg k.root b) :
    (outboxTo (bcastserver cfg b k.root (l + 1) msg) (castDst cfg k.root h l)).filterMap
        (castRead k.root k.down l) =
      if above (l + 1) (treePos cfg k.root h) = treePos cfg k.root b then [msg] else [] := by
  rw [bcastserver_eq, outboxTo_relayOut hb k.root_lt hh hpid hdvd]
  split
  · simp [k.read_wrapped hdown l]
  · rfl

/-- Only the level below sees what a relay sends. -/
theorem read_bcastserver_ne (hdown : k.down msg = true) {l l' : Nat} (hl : l' ≠ l)
    {y : Nat × Msg} (hy : y ∈ bcastserver cfg b k.root (l + 1) msg) :
    castRead k.root k.down l' y.2 = none := by
  rw [mem_bcastserver hy, Nat.add_sub_cancel]
  exact k.read_wrapped_ne hdown hl

/-- A relay passes a copy on. -/
theorem pending_forward {l : Nat} (hnet : n a b = .bcast k.root (l + 1) msg :: rest)
    (hrel : Relayed cfg a b (.bcast k.root (l + 1) msg)) (hdown : k.down msg = true)
    (hh : h < cfg.hostc) :
    k.cast.pending (send (drop n a b) b (bcastserver cfg b k.root (l + 1) msg)) h =
      k.cast.pending n h := by
  obtain ⟨hb, -, -, hpath⟩ := hrel
  have hdvd := hpath.dvd hb k.root_lt
  have hout := k.read_bcastserver hb hdown hh hpath.lt hdvd
  have hup : above (l + 1) (treePos cfg k.root h) < cfg.hostc :=
    (above_le _ _).trans_lt (treePos_lt k.root_lt hh)
  have hsrc : castSrc cfg k.root h l = castDst cfg k.root h (l + 1) := by
    rw [castSrc, castDst, if_pos hb, if_pos hb]
  have hiff : castDst cfg k.root h (l + 1) = b ↔
      above (l + 1) (treePos cfg k.root h) = treePos cfg k.root b := by
    rw [castDst, if_pos hb]
    constructor
    · intro heq
      rw [← heq, treePos_treeHost k.root_lt hup]
    · intro heq
      rw [heq, treeHost_treePos k.root_lt hpath.lt]
  refine Relay.Cast.pending_forward (c := k.cast) (x := msg) hpath.level hnet ?_ ?_ ?_ ?_
  · exact k.read_wrapped hdown (l + 1)
  · rintro ⟨-, hdst⟩
    refine ⟨hsrc.trans hdst, ?_⟩
    rw [if_pos (hiff.mp hdst)] at hout
    exact hout
  · intro hoff hsrc'
    have hdst := hiff.mp (hsrc.symm.trans hsrc')
    -- a host below this relay gets its copies on the channel the message came on
    refine absurd ⟨?_, hiff.mpr hdst⟩ hoff
    have hchan := hpath.src
    rw [castSrc, if_pos hb] at hchan
    change castSrc cfg k.root h (l + 1) = a
    rw [castSrc, if_pos hb, ← hchan, ← hdst, above_above]
  · intro l' hl' y hy
    exact k.read_bcastserver_ne hdown hl' hy

/-- The root appends a message to every queue. -/
theorem pending_broadcast (hdown : k.down msg = true) (hh : h < cfg.hostc) :
    k.cast.pending (send n k.root (broadcast cfg k.root msg)) h =
      k.cast.pending n h ++ [msg] := by
  unfold broadcast
  by_cases hb : cfg.bCast = true
  · rw [if_pos hb]
    obtain ⟨l, hl⟩ := Nat.exists_eq_add_of_lt (bcastLevel_pos cfg)
    rw [Nat.zero_add] at hl
    have hlevels : k.cast.levels = l + 1 := by
      change castLevels cfg = l + 1
      rw [castLevels, if_pos hb, hl]
    have hroot : above (l + 1) (treePos cfg k.root h) = treePos cfg k.root k.root := by
      rw [treePos_self, above_eq_zero]
      rw [← hl]
      exact (treePos_lt k.root_lt hh).trans_le hostc_le_two_pow_bcastLevel
    have hout := k.read_bcastserver (l := l) hb hdown hh k.root_lt (by simp)
    rw [if_pos hroot] at hout
    rw [hl]
    apply Relay.Cast.pending_start hlevels
    · refine ⟨?_, hout⟩
      change castSrc cfg k.root h l = k.root
      rw [castSrc, if_pos hb, hroot, treeHost_treePos k.root_lt k.root_lt]
    · intro l' hl' y hy
      exact k.read_bcastserver_ne hdown hl'.ne hy
  · rw [if_neg hb]
    have hlevels : k.cast.levels = 0 + 1 := by
      change castLevels cfg = 1
      rw [castLevels, if_neg hb]
    apply Relay.Cast.pending_start hlevels
    · refine ⟨?_, ?_⟩
      · change castSrc cfg k.root h 0 = k.root
        rw [castSrc, if_neg hb]
      · change (outboxTo _ (castDst cfg k.root h 0)).filterMap (castRead k.root k.down 0) = [msg]
        rw [castDst, if_neg hb, outboxTo_map_range msg hh]
        simp [k.read_plain hdown]
    · intro l' hl'
      omega

theorem pending_broadcasts {msgs : List Msg} (hdown : ∀ msg ∈ msgs, k.down msg = true)
    (hh : h < cfg.hostc) :
    k.cast.pending (send n k.root (msgs.flatMap (broadcast cfg k.root))) h =
      k.cast.pending n h ++ msgs := by
  induction msgs generalizing n with
  | nil => simp
  | cons msg msgs ih =>
      rw [List.flatMap_cons, send_append, ih fun m hm => hdown m (List.mem_cons_of_mem _ hm),
        k.pending_broadcast (hdown msg List.mem_cons_self) hh, List.append_assoc]
      rfl

/-- Steps that have nothing to do with this kind. -/
theorem pending_quiet {out : Out} (hnet : n a b = msg :: rest) (hmsg : k.Quiet msg)
    (hout : ∀ y ∈ out, k.Quiet y.2) :
    k.cast.pending (send (drop n a b) b out) h = k.cast.pending n h := by
  rw [Relay.Cast.pending_send_quiet hout]
  exact Relay.Cast.pending_drop_quiet hnet hmsg

end Kind

end Jiajia
