import Jiajia.Broadcast
import Jiajia.Lib.Bytes
import Mathlib.Algebra.Order.BigOperators.Group.List

/-!
# Tree broadcasts of any messages

`bsendmsg` and `bcastserver` on the fields of `jia_msg_t`: any host broadcasts
any messages, and the copies travel down the binomial tree of their root.
-/

namespace Jiajia.TreeCast

open Fifo Transition Bytes
open Host (bcastLevel)

abbrev BCAST : Nat := 100

/-- The fields of `jia_msg_t` that a broadcast carries or changes; `size` is the
length of `data`. -/
structure JiaMsg where
  op : Nat
  frompid : Nat
  topid : Nat
  temp : Nat
  scope : BitVec 32
  data : List Byte
deriving DecidableEq, Repr

def JiaMsg.setTopid (msg : JiaMsg) (d : Nat) : JiaMsg := { msg with topid := d }

/-- `((root & 0xffff) << 16) | (level & 0xffff)` -/
def rootLevel (root level : Nat) : Nat := (root &&& 0xffff) <<< 16 ||| (level &&& 0xffff)

def rootOf (msg : JiaMsg) : Nat := msg.temp >>> 16 &&& 0xffff

def levelOf (msg : JiaMsg) : Nat := msg.temp &&& 0xffff

section Servers

variable (cfg : Config)

/-- `bcastserver(msg)` on host `pid` -/
def bcastserver (pid : Nat) (msg : JiaMsg) : Outbox JiaMsg :=
  let root := rootOf msg
  let level := levelOf msg - 1
  let mypid := treePos cfg root pid
  let child1 := mypid
  let child2 := mypid + 2 ^ level
  let op := if level = 0 then msg.op - BCAST else msg.op
  let msg := { msg with op := op, temp := rootLevel root level, frompid := pid }
  ((if child2 < cfg.hostc then [(treeHost cfg root child2, msg)] else []) ++
    [(treeHost cfg root child1, msg)]).map fun x => (x.1, x.2.setTopid x.1)

/-- `bsendmsg(msg)` on host `pid` -/
def bsendmsg (pid : Nat) (msg : JiaMsg) : Outbox JiaMsg :=
  bcastserver cfg pid
    { msg with op := msg.op + BCAST, temp := rootLevel pid (bcastLevel cfg) }

/-- The messages in flight, what each host has passed to `bsendmsg`, and what
each host has handled. -/
structure CastState where
  net : Net JiaMsg
  sent : Nat → List JiaMsg
  handled : Nat → List JiaMsg

inductive CastEvent
  /-- Host `root` passes `msg` to `bsendmsg`. -/
  | bsend (root : Nat) (msg : JiaMsg)
  /-- Host `dst` takes the next message from `src`. -/
  | deliver (src dst : Nat)

/-- `msg_handle` sends operations from `BCAST` on to `bcastserver`. -/
def castStep (s : CastState) : CastEvent → Result CastState
  | .bsend root msg => do
      await (root < cfg.hostc ∧ msg.op < BCAST)
      return { s with
        net := send s.net root (bsendmsg cfg root msg)
        sent := upd s.sent root (s.sent root ++ [msg]) }
  | .deliver src dst =>
      match s.net src dst with
      | [] => .error .blocked
      | msg :: _ =>
          let net := drop s.net src dst
          if BCAST ≤ msg.op then .ok { s with net := send net dst (bcastserver cfg dst msg) }
          else .ok { s with net := net, handled := upd s.handled dst (s.handled dst ++ [msg]) }

def castSystem : System CastState CastEvent where
  start := ⟨fun _ _ => [], fun _ => [], fun _ => []⟩
  next s e s' := castStep cfg s e = .ok s'

end Servers

/-! ## Root and level -/

theorem and_ffff (n : Nat) : n &&& 0xffff = n % 2 ^ 16 := Nat.and_two_pow_sub_one_eq_mod n 16

theorem rootLevel_eq (root level : Nat) :
    rootLevel root level = root % 2 ^ 16 * 2 ^ 16 + level % 2 ^ 16 := by
  rw [rootLevel, and_ffff, and_ffff, ← Nat.shiftLeft_add_eq_or_of_lt (Nat.mod_lt _ (by norm_num)),
    Nat.shiftLeft_eq]

theorem levelOf_rootLevel {msg : JiaMsg} {root level : Nat} (h : msg.temp = rootLevel root level)
    (hl : level < 2 ^ 16) : levelOf msg = level := by
  rw [levelOf, h, and_ffff, rootLevel_eq]
  omega

theorem rootOf_rootLevel {msg : JiaMsg} {root level : Nat} (h : msg.temp = rootLevel root level)
    (hr : root < 2 ^ 16) : rootOf msg = root := by
  rw [rootOf, h, and_ffff, Nat.shiftRight_eq_div_pow, rootLevel_eq]
  omega

/-! ## The copies of one root -/

variable {cfg : Config}

/-- The configuration with tree broadcasts; only the host count matters here. -/
def tree (cfg : Config) : Config := { cfg with bCast := true }

theorem bcastLevel_lt (cfg : Config) : bcastLevel cfg < 2 ^ 16 := by
  have hc : cfg.hostc ≤ 16 := cfg.hostc_le
  unfold bcastLevel
  split
  · norm_num
  · have hle := firstIdx_le (fun level => decide (cfg.hostc ≤ 2 ^ level)) cfg.hostc 0
    omega

theorem root_lt_pow {root : Nat} (hr : root < cfg.hostc) : root < 2 ^ 16 := by
  have hc : cfg.hostc ≤ 16 := cfg.hostc_le
  omega

/-- Operation, tag and data of a message, as the root gave them. -/
abbrev Body := Nat × BitVec 32 × List Byte

def JiaMsg.body (msg : JiaMsg) : Body := (msg.op, msg.scope, msg.data)

/-- What a message of a level carries of the broadcasts of `root`. -/
def read (root level : Nat) (msg : JiaMsg) : Option Body :=
  if rootOf msg = root ∧ levelOf msg = level ∧ (BCAST ≤ msg.op ↔ 0 < level) then
    some (if BCAST ≤ msg.op then (msg.op - BCAST, msg.scope, msg.data) else msg.body)
  else none

/-- The broadcasts of a root as queues of copies. -/
def cast (cfg : Config) {root : Nat} (hr : root < cfg.hostc) : Relay.Cast JiaMsg Body where
  parties := cfg.hostc
  levels := castLevels (tree cfg)
  src := castSrc (tree cfg) root
  dst := castDst (tree cfg) root
  read := read root
  levels_pos := bcastLevel_pos cfg
  dst_zero h hh := by
    change treeHost (tree cfg) root (above 0 (treePos (tree cfg) root h)) = h
    rw [above_zero]
    exact treeHost_treePos hr hh
  read_unique {l l' m} h h' := by
    simp only [read, ne_eq, ite_eq_right_iff, reduceCtorEq, imp_false, not_not] at h h'
    exact h.2.1.symm.trans h'.2.1

/-- A message in flight is a copy on its way, addressed to the end of its channel. -/
structure InTree (cfg : Config) (a b : Nat) (msg : JiaMsg) : Prop where
  root_lt : rootOf msg < cfg.hostc
  path : OnPath (tree cfg) (rootOf msg) a b (levelOf msg)
  op : BCAST ≤ msg.op ↔ 0 < levelOf msg
  op_lt : msg.op < 2 * BCAST
  topid : msg.topid = b

theorem InTree.read {a b : Nat} {msg : JiaMsg} (h : InTree cfg a b msg) :
    read (rootOf msg) (levelOf msg) msg =
      some (if BCAST ≤ msg.op then (msg.op - BCAST, msg.scope, msg.data) else msg.body) :=
  if_pos ⟨rfl, rfl, h.op⟩

/-- The message `bcastserver` sends on, up to its address. -/
def relayed (pid root l : Nat) (msg : JiaMsg) : JiaMsg :=
  { msg with op := if l = 0 then msg.op - BCAST else msg.op, temp := rootLevel root l, frompid := pid }

theorem bcastserver_eq {pid l : Nat} {msg : JiaMsg} (hl : levelOf msg = l + 1) :
    bcastserver cfg pid msg =
      (relayOut (tree cfg) pid (rootOf msg) l (relayed pid (rootOf msg) l msg)).map
        fun x => (x.1, x.2.setTopid x.1) := by
  rw [bcastserver, hl]
  rfl

section Relay

variable {a pid root l : Nat} {msg : JiaMsg}

/-- What a relay sends on its level. -/
structure Sends (cfg : Config) (pid l : Nat) (msg : JiaMsg) : Prop where
  pid_lt : pid < (tree cfg).hostc
  root_lt : rootOf msg < (tree cfg).hostc
  level : levelOf msg = l + 1
  level_lt : l < bcastLevel cfg
  dvd : 2 ^ (l + 1) ∣ treePos (tree cfg) (rootOf msg) pid
  op : BCAST ≤ msg.op
  op_lt : msg.op < 2 * BCAST

theorem InTree.sends (h : InTree cfg a pid msg) (hop : BCAST ≤ msg.op) :
    ∃ l, Sends cfg pid l msg := by
  obtain ⟨l, hl⟩ := Nat.exists_eq_succ_of_ne_zero (h.op.mp hop).ne'
  have hpath := h.path
  rw [hl] at hpath
  exact ⟨l, hpath.lt, h.root_lt, hl, (Nat.lt_succ_self l).trans hpath.level,
    hpath.dvd rfl h.root_lt, hop, h.op_lt⟩

theorem Sends.mem (h : Sends cfg pid l msg) {y : Nat × JiaMsg} (hy : y ∈ bcastserver cfg pid msg) :
    y.2 = (relayed pid (rootOf msg) l msg).setTopid y.1 ∧
      OnPath (tree cfg) (rootOf msg) pid y.1 l := by
  rw [bcastserver_eq h.level, List.mem_map] at hy
  obtain ⟨x, hx, rfl⟩ := hy
  have hx₂ := (mem_relayOut h.root_lt h.pid_lt hx).1
  have hpath := relayOut_onPath rfl h.root_lt h.pid_lt h.level_lt h.dvd hx
  exact ⟨by rw [hx₂], hpath⟩

theorem Sends.inTree (h : Sends cfg pid l msg) {y : Nat × JiaMsg}
    (hy : y ∈ bcastserver cfg pid msg) : InTree cfg pid y.1 y.2 := by
  obtain ⟨hmsg, hpath⟩ := h.mem hy
  have hroot : rootOf y.2 = rootOf msg := by
    rw [hmsg]
    exact rootOf_rootLevel rfl (root_lt_pow h.root_lt)
  have hlevel : levelOf y.2 = l := by
    rw [hmsg]
    exact levelOf_rootLevel rfl (h.level_lt.trans (bcastLevel_lt cfg))
  have hop : y.2.op = if l = 0 then msg.op - BCAST else msg.op := by rw [hmsg]; rfl
  have hlow := h.op
  have hhigh := h.op_lt
  refine ⟨by rw [hroot]; exact h.root_lt, by rw [hroot, hlevel]; exact hpath, ?_, ?_, by rw [hmsg]; rfl⟩
  · rw [hop, hlevel]
    split
    · omega
    · omega
  · rw [hop]
    split
    · omega
    · omega

/-- The copy for `h` that a relay sends, as the queue of its root reads it. -/
theorem Sends.read (h : Sends cfg pid l msg) {y : Nat × JiaMsg}
    (hy : y ∈ bcastserver cfg pid msg) (root' l' : Nat) :
    read root' l' y.2 = if rootOf msg = root' ∧ l = l' then
      some (msg.op - BCAST, msg.scope, msg.data) else none := by
  have htree := h.inTree hy
  obtain ⟨hmsg, -⟩ := h.mem hy
  have hroot : rootOf y.2 = rootOf msg := by
    rw [hmsg]
    exact rootOf_rootLevel rfl (root_lt_pow h.root_lt)
  have hlevel : levelOf y.2 = l := by
    rw [hmsg]
    exact levelOf_rootLevel rfl (h.level_lt.trans (bcastLevel_lt cfg))
  by_cases hsame : rootOf msg = root' ∧ l = l'
  · obtain ⟨rfl, rfl⟩ := hsame
    have hread := htree.read
    rw [hroot, hlevel] at hread
    rw [hread, if_pos (And.intro rfl rfl)]
    have hlow := h.op
    have hhigh := h.op_lt
    have hop : y.2.op = if l = 0 then msg.op - BCAST else msg.op := by rw [hmsg]; rfl
    have hscope : y.2.scope = msg.scope := by rw [hmsg]; rfl
    have hdata : y.2.data = msg.data := by rw [hmsg]; rfl
    simp only [JiaMsg.body, hop, hscope, hdata]
    by_cases hl : l = 0
    · rw [if_pos hl, if_neg (by omega)]
    · rw [if_neg hl, if_pos hlow]
  · rw [if_neg hsame]
    apply if_neg
    rw [hroot, hlevel]
    exact fun hcond => hsame ⟨hcond.1, hcond.2.1⟩

theorem Sends.filterMap (h : Sends cfg pid l msg) {d : Nat} (hd : d < (tree cfg).hostc) :
    (outboxTo (bcastserver cfg pid msg) (castDst (tree cfg) (rootOf msg) d l)).filterMap
        (TreeCast.read (rootOf msg) l) =
      if above (l + 1) (treePos (tree cfg) (rootOf msg) d) = treePos (tree cfg) (rootOf msg) pid then
        [(msg.op - BCAST, msg.scope, msg.data)] else [] := by
  have hout : outboxTo (bcastserver cfg pid msg) (castDst (tree cfg) (rootOf msg) d l) =
      (if above (l + 1) (treePos (tree cfg) (rootOf msg) d) =
          treePos (tree cfg) (rootOf msg) pid then [relayed pid (rootOf msg) l msg] else []).map
        fun m => m.setTopid (castDst (tree cfg) (rootOf msg) d l) := by
    rw [bcastserver_eq h.level]
    rw [outboxTo_map_addr (fun d m => JiaMsg.setTopid m d)]
    rw [outboxTo_relayOut rfl h.root_lt hd h.pid_lt h.dvd]
  by_cases hon : above (l + 1) (treePos (tree cfg) (rootOf msg) d) =
      treePos (tree cfg) (rootOf msg) pid
  · rw [if_pos hon] at hout ⊢
    have hmem : (castDst (tree cfg) (rootOf msg) d l,
        (relayed pid (rootOf msg) l msg).setTopid (castDst (tree cfg) (rootOf msg) d l)) ∈
        bcastserver cfg pid msg := by
      rw [← mem_outboxTo, hout]
      exact List.mem_singleton.mpr rfl
    have hread := h.read hmem (rootOf msg) l
    rw [if_pos (And.intro rfl rfl)] at hread
    rw [hout, List.map_singleton, List.filterMap_cons_some hread, List.filterMap_nil]
  · rw [if_neg hon] at hout ⊢
    rw [hout]
    rfl

end Relay

/-! ## The queue of copies -/

section Pending

variable {n : Net JiaMsg} {a b h root l : Nat} {msg : JiaMsg} {rest : List JiaMsg}

/-- A relay passes a copy on. -/
theorem pending_forward (hr : root < cfg.hostc) (hh : h < cfg.hostc)
    (hnet : n a b = msg :: rest) (htree : InTree cfg a b msg) (hop : BCAST ≤ msg.op) :
    (cast cfg hr).pending (send (drop n a b) b (bcastserver cfg b msg)) h =
      (cast cfg hr).pending n h := by
  obtain ⟨l, hs⟩ := htree.sends hop
  by_cases hroot : rootOf msg = root
  · subst hroot
    have hread := htree.read
    rw [if_pos hop, hs.level] at hread
    have hpath := htree.path
    rw [hs.level] at hpath
    have hout := hs.filterMap hh
    have hup : above (l + 1) (treePos (tree cfg) (rootOf msg) h) < (tree cfg).hostc :=
      (above_le _ _).trans_lt (treePos_lt hs.root_lt hh)
    have hsrc : castSrc (tree cfg) (rootOf msg) h l = castDst (tree cfg) (rootOf msg) h (l + 1) :=
      rfl
    have hiff : castDst (tree cfg) (rootOf msg) h (l + 1) = b ↔
        above (l + 1) (treePos (tree cfg) (rootOf msg) h) = treePos (tree cfg) (rootOf msg) b := by
      change treeHost (tree cfg) (rootOf msg) _ = b ↔ _
      constructor
      · intro heq
        rw [← heq, treePos_treeHost hs.root_lt hup]
      · intro heq
        rw [heq, treeHost_treePos hs.root_lt hs.pid_lt]
    refine Relay.Cast.pending_forward (c := cast cfg hr) hpath.level hnet hread ?_ ?_ ?_
    · rintro ⟨-, hdst⟩
      refine ⟨hsrc.trans hdst, ?_⟩
      rw [if_pos (hiff.mp hdst)] at hout
      exact hout
    · intro hoff hsrc'
      have hdst := hiff.mp (hsrc.symm.trans hsrc')
      -- a host below this relay gets its copies on the channel the message came on
      refine absurd ⟨?_, hiff.mpr hdst⟩ hoff
      have hchan := hpath.src
      change treeHost (tree cfg) (rootOf msg) _ = a at hchan
      change treeHost (tree cfg) (rootOf msg) _ = a
      rw [← hchan, ← hdst, above_above]
    · intro l' hl' y hy
      change read (rootOf msg) l' y.2 = none
      rw [hs.read hy, if_neg fun hcond => hl' hcond.2.symm]
  · have hquiet : ∀ l', (cast cfg hr).read l' msg = none :=
      fun l' => if_neg fun hcond => hroot hcond.1
    rw [Relay.Cast.pending_send_quiet, Relay.Cast.pending_drop_quiet hnet hquiet]
    intro y hy l'
    change read root l' y.2 = none
    rw [hs.read hy, if_neg fun hcond => hroot hcond.1]

/-- A host takes its copy off the queue of its root. -/
theorem pending_handle (hr : root < cfg.hostc) (hh : h < cfg.hostc)
    (hnet : n a b = msg :: rest) (htree : InTree cfg a b msg) (hop : ¬ BCAST ≤ msg.op) :
    (cast cfg hr).pending n h =
      (if h = b ∧ rootOf msg = root then [msg.body] else []) ++
        (cast cfg hr).pending (drop n a b) h := by
  have hlevel : levelOf msg = 0 := by
    have := htree.op
    omega
  by_cases hroot : rootOf msg = root
  · subst hroot
    have hread := htree.read
    rw [if_neg hop, hlevel] at hread
    by_cases hb : h = b
    · subst hb
      have hpath := htree.path
      rw [hlevel] at hpath
      rw [if_pos ⟨rfl, rfl⟩]
      exact Relay.Cast.pending_deliver (c := cast cfg hr) hh hnet hread hpath.src
    · rw [if_neg fun hcond => hb hcond.1]
      exact (Relay.Cast.pending_deliver_ne (c := cast cfg hr) hh hb hnet hread).symm
  · rw [if_neg fun hcond => hroot hcond.2]
    have hquiet : ∀ l', (cast cfg hr).read l' msg = none :=
      fun l' => if_neg fun hcond => hroot hcond.1
    exact (Relay.Cast.pending_drop_quiet (c := cast cfg hr) hnet hquiet).symm

theorem bsend_sends (hr : root < cfg.hostc) (hop : msg.op < BCAST) :
    ∃ l, bcastLevel cfg = l + 1 ∧ Sends cfg root l
      { msg with op := msg.op + BCAST, temp := rootLevel root (bcastLevel cfg) } := by
  obtain ⟨l, hl⟩ := Nat.exists_eq_succ_of_ne_zero (bcastLevel_pos cfg).ne'
  have hroot : rootOf { msg with op := msg.op + BCAST, temp := rootLevel root (bcastLevel cfg) } =
      root := rootOf_rootLevel rfl (root_lt_pow hr)
  refine ⟨l, hl, hr, by rw [hroot]; exact hr, ?_, by omega, ?_, by simp, by simp; omega⟩
  · exact (levelOf_rootLevel rfl (bcastLevel_lt cfg)).trans hl
  · rw [hroot, treePos_self]
    exact Nat.dvd_zero _

/-- The root appends a message to every queue of its own. -/
theorem pending_bsend {root' : Nat} (hr : root < cfg.hostc) (hr' : root' < cfg.hostc)
    (hh : h < cfg.hostc) (hop : msg.op < BCAST) :
    (cast cfg hr).pending (send n root' (bsendmsg cfg root' msg)) h =
      (cast cfg hr).pending n h ++ if root' = root then [msg.body] else [] := by
  obtain ⟨l, hl, hs⟩ := bsend_sends hr' hop
  have hroot' : rootOf { msg with op := msg.op + BCAST, temp := rootLevel root' (bcastLevel cfg) } =
      root' := rootOf_rootLevel rfl (root_lt_pow hr')
  by_cases hroot : root' = root
  · subst hroot
    rw [if_pos rfl]
    have hout := hs.filterMap hh
    have htop : above (l + 1) (treePos (tree cfg) root' h) = treePos (tree cfg) root' root' := by
      have hpos : treePos (tree cfg) root' h < (tree cfg).hostc := treePos_lt hr hh
      have hroom : (tree cfg).hostc ≤ 2 ^ bcastLevel cfg :=
        @hostc_le_two_pow_bcastLevel cfg
      rw [treePos_self, above_eq_zero]
      rw [← hl]
      exact hpos.trans_le hroom
    rw [hroot', if_pos htop] at hout
    have hlevels : (cast cfg hr).levels = l + 1 := hl
    apply Relay.Cast.pending_start hlevels
    · refine ⟨?_, ?_⟩
      · change treeHost (tree cfg) root' _ = root'
        rw [htop]
        exact treeHost_treePos hr hr
      · have hbody : msg.body = (msg.op + BCAST - BCAST, msg.scope, msg.data) := by
          rw [Nat.add_sub_cancel]
          rfl
        rw [hbody]
        exact hout
    · intro l' hl' y hy
      change read root' l' y.2 = none
      rw [hs.read hy, if_neg fun hcond => absurd hcond.2 hl'.ne']
  · rw [if_neg hroot, List.append_nil]
    apply Relay.Cast.pending_send_quiet (c := cast cfg hr)
    intro y hy l'
    change read root l' y.2 = none
    rw [hs.read hy, hroot', if_neg fun hcond => hroot hcond.1]

end Pending

/-! ## Runs -/

/-- What holds of the messages in flight and the histories in every run. -/
structure CastOk (cfg : Config) (s : CastState) : Prop where
  tree : ∀ a b, ∀ msg ∈ s.net a b, InTree cfg a b msg
  queue : ∀ root (hr : root < cfg.hostc), ∀ h < cfg.hostc, (s.sent root).map JiaMsg.body =
    ((s.handled h).filter fun m => rootOf m = root).map JiaMsg.body ++
      (cast cfg hr).pending s.net h
  topid : ∀ h, ∀ msg ∈ s.handled h, msg.topid = h

theorem inTree_send {n : Net JiaMsg} {pid : Nat} {out : Outbox JiaMsg}
    (hn : ∀ a b, ∀ msg ∈ n a b, InTree cfg a b msg) (hout : ∀ y ∈ out, InTree cfg pid y.1 y.2) :
    ∀ a b, ∀ msg ∈ send n pid out a b, InTree cfg a b msg := by
  intro a b msg hmsg
  rcases mem_send.mp hmsg with hold | ⟨rfl, hnew⟩
  · exact hn a b msg hold
  · exact hout _ hnew

theorem inTree_drop {n : Net JiaMsg} {src dst : Nat}
    (hn : ∀ a b, ∀ msg ∈ n a b, InTree cfg a b msg) :
    ∀ a b, ∀ msg ∈ drop n src dst a b, InTree cfg a b msg := by
  intro a b msg hmsg
  exact hn a b msg (mem_of_mem_drop hmsg)

/-- What one step does. -/
theorem castStep_cases {s s' : CastState} {e : CastEvent} (h : castStep cfg s e = .ok s') :
    (∃ root msg, e = .bsend root msg ∧ root < cfg.hostc ∧ msg.op < BCAST ∧
      s' = { s with
        net := send s.net root (bsendmsg cfg root msg)
        sent := upd s.sent root (s.sent root ++ [msg]) }) ∨
    (∃ src dst msg rest, e = .deliver src dst ∧ s.net src dst = msg :: rest ∧ BCAST ≤ msg.op ∧
      s' = { s with net := send (drop s.net src dst) dst (bcastserver cfg dst msg) }) ∨
    (∃ src dst msg rest, e = .deliver src dst ∧ s.net src dst = msg :: rest ∧ ¬ BCAST ≤ msg.op ∧
      s' = { s with
        net := drop s.net src dst, handled := upd s.handled dst (s.handled dst ++ [msg]) }) := by
  cases e with
  | bsend root msg =>
      simp only [castStep, bind_eq_ok, await_eq_ok, pure, Except.pure, Except.ok.injEq] at h
      obtain ⟨-, ⟨hr, hop⟩, rfl⟩ := h
      exact Or.inl ⟨root, msg, rfl, hr, hop, rfl⟩
  | deliver src dst =>
      simp only [castStep] at h
      split at h
      · cases h
      · rename_i msg rest hnet
        split at h
        · rename_i hop
          exact Or.inr (Or.inl ⟨src, dst, msg, rest, rfl, hnet, hop, (Except.ok.inj h).symm⟩)
        · rename_i hop
          exact Or.inr (Or.inr ⟨src, dst, msg, rest, rfl, hnet, hop, (Except.ok.inj h).symm⟩)

theorem castOk_step {s s' : CastState} {e : CastEvent} (hok : CastOk cfg s)
    (h : castStep cfg s e = .ok s') : CastOk cfg s' := by
  rcases castStep_cases h with ⟨root, msg, -, hr, hop, rfl⟩ |
    ⟨src, dst, msg, rest, -, hnet, hop, rfl⟩ | ⟨src, dst, msg, rest, -, hnet, hop, rfl⟩
  · refine ⟨inTree_send hok.tree ?_, ?_, hok.topid⟩
    · obtain ⟨l, -, hs⟩ := bsend_sends hr hop
      exact fun y hy => hs.inTree hy
    · intro root' hr' h hh
      dsimp only
      rw [pending_bsend hr' hr hh hop]
      by_cases hroot : root = root'
      · subst hroot
        rw [upd_same, if_pos rfl, List.map_append, hok.queue root hr h hh, List.append_assoc]
        rfl
      · rw [upd_of_ne _ _ (Ne.symm hroot), if_neg hroot, List.append_nil]
        exact hok.queue root' hr' h hh
  · have htree : InTree cfg src dst msg := hok.tree src dst msg (by rw [hnet]; exact List.mem_cons_self)
    refine ⟨inTree_send (inTree_drop hok.tree) ?_, ?_, hok.topid⟩
    · obtain ⟨l, hs⟩ := htree.sends hop
      exact fun y hy => hs.inTree hy
    · intro root hr h hh
      dsimp only
      rw [pending_forward hr hh hnet htree hop]
      exact hok.queue root hr h hh
  · have htree : InTree cfg src dst msg := hok.tree src dst msg (by rw [hnet]; exact List.mem_cons_self)
    refine ⟨inTree_drop hok.tree, ?_, ?_⟩
    · intro root hr h hh
      dsimp only
      rw [hok.queue root hr h hh, pending_handle hr hh hnet htree hop]
      by_cases hb : h = dst
      · subst hb
        rw [upd_same, List.filter_append, List.map_append, List.append_assoc]
        by_cases hroot : rootOf msg = root
        · rw [if_pos ⟨rfl, hroot⟩, List.filter_cons_of_pos (by simpa using hroot)]
          rfl
        · rw [if_neg fun hcond => hroot hcond.2, List.filter_cons_of_neg (by simpa using hroot)]
          rfl
      · rw [upd_of_ne _ _ hb, if_neg fun hcond => hb hcond.1, List.nil_append]
    · intro k m hm
      dsimp only at hm
      by_cases hb : k = dst
      · subst hb
        rw [upd_same, List.mem_append, List.mem_singleton] at hm
        rcases hm with hm | rfl
        · exact hok.topid k m hm
        · exact htree.topid
      · rw [upd_of_ne _ _ hb] at hm
        exact hok.topid k m hm

theorem reach_castOk {s : CastState} (hs : (castSystem cfg).Reach s) : CastOk cfg s := by
  refine hs.invariant (I := CastOk cfg) ?_ fun s e s' _ hok hnext => castOk_step hok hnext
  refine ⟨fun a b msg hm => (List.not_mem_nil hm).elim, ?_, fun h m hm => (List.not_mem_nil hm).elim⟩
  intro root hr h hh
  have hempty : (cast cfg hr).pending (castSystem cfg).start.net h = [] := by
    rw [Relay.Cast.pending, List.flatMap_eq_nil_iff]
    intro l _
    rfl
  rw [hempty]
  rfl

/-! ## No message stays in circulation -/

/-- Twice the number of hops that can be left to a message, less one. -/
def hops (msg : JiaMsg) : Nat := 2 ^ (levelOf msg + 1) - 1

theorem InTree.channel_lt {a b : Nat} {msg : JiaMsg} (h : InTree cfg a b msg) :
    a < cfg.hostc ∧ b < cfg.hostc := by
  refine ⟨?_, h.path.lt⟩
  rw [← h.path.src]
  exact @treeHost_lt (tree cfg) _ _

theorem Sends.length_le {pid l : Nat} {msg : JiaMsg} (h : Sends cfg pid l msg) :
    (bcastserver cfg pid msg).length ≤ 2 := by
  rw [bcastserver_eq h.level, List.length_map, relayOut, List.length_append]
  split
  · exact Nat.le_refl _
  · exact Nat.le_succ _

/-- A hop takes more off the load than it adds. -/
theorem Sends.hops_lt {pid l : Nat} {msg : JiaMsg} (h : Sends cfg pid l msg) :
    ((bcastserver cfg pid msg).map fun y => hops y.2).sum < hops msg := by
  have hconst : ∀ x ∈ (bcastserver cfg pid msg).map fun y => hops y.2, x ≤ 2 ^ (l + 1) - 1 := by
    intro x hx
    obtain ⟨y, hy, rfl⟩ := List.mem_map.mp hx
    obtain ⟨hmsg, -⟩ := h.mem hy
    have hlevel : levelOf y.2 = l := by
      rw [hmsg]
      exact levelOf_rootLevel rfl (h.level_lt.trans (bcastLevel_lt cfg))
    rw [hops, hlevel]
  have hsum := List.sum_le_card_nsmul _ _ hconst
  rw [List.length_map, nsmul_eq_mul, Nat.cast_id] at hsum
  have hlen := Nat.mul_le_mul_right (2 ^ (l + 1) - 1) h.length_le
  have hpow : 2 ^ (l + 1 + 1) = 2 * 2 ^ (l + 1) := by rw [pow_succ, Nat.mul_comm]
  have hpos := Nat.two_pow_pos (l + 1)
  rw [hops, h.level, hpow]
  omega

/-- Every delivery takes from the load. -/
theorem load_deliver {s s' : CastState} {src dst : Nat} (hok : CastOk cfg s)
    (h : castStep cfg s (.deliver src dst) = .ok s') :
    load hops cfg.hostc s'.net < load hops cfg.hostc s.net := by
  rcases castStep_cases h with ⟨root, msg, heq, -⟩ |
    ⟨a, b, msg, rest, heq, hnet, hop, rfl⟩ | ⟨a, b, msg, rest, heq, hnet, hop, rfl⟩
  · cases heq
  · have htree : InTree cfg a b msg := hok.tree a b msg (by rw [hnet]; exact List.mem_cons_self)
    obtain ⟨l, hs⟩ := htree.sends hop
    have hdrop := load_drop (w := hops) htree.channel_lt.1 htree.channel_lt.2 hnet
    have hsend := load_send (w := hops) (n := drop s.net a b) htree.channel_lt.2
      fun y hy => (hs.inTree hy).channel_lt.2
    have hlt := hs.hops_lt
    dsimp only
    rw [hsend, hdrop]
    omega
  · have htree : InTree cfg a b msg := hok.tree a b msg (by rw [hnet]; exact List.mem_cons_self)
    have hdrop := load_drop (w := hops) htree.channel_lt.1 htree.channel_lt.2 hnet
    have hpos : 0 < hops msg := by
      have hpow : 2 ≤ 2 ^ (levelOf msg + 1) := by
        rw [pow_succ]
        have := Nat.two_pow_pos (levelOf msg)
        omega
      rw [hops]
      omega
    dsimp only
    rw [hdrop]
    omega

def CastEvent.isDeliver : CastEvent → Bool
  | .deliver _ _ => true
  | .bsend _ _ => false

/-- A run of deliveries is no longer than the load it starts with. -/
theorem length_le_load {s s' : CastState} {es : List CastEvent} (hok : CastOk cfg s)
    (hrun : (castSystem cfg).Run s es s') (hes : ∀ e ∈ es, e.isDeliver = true) :
    es.length + load hops cfg.hostc s'.net ≤ load hops cfg.hostc s.net := by
  induction hrun with
  | nil s => simp
  | @cons s s₁ s₂ e es hnext hrun ih =>
      have hok₁ := castOk_step hok hnext
      have hle := ih hok₁ fun e he => hes e (List.mem_cons_of_mem _ he)
      have hlt : load hops cfg.hostc s₁.net < load hops cfg.hostc s.net := by
        cases e with
        | bsend root msg => cases hes _ List.mem_cons_self
        | deliver src dst => exact load_deliver hok hnext
      rw [List.length_cons]
      omega

/-! ## Broadcast one by one -/

/-- `broadcast` with `B_CAST` off. -/
def oneByOne (cfg : Config) (msg : JiaMsg) : Outbox JiaMsg :=
  (List.range cfg.hostc).map fun hosti => (hosti, msg.setTopid hosti)

theorem oneByOne_to (msgs : List JiaMsg) {h : Nat} (hh : h < cfg.hostc) :
    (outboxTo (msgs.flatMap (oneByOne cfg)) h).map JiaMsg.body = msgs.map JiaMsg.body := by
  induction msgs with
  | nil => rfl
  | cons msg msgs ih =>
      have hout : oneByOne cfg msg =
          ((List.range cfg.hostc).map fun d => (d, msg)).map fun x => (x.1, x.2.setTopid x.1) := by
        rw [List.map_map]
        rfl
      have hone : outboxTo (oneByOne cfg msg) h = [msg.setTopid h] := by
        rw [hout, outboxTo_map_addr (fun d m => JiaMsg.setTopid m d), outboxTo_map_range msg hh]
        rfl
      rw [List.flatMap_cons, outboxTo_append, hone, List.map_append, ih]
      rfl

/-- Tree broadcasts in every run of any number of roots.  What a host has handled
of a root's broadcasts is the beginning of what the broadcast one by one brings
it, in order and each message once, with its own address; when no message is in
flight it is all of it.  A message in flight can be delivered, and deliveries
come to an end. -/
theorem tree_broadcast {s : CastState} (hs : (castSystem cfg).Reach s) :
    (∀ root < cfg.hostc, ∀ h < cfg.hostc,
      ((s.handled h).filter fun m => rootOf m = root).map JiaMsg.body <+:
        (outboxTo ((s.sent root).flatMap (oneByOne cfg)) h).map JiaMsg.body) ∧
    (∀ h, ∀ msg ∈ s.handled h, msg.topid = h) ∧
    ((∀ a b, s.net a b = []) → ∀ root < cfg.hostc, ∀ h < cfg.hostc,
      ((s.handled h).filter fun m => rootOf m = root).map JiaMsg.body =
        (outboxTo ((s.sent root).flatMap (oneByOne cfg)) h).map JiaMsg.body) ∧
    (∀ src dst, s.net src dst ≠ [] → ∃ s', (castSystem cfg).next s (.deliver src dst) s') ∧
    ∀ es s', (castSystem cfg).Run s es s' → (∀ e ∈ es, e.isDeliver = true) →
      es.length ≤ load hops cfg.hostc s.net := by
  have hok := reach_castOk hs
  refine ⟨?_, hok.topid, ?_, ?_, ?_⟩
  · intro root hr h hh
    rw [oneByOne_to _ hh, hok.queue root hr h hh]
    exact List.prefix_append _ _
  · intro hempty root hr h hh
    have hpending : (cast cfg hr).pending s.net h = [] := by
      rw [Relay.Cast.pending, List.flatMap_eq_nil_iff]
      intro l _
      rw [Relay.Cast.segment, hempty]
      rfl
    rw [oneByOne_to _ hh, hok.queue root hr h hh, hpending, List.append_nil]
  · intro src dst hne
    obtain ⟨msg, rest, hnet⟩ := List.exists_cons_of_ne_nil hne
    change ∃ s', castStep cfg s (.deliver src dst) = .ok s'
    simp only [castStep, hnet]
    split
    · exact ⟨_, rfl⟩
    · exact ⟨_, rfl⟩
  · intro es s' hrun hes
    have hle := length_le_load hok hrun hes
    omega

/-- Host 1 of two broadcasts a message, and both hosts handle it. -/
theorem tree_broadcast_fromHost1 :
    ∃ s, (castSystem .noPages).Reach s ∧ (s.handled 0).map JiaMsg.body = [(6, 3, [9])] ∧
      ((s.handled 0).filter fun m => rootOf m = 1).map JiaMsg.body <+:
        (outboxTo ((s.sent 1).flatMap (oneByOne .noPages)) 0).map JiaMsg.body := by
  obtain ⟨s, hs, hcheck⟩ := System.exists_execBy (S := castSystem .noPages)
    (fun _ _ _ h => h) [.bsend 1 ⟨6, 1, 1, 0, 3, [9]⟩, .deliver 1 0, .deliver 1 1]
    (fun s => decide ((s.handled 0).map JiaMsg.body = [(6, 3, [9])])) (by decide +kernel)
  exact ⟨s, hs, of_decide_eq_true hcheck,
    (tree_broadcast hs).1 1 (by decide) 0 (by decide)⟩

end Jiajia.TreeCast
